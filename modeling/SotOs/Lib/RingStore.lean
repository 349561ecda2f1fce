import Mathlib

/-! A stream kept in a store with fewer cells than the stream has elements: element number `k` goes
into the cell `pos k`, over whatever the cell held. -/

namespace RingStore
open List
variable {α C : Type*} {pos : ℕ → C}

def load (pos : ℕ → C) (cells : C → α) (k n : ℕ) : List α :=
  (List.range n).map fun i => cells (pos (k + i))

@[simp] theorem load_length (cells : C → α) (k n : ℕ) : (load pos cells k n).length = n := by
  simp [load]

variable {cells : C → α}

theorem load_head {k n : ℕ} :
    (load pos cells k (n + 1))[0]? = some (cells (pos k)) := by
  simp [load]

/-- Of a stream with `n` elements, no element after number `k` was sent to its cell. -/
def Survives (pos : ℕ → C) (n k : ℕ) : Prop := ∀ j, k < j → j < n → pos j ≠ pos k

def Kept (pos : ℕ → C) (s : List α) (cells : C → α) : Prop :=
  ∀ k (h : k < s.length), Survives pos s.length k → cells (pos k) = s[k]

theorem kept_nil : Kept pos [] cells := by
  intro k h
  exact absurd h (Nat.not_lt_zero k)

theorem Kept.load {s : List α} (h : Kept pos s cells) {k n : ℕ}
    (hfit : k + n ≤ s.length) (hsurv : ∀ i < n, Survives pos s.length (k + i)) :
    load pos cells k n = (s.drop k).take n := by
  refine ext_getElem ?_ ?_
  · rw [load_length, length_take, length_drop]
    omega
  · intro i hi _
    rw [load_length] at hi
    have hcell := h (k + i) (by omega) (hsurv i hi)
    simpa [RingStore.load] using hcell

theorem survives_of_distinct {n k : ℕ} (hpos : ∀ i j, k ≤ i → i < j → j < n → pos j ≠ pos i) {i : ℕ} :
    Survives pos n (k + i) :=
  fun j hij hj => hpos (k + i) j (Nat.le_add_right k i) hij hj

variable [DecidableEq C]

def store (pos : ℕ → C) (cells : C → α) : ℕ → List α → C → α
  | _, [] => cells
  | k, x :: xs => store pos (Function.update cells (pos k) x) (k + 1) xs

theorem Kept.snoc {s : List α} (h : Kept pos s cells) (x : α) :
    Kept pos (s ++ [x]) (Function.update cells (pos s.length) x) := by
  intro k hk hsurv
  rw [length_append, length_singleton] at hk hsurv
  rcases Nat.lt_succ_iff_lt_or_eq.mp hk with hlt | rfl
  · -- an older element is still there because the new one went elsewhere
    have hne : pos k ≠ pos s.length := (hsurv s.length hlt (Nat.lt_succ_self _)).symm
    rw [Function.update_of_ne hne, getElem_append_left hlt]
    exact h k hlt fun j hkj hj => hsurv j hkj (Nat.lt_succ_of_lt hj)
  · simp

theorem Kept.store {s : List α} (h : Kept pos s cells) (xs : List α) :
    Kept pos (s ++ xs) (store pos cells s.length xs) := by
  induction xs generalizing s cells with
  | nil => simpa [RingStore.store] using h
  | cons x xs ih =>
    have hnext := ih (h.snoc x)
    rw [length_append, length_singleton, append_assoc] at hnext
    exact hnext

end RingStore

namespace Fifo
variable {α : Type*}

inductive Op (α : Type*)
  | push (xs : List α)
  | pull (max : ℕ)

def step (q : List α) : Op α → List α × List α
  | .push xs => (q ++ xs, [])
  | .pull max => (q.drop max, q.take max)

end Fifo
