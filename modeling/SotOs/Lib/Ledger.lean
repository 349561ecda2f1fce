import Mathlib

/-! Units of a pool held in slots: claiming and releasing keep the two in step, forgetting a holder
does not. -/

namespace Ledger
open Function Finset
variable {ι K : Type*}

structure Book (ι K : Type*) where
  held : ι → Option K
  taken : K → Bool
  used : ℕ

structure Sound (b : Book ι K) : Prop where
  taken : ∀ i k, b.held i = some k → b.taken k = true
  distinct : ∀ i j k, b.held i = some k → b.held j = some k → i = j

theorem Sound.forget {b : Book ι K} (h : Sound b) {held : ι → Option K}
    (hsub : ∀ i k, held i = some k → b.held i = some k) : Sound { b with held } := by
  constructor
  · exact fun i k hk => h.taken i k (hsub i k hk)
  · exact fun i j k hi hj => h.distinct i j k (hsub i k hi) (hsub j k hj)

section
variable [Fintype ι]

def count (held : ι → Option K) : ℕ := (Finset.univ.filter fun i => (held i).isSome).card

theorem count_update_some [DecidableEq ι] {held : ι → Option K} {i : ι} (hi : held i = none)
    (k : K) : count (update held i (some k)) = count held + 1 := by
  have hset : (univ.filter fun j => (update held i (some k) j).isSome) =
      insert i (univ.filter fun j => (held j).isSome) := by
    ext j
    by_cases hj : j = i
    · simp [hj]
    · simp [hj]
  rw [count, hset, card_insert_of_notMem (by simp [hi]), count]

theorem count_update_none [DecidableEq ι] {held : ι → Option K} {i : ι} {k : K}
    (hi : held i = some k) : count (update held i none) + 1 = count held := by
  have hself : held = update (update held i none) i (some k) := by
    rw [update_idem, ← hi, update_eq_self]
  conv_rhs => rw [hself]
  exact (count_update_some (update_self ..) k).symm

theorem count_forget {held held' : ι → Option K}
    (hsub : ∀ i, (held' i).isSome = true → (held i).isSome = true) :
    count held' = count held ↔ ∀ i, (held i).isSome = true → (held' i).isSome = true := by
  have hle : (univ.filter fun i => (held' i).isSome) ⊆
      univ.filter fun i => (held i).isSome := by
    intro i
    simpa using hsub i
  constructor
  · intro hcount i hi
    have heq := eq_of_subset_of_card_le hle (Nat.le_of_eq hcount.symm)
    have hmem : i ∈ univ.filter fun i => (held i).isSome := by simpa using hi
    rw [← heq] at hmem
    simpa using hmem
  · intro hall
    have heq : (univ.filter fun i => (held' i).isSome) =
        univ.filter fun i => (held i).isSome := by
      apply Finset.Subset.antisymm hle
      intro i
      simpa using hall i
    rw [count, heq, count]

end

variable [DecidableEq ι] [DecidableEq K]

variable (b : Book ι K) (i : ι) (k : K)

def Book.claim : Book ι K :=
  ⟨Function.update b.held i (some k), Function.update b.taken k true, b.used + 1⟩

def Book.release : Book ι K :=
  ⟨Function.update b.held i none, Function.update b.taken k false, b.used - 1⟩

theorem claim_held :
    (b.claim i k).held = update b.held i (some k) := rfl

theorem claim_taken :
    (b.claim i k).taken = update b.taken k true := rfl

theorem release_held :
    (b.release i k).held = update b.held i none := rfl

theorem release_taken :
    (b.release i k).taken = update b.taken k false := rfl

/-- An empty slot takes a unit that is free, or a slot gives its unit back. -/
inductive Step (b : Book ι K) : Book ι K → Prop
  | claim (i : ι) (k : K) (hi : b.held i = none) (hk : b.taken k = false) : Step b (b.claim i k)
  | release (i : ι) (k : K) (hi : b.held i = some k) : Step b (b.release i k)

variable {b b' : Book ι K}

theorem Step.sound (hs : Step b b') (h : Sound b) : Sound b' := by
  cases hs with
  | claim i k hi hk =>
    have hother : ∀ {j k'}, j ≠ i → (b.claim i k).held j = some k' → b.held j = some k' ∧ k' ≠ k := by
      intro j k' hj hheld
      rw [claim_held, update_of_ne hj] at hheld
      refine ⟨hheld, ?_⟩
      rintro rfl
      rw [h.taken j k' hheld] at hk
      cases hk
    have hself : ∀ {k'}, (b.claim i k).held i = some k' → k' = k := by
      intro k' hheld
      rw [claim_held, update_self] at hheld
      exact (Option.some.inj hheld).symm
    constructor
    · intro j k' hheld
      by_cases hj : j = i
      · rw [hj] at hheld
        rw [hself hheld]
        exact update_self ..
      · obtain ⟨hheld, hne⟩ := hother hj hheld
        rw [claim_taken, update_of_ne hne]
        exact h.taken j k' hheld
    · intro j l k' hj hl
      by_cases hji : j = i <;> by_cases hli : l = i
      · rw [hji, hli]
      · rw [hji] at hj
        exact absurd (hself hj) (hother hli hl).2
      · rw [hli] at hl
        exact absurd (hself hl) (hother hji hj).2
      · exact h.distinct j l k' (hother hji hj).1 (hother hli hl).1
  | release i k hi =>
    have hother : ∀ {j k'}, (b.release i k).held j = some k' → j ≠ i ∧ b.held j = some k' := by
      intro j k' hheld
      have hj : j ≠ i := by
        rintro rfl
        rw [release_held, update_self] at hheld
        cases hheld
      rw [release_held, update_of_ne hj] at hheld
      exact ⟨hj, hheld⟩
    constructor
    · intro j k' hheld
      obtain ⟨hj, hold⟩ := hother hheld
      have hne : k' ≠ k := by
        rintro rfl
        exact hj (h.distinct j i k' hold hi)
      rw [release_taken, update_of_ne hne]
      exact h.taken j k' hold
    · exact fun j l k' hj hl => h.distinct j l k' (hother hj).2 (hother hl).2

theorem steps_sound (hs : Relation.ReflTransGen Step b b') (h : Sound b) :
    Sound b' := by
  induction hs with
  | refl => exact h
  | tail _ hstep ih => exact hstep.sound ih

variable [Fintype ι]

/-- The pool counts what the slots hold, over `u` units that nobody holds. -/
def Balanced (u : ℕ) (b : Book ι K) : Prop := b.used = count b.held + u

theorem Step.balanced {u : ℕ} (hs : Step b b') (h : Balanced u b) :
    Balanced u b' := by
  unfold Balanced at h ⊢
  cases hs with
  | claim i k hi hk =>
    have hcount := count_update_some hi k
    simp only [Book.claim]
    omega
  | release i k hi =>
    have hcount := count_update_none hi
    simp only [Book.release]
    omega

theorem steps_balanced {u : ℕ} (hs : Relation.ReflTransGen Step b b')
    (h : Balanced u b) : Balanced u b' := by
  induction hs with
  | refl => exact h
  | tail _ hstep ih => exact hstep.balanced ih

end Ledger
