import Mathlib

/-! A fixed-size array with a fill count: the filled part as a list that carries its bound. -/

/-- The first `count` cells of an array of `n`. -/
structure BoundedList (n : ℕ) (α : Type*) where
  toList : List α
  length_le : toList.length ≤ n

namespace BoundedList
variable {n : ℕ} {α : Type*}

instance [DecidableEq α] : DecidableEq (BoundedList n α) := fun a b =>
  decidable_of_iff (a.toList = b.toList) ⟨fun h => by cases a; cases b; simp_all, fun h => h ▸ rfl⟩

instance : Membership α (BoundedList n α) := ⟨fun l a => a ∈ l.toList⟩

instance [DecidableEq α] (a : α) (l : BoundedList n α) : Decidable (a ∈ l) :=
  inferInstanceAs (Decidable (a ∈ l.toList))

def empty : BoundedList n α := ⟨[], Nat.zero_le _⟩

def isFull (l : BoundedList n α) : Bool := decide (n ≤ l.toList.length)

def push (l : BoundedList n α) (a : α) : BoundedList n α :=
  if h : l.toList.length < n then ⟨l.toList ++ [a], by simpa using Nat.succ_le_of_lt h⟩ else l

variable {l : BoundedList n α}

theorem mem_def {a : α} : a ∈ l ↔ a ∈ l.toList := Iff.rfl

@[simp] theorem not_mem_empty {a : α} : a ∉ (empty : BoundedList n α) := List.not_mem_nil

@[simp] theorem toList_empty : (empty : BoundedList n α).toList = [] := rfl

theorem toList_push (h : l.isFull = false) (a : α) :
    (l.push a).toList = l.toList ++ [a] := by
  have hlt : l.toList.length < n := by simpa [isFull] using h
  simp only [push, hlt, dite_true]

theorem mem_push (h : l.isFull = false) {a b : α} :
    b ∈ l.push a ↔ b ∈ l ∨ b = a := by
  rw [mem_def, toList_push h, List.mem_append, List.mem_singleton, mem_def]

def fill (l : BoundedList n α) (as : List α) : BoundedList n α :=
  ⟨l.toList ++ as.take (n - l.toList.length), by
    have := l.length_le
    simp only [List.length_append, List.length_take]
    omega⟩

def consume (l : BoundedList n α) (k : ℕ) : BoundedList n α :=
  ⟨l.toList.drop k, by
    have := l.length_le
    simp only [List.length_drop]
    omega⟩

def ofList (as : List α) (h : as.length ≤ n) : BoundedList n α := ⟨as, h⟩

@[simp] theorem toList_fill {as : List α} :
    (l.fill as).toList = l.toList ++ as.take (n - l.toList.length) := rfl

@[simp] theorem toList_consume {k : ℕ} :
    (l.consume k).toList = l.toList.drop k := rfl

@[simp] theorem toList_ofList (as : List α) (h : as.length ≤ n) : (ofList as h).toList = as := rfl

end BoundedList
