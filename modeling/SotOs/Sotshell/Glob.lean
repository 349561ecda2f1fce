import Mathlib.Data.List.Forall2
import Mathlib.Data.List.Infix

/-! Wildcard matching of the shell. A string is its bytes before the terminator; a null pointer is
no string and is left out. -/

namespace SotOs.Sotshell

def star : UInt8 := 0x2a
def anyOne : UInt8 := 0x3f

def globMatch : List UInt8 → List UInt8 → Bool
  | [], name => name.isEmpty
  | p :: pattern, name =>
    if p = star then
      let rest := pattern.dropWhile (· == star)
      -- the remainder is tried at every position, the end of the name included
      rest.isEmpty || name.tails.any (globMatch rest)
    else
      match name with
      | [] => false
      | c :: name => if p ≠ anyOne ∧ p ≠ c then false else globMatch pattern name
termination_by pattern => pattern.length
decreasing_by
  · exact Nat.lt_succ_of_le (List.dropWhile_suffix _).length_le
  · exact Nat.lt_succ_self _

/-- What a pattern byte may stand for. -/
def Stands (p : UInt8) (part : List UInt8) : Prop :=
  if p = star then True else if p = anyOne then part.length = 1 else part = [p]

variable (pattern name : List UInt8)

def Splits : Prop :=
  ∃ parts, List.Forall₂ Stands pattern parts ∧ parts.flatten = name

@[simp] theorem splits_nil : Splits [] name ↔ name = [] := by
  simp [Splits, eq_comm]

theorem splits_cons (p : UInt8) (pattern name : List UInt8) :
    Splits (p :: pattern) name ↔
      ∃ part rest, Stands p part ∧ Splits pattern rest ∧ part ++ rest = name := by
  constructor
  · rintro ⟨_, hparts, rfl⟩
    obtain ⟨part, parts, hpart, hrest, rfl⟩ := List.forall₂_cons_left_iff.mp hparts
    exact ⟨part, parts.flatten, hpart, ⟨parts, hrest, rfl⟩, rfl⟩
  · rintro ⟨part, _, hpart, ⟨parts, hrest, rfl⟩, rfl⟩
    exact ⟨part :: parts, .cons hpart hrest, rfl⟩

theorem splits_star :
    Splits (star :: pattern) name ↔ ∃ rest, rest <:+ name ∧ Splits pattern rest := by
  simp only [splits_cons, Stands, if_true, true_and, List.IsSuffix]
  exact ⟨fun ⟨part, rest, h, e⟩ => ⟨rest, ⟨part, e⟩, h⟩,
    fun ⟨rest, ⟨part, e⟩, h⟩ => ⟨part, rest, h, e⟩⟩

theorem splits_dropStars :
    Splits (star :: pattern.dropWhile (· == star)) name ↔ Splits (star :: pattern) name := by
  induction pattern generalizing name with
  | nil => rfl
  | cons p pattern ih =>
    by_cases hp : p = star
    · subst hp
      rw [List.dropWhile_cons_of_pos (by rfl), ih, splits_star, splits_star]
      constructor
      · rintro ⟨rest, hrest, h⟩
        exact ⟨rest, hrest, (splits_star pattern rest).mpr ⟨rest, List.suffix_rfl, h⟩⟩
      · rintro ⟨mid, hmid, h⟩
        obtain ⟨rest, hrest, h⟩ := (splits_star pattern mid).mp h
        exact ⟨rest, hrest.trans hmid, h⟩
    · rw [List.dropWhile_cons_of_neg (by simpa using hp)]

theorem splits_one {p : UInt8} (hp : p ≠ star) (pattern name : List UInt8) :
    Splits (p :: pattern) name ↔
      ∃ c rest, name = c :: rest ∧ (p = anyOne ∨ p = c) ∧ Splits pattern rest := by
  rw [splits_cons]
  constructor
  · rintro ⟨part, rest, hpart, hrest, rfl⟩
    rw [Stands, if_neg hp] at hpart
    split_ifs at hpart with hany
    · obtain ⟨c, rfl⟩ := List.length_eq_one_iff.mp hpart
      exact ⟨c, rest, rfl, .inl hany, hrest⟩
    · exact ⟨p, rest, by rw [hpart]; rfl, .inr rfl, hrest⟩
  · rintro ⟨c, rest, rfl, hc, hrest⟩
    refine ⟨[c], rest, ?_, hrest, rfl⟩
    rw [Stands, if_neg hp]
    split_ifs with hany
    · rfl
    · rw [hc.resolve_left hany]

theorem globMatch_iff (pattern name : List UInt8) :
    globMatch pattern name = true ↔ Splits pattern name := by
  fun_induction globMatch pattern name with
  | case1 name => simp
  | case2 pattern name rest ih =>
    rw [← splits_dropStars, splits_star]
    change _ ↔ ∃ tail, tail <:+ name ∧ Splits rest tail
    by_cases hrest : rest = []
    · simp [hrest]
    · simp [hrest, ih]
  | case3 p pattern hp => simp [splits_one hp]
  | case4 p pattern hp c name hc => simp [splits_one hp, hc]
  | case5 p pattern hp c name hc ih =>
    have hc : p = anyOne ∨ p = c := by tauto
    simp [splits_one hp, hc, ih]

end SotOs.Sotshell
