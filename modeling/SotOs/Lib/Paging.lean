import Mathlib

/-! Items of different sizes handed out in rooms of given sizes, by a cursor that has already moved
on when an item turns out not to fit. -/

namespace Paging
open List Option
variable {α : Type*} (size : α → ℕ)

/-- What goes into one room, and what is left for the next. The item that does not fit is in
neither. -/
def fill (room : ℕ) : List α → ℕ → List α × List α
  | [], _ => ([], [])
  | a :: rest, used =>
    if room < used + size a then ([], rest)
    else ((a :: (fill room rest (used + size a)).1), (fill room rest (used + size a)).2)

def drain (rooms : ℕ → ℕ) : ℕ → ℕ → List α → Option (List α)
  | 0, _, _ => none
  | fuel + 1, n, items =>
    if (fill size (rooms n) items 0).1 = [] then some []
    else (drain rooms fuel (n + 1) (fill size (rooms n) items 0).2).map
      ((fill size (rooms n) items 0).1 ++ ·)

theorem fill_cases (room : ℕ) (items : List α) : ∀ used,
    (fill size room items used = (items, []) ∧ (items ≠ [] → used + (items.map size).sum ≤ room)) ∨
      ∃ lost, items = (fill size room items used).1 ++ lost :: (fill size room items used).2 ∧
        room < used + (items.map size).sum := by
  induction items with
  | nil => exact fun used => .inl ⟨rfl, fun h => absurd rfl h⟩
  | cons a rest ih =>
    intro used
    rw [fill]
    split_ifs with hfull
    · refine .inr ⟨a, rfl, ?_⟩
      rw [map_cons, sum_cons]
      omega
    · rw [map_cons, sum_cons]
      rcases ih (used + size a) with ⟨hall, hsum⟩ | ⟨lost, hsplit, hsum⟩
      · refine .inl ⟨by rw [hall], fun _ => ?_⟩
        cases rest with
        | nil => simpa using Nat.not_lt.mp hfull
        | cons b rest =>
          have := hsum (by simp)
          omega
      · refine .inr ⟨lost, ?_, by omega⟩
        rw [cons_append, ← hsplit]

theorem fill_length_le (room : ℕ) (items : List α) :
    (fill size room items 0).1.length + (fill size room items 0).2.length ≤ items.length := by
  rcases fill_cases size room items 0 with ⟨hall, -⟩ | ⟨lost, hsplit, -⟩
  · rw [hall]
    simp
  · conv_rhs => rw [hsplit]
    simp

theorem drain_length_le (rooms : ℕ → ℕ) {out : List α} (fuel : ℕ) : ∀ {n : ℕ} {items : List α},
    drain size rooms fuel n items = some out → out.length ≤ items.length := by
  induction fuel generalizing out with
  | zero => exact fun h => absurd h (by simp [drain])
  | succ fuel ih =>
    intro n items h
    have hlen := fill_length_le size (rooms n) items
    rw [drain] at h
    split_ifs at h
    · cases h
      simp
    · obtain ⟨out', hout', rfl⟩ := map_eq_some_iff.mp h
      have := ih hout'
      rw [length_append]
      omega

variable {rooms : ℕ → ℕ}

theorem drain_isSome {fuel : ℕ} : ∀ {n : ℕ} {items : List α},
    items.length < fuel → (drain size rooms fuel n items).isSome = true := by
  induction fuel with
  | zero => exact fun h => absurd h (Nat.not_lt_zero _)
  | succ fuel ih =>
    intro n items hfuel
    have hlen := fill_length_le size (rooms n) items
    rw [drain]
    split_ifs with hempty
    · rfl
    · rw [isSome_map]
      apply ih
      have := length_pos_of_ne_nil hempty
      omega

theorem drain_perm_iff (rooms : ℕ → ℕ) (n : ℕ) (items : List α) :
    (∃ fuel out, drain size rooms fuel n items = some out ∧ out.Perm items) ↔
      (items.map size).sum ≤ rooms n := by
  constructor
  · rintro ⟨fuel, out, hout, hperm⟩
    rcases fill_cases size (rooms n) items 0 with ⟨-, hsum⟩ | ⟨lost, hsplit, -⟩
    · by_cases hnil : items = []
      · simp [hnil]
      · simpa using hsum hnil
    · -- what is lost in the first room is not made up for later
      exfalso
      have hlen := hperm.length_eq
      have htotal := congrArg length hsplit
      rw [length_append, length_cons] at htotal
      cases fuel with
      | zero => simp [drain] at hout
      | succ fuel =>
        rw [drain] at hout
        split_ifs at hout
        · cases hout
          rw [length_nil] at hlen
          omega
        · obtain ⟨out', hout', rfl⟩ := map_eq_some_iff.mp hout
          have := drain_length_le size rooms fuel hout'
          rw [length_append] at hlen
          omega
  · intro hfits
    have hall : fill size (rooms n) items 0 = (items, []) := by
      rcases fill_cases size (rooms n) items 0 with ⟨hall, -⟩ | ⟨lost, hsplit, hsum⟩
      · exact hall
      · omega
    refine ⟨2, items, ?_, .refl _⟩
    rw [drain, hall]
    split_ifs with hnil
    · exact congrArg some (Eq.symm hnil)
    · simp [drain, fill]

end Paging
