import Mathlib

/-! A table of handles, each free or on one object, and how many handles an object has. -/

namespace RefCount
variable {η ι : Type*} [Fintype η] [DecidableEq η] [DecidableEq ι] {ref : η → Option ι} {h : η} {i : ι}

def holders (ref : η → Option ι) (i : ι) : Finset η := Finset.univ.filter fun h => ref h = some i

omit [DecidableEq η] in
@[simp] theorem mem_holders : h ∈ holders ref i ↔ ref h = some i := by simp [holders]

omit [DecidableEq η] in
theorem card_holders_le (ref : η → Option ι) (i : ι) : (holders ref i).card ≤ Fintype.card η :=
  Finset.card_le_univ _

theorem holders_take (hfree : ref h = none) (i k : ι) : holders (Function.update ref h (some i)) k =
      if k = i then insert h (holders ref k) else holders ref k := by
  ext h'
  by_cases hh : h' = h
  · subst hh
    by_cases hk : k = i
    · simp [hk]
    · simp [hk, hfree, Ne.symm hk]
  · by_cases hk : k = i <;> simp [hk, hh]

theorem holders_release (href : ref h = some i) (k : ι) : holders (Function.update ref h none) k =
      if k = i then (holders ref k).erase h else holders ref k := by
  ext h'
  by_cases hh : h' = h
  · subst hh
    by_cases hk : k = i
    · simp [hk]
    · simp [hk, href, Ne.symm hk]
  · by_cases hk : k = i <;> simp [hk, hh]

theorem card_take (hfree : ref h = none) {k : ι} :
    (holders (Function.update ref h (some i)) k).card =
      (holders ref k).card + if k = i then 1 else 0 := by
  rw [holders_take hfree]
  have hnot : h ∉ holders ref k := by simp [hfree]
  split_ifs
  · exact Finset.card_insert_of_notMem hnot
  · rfl

theorem card_release (href : ref h = some i) {k : ι} :
    (holders (Function.update ref h none) k).card =
      (holders ref k).card - if k = i then 1 else 0 := by
  rw [holders_release href]
  split_ifs with hk
  · subst hk
    exact Finset.card_erase_of_mem (mem_holders.mpr href)
  · rfl

end RefCount
