import SotOs.Lucas.PathSpec

/-! From a client's path to a backend: the choice of the mount. -/

namespace SotOs.Lucas.Vfs
open Sotfs Slots List Option

def maxMounts : ℕ := 12

abbrev Mounts := Fin maxMounts → Option (List UInt8)

def canaryPrefix : List UInt8 := [47, 99, 97, 110, 97, 114, 121]
def usrPrefix : List UInt8 := [47, 117, 115, 114]
def libPath : List UInt8 := [47, 108, 105, 98]

def mountMatches (path p : List UInt8) : Bool :=
  if p = [slash] then path.head? = some slash
  else p.isPrefixOf path && (path.drop p.length = [] || (path.drop p.length).head? = some slash)

def bestLen (best : Option (Fin maxMounts × List UInt8)) : ℕ := (best.map (·.2.length)).getD 0

def betterMount (mounts : Mounts) (path : List UInt8) (best : Option (Fin maxMounts × List UInt8))
    (i : Fin maxMounts) : Option (Fin maxMounts × List UInt8) :=
  match mounts i with
  | none => best
  | some p => if mountMatches path p && decide (bestLen best < p.length) then some (i, p) else best

def bestMount (mounts : Mounts) (path : List UInt8) : Option (Fin maxMounts × List UInt8) :=
  (List.finRange maxMounts).foldl (betterMount mounts path) none

def mountOf (mounts : Mounts) (p : List UInt8) : Option (Fin maxMounts) :=
  first fun i => mounts i == some p

/-- `sensitive` is `sotos_path_is_persistence_sensitive`. -/
def aliasMount (sensitive : List UInt8 → Bool) (mounts : Mounts) (path : List UInt8) :
    Option (Fin maxMounts) :=
  let onRoot := (bestMount mounts path).any (·.2 == [slash])
  (if onRoot && canaryPrefix.isPrefixOf path then mountOf mounts tmpPrefix else none) <|>
    (if onRoot && sensitive path then mountOf mounts tmpPrefix else none) <|>
    (if (libPath ++ [slash]).isPrefixOf path || path == libPath then mountOf mounts usrPrefix
      else none)

def suffixOf (path p : List UInt8) : List UInt8 :=
  if p = [slash] then path else if path.drop p.length = [] then [slash] else path.drop p.length

def vfsResolve (sensitive : List UInt8 → Bool) (mounts : Mounts) (path : List UInt8) :
    Option (Fin maxMounts × List UInt8) :=
  match aliasMount sensitive mounts path with
  | some i => some (i, path)
  | none => (bestMount mounts path).map fun m => (m.1, suffixOf path m.2)

def Ancestor (path p : List UInt8) : Prop :=
  p = [slash] ∨ p ≠ [] ∧ (path = p ∨ p ++ [slash] <+: path)

def Longest (mounts : Mounts) (path : List UInt8) : Option (Fin maxMounts × List UInt8) → Prop
  | none => ∀ i p, mounts i = some p → ¬Ancestor path p
  | some (i, suffix) => ∃ p, mounts i = some p ∧ Ancestor path p ∧ suffix = suffixOf path p ∧
      ∀ j q, mounts j = some q → Ancestor path q → q.length ≤ p.length

variable {mounts : Mounts} {path p : List UInt8}

theorem ancestor_iff (habs : path.head? = some slash) :
    Ancestor path p ↔ p ≠ [] ∧ mountMatches path p = true := by
  unfold Ancestor mountMatches
  by_cases hroot : p = [slash]
  · simp [hroot, habs]
  · simp only [hroot, false_or, if_false, Bool.and_eq_true, isPrefixOf_iff_prefix,
      Bool.or_eq_true, decide_eq_true_eq]
    refine and_congr_right fun _ => ⟨?_, ?_⟩
    · rintro (rfl | ⟨rest, rfl⟩)
      · simp
      · simp
    · rintro ⟨⟨rest, rfl⟩, hnil | hslash⟩
      · left
        simpa using hnil
      · rw [drop_left] at hslash
        obtain ⟨more, rfl⟩ := head?_eq_some_iff.mp hslash
        exact .inr ⟨more, by simp⟩

theorem found_cases (mounts : Mounts) (habs : path.head? = some slash) (l : List (Fin maxMounts)) :
    let found := l.foldl (betterMount mounts path) none
    (found = none ∧ ∀ i ∈ l, ∀ p, mounts i = some p → ¬Ancestor path p) ∨
      ∃ i p, found = some (i, p) ∧ mounts i = some p ∧ Ancestor path p ∧
        ∀ j ∈ l, ∀ q, mounts j = some q → Ancestor path q → q.length ≤ p.length := by
  induction l using reverseRecOn with
  | nil => exact .inl ⟨rfl, forall_mem_nil _⟩
  | append_singleton l k ih =>
    simp only [foldl_concat, forall_mem_append, forall_mem_singleton] at ih ⊢
    generalize l.foldl (betterMount mounts path) none = found at ih
    unfold betterMount
    rcases hk : mounts k with _ | r
    · simpa using ih
    simp only [some.injEq, forall_eq', Bool.and_eq_true, decide_eq_true_eq]
    split_ifs with hbetter
    · have hanc : Ancestor path r :=
        (ancestor_iff habs).mpr ⟨ne_nil_of_length_pos (by omega), hbetter.1⟩
      refine .inr ⟨k, r, rfl, hk, hanc, fun j hj q hq hqanc => ?_, fun _ => le_rfl⟩
      rcases ih with ⟨-, hno⟩ | ⟨i, p, rfl, -, -, hmax⟩
      · exact absurd hqanc (hno j hj q hq)
      · exact (hmax j hj q hq hqanc).trans hbetter.2.le
    · have hlen : Ancestor path r → 0 < r.length ∧ r.length ≤ bestLen found := fun hanc =>
        ⟨length_pos_of_ne_nil ((ancestor_iff habs).mp hanc).1, Nat.not_lt.mp fun hlt =>
          hbetter ⟨((ancestor_iff habs).mp hanc).2, hlt⟩⟩
      rcases ih with ⟨rfl, hno⟩ | ⟨i, p, rfl, hp, hanc, hmax⟩
      · exact .inl ⟨rfl, hno, fun hanc =>
          absurd (hlen hanc).2 (Nat.not_le.mpr (hlen hanc).1)⟩
      · exact .inr ⟨i, p, rfl, hp, hanc, hmax, fun hranc => (hlen hranc).2⟩

theorem Ancestor.eq_root (habs : path.head? = some slash) (h : Ancestor path p)
    (hlen : p.length ≤ 1) : p = [slash] := by
  rcases h with hroot | ⟨hne, hbelow⟩
  · exact hroot
  have hhead : p.head? = path.head? := by
    rcases hbelow with rfl | ⟨rest, rfl⟩
    · rfl
    · rw [append_assoc, head?_append_of_ne_nil _ hne]
  obtain ⟨rest, rfl⟩ := head?_eq_some_iff.mp (hhead.trans habs)
  rw [length_cons] at hlen
  rw [eq_nil_of_length_eq_zero (by omega : rest.length = 0)]

/-- Away from the aliases the longest mount is chosen, but for what goes by the name of the canary
prefix without its dash. -/
theorem vfsResolve_longest_iff (sensitive : List UInt8 → Bool) (mounts : Mounts)
    (path : List UInt8) (habs : path.head? = some slash) (hsens : sensitive path = false)
    (hlib : ¬libPath ++ [slash] <+: path ∧ path ≠ libPath) :
    Longest mounts path (vfsResolve sensitive mounts path) ↔
      ¬(canaryPrefix <+: path ∧ (∃ i, mounts i = some [slash]) ∧ (∃ i, mounts i = some tmpPrefix) ∧
        ∀ i p, mounts i = some p → Ancestor path p → p = [slash]) := by
  have hnolib : ((libPath ++ [slash]).isPrefixOf path || path == libPath) = false := by
    simpa [← isPrefixOf_iff_prefix] using hlib
  have hcases := found_cases mounts habs (finRange maxMounts)
  simp only [mem_finRange, forall_const] at hcases
  rw [← bestMount] at hcases
  rcases hcases with ⟨hnone, hall⟩ | ⟨i, p, hbest, hp, hanc, hmax⟩
  · have hres : vfsResolve sensitive mounts path = none := by
      simp [vfsResolve, aliasMount, hnone, hnolib]
    rw [hres]
    exact iff_of_true hall fun ⟨_, ⟨i, hi⟩, _⟩ => hall i _ hi (.inl rfl)
  by_cases hcap : p = [slash] ∧ canaryPrefix <+: path ∧ ∃ j, mounts j = some tmpPrefix
  · obtain ⟨rfl, hcanary, j, hj⟩ := hcap
    obtain ⟨k, hk⟩ : ∃ k, mountOf mounts tmpPrefix = some k := first_isSome (j := j) (by simp [hj])
    have htmp : mounts k = some tmpPrefix := by simpa using first_some hk
    have hres : vfsResolve sensitive mounts path = some (k, path) := by
      simp [vfsResolve, aliasMount, hbest, isPrefixOf_iff_prefix.mpr hcanary, hk]
    rw [hres]
    refine iff_of_false ?_ fun hnot => hnot ⟨hcanary, ⟨i, hp⟩, ⟨j, hj⟩, fun j q hq hqanc =>
      hqanc.eq_root habs (hmax j q hq hqanc)⟩
    rintro ⟨q, hq, hqanc, -, -⟩
    obtain rfl := some.inj (htmp.symm.trans hq)
    exact absurd (hmax k _ hq hqanc) (by decide)
  · have hres : vfsResolve sensitive mounts path = some (i, suffixOf path p) := by
      have halias : aliasMount sensitive mounts path = none := by
        simp only [aliasMount, hbest, hsens, hnolib, any_some, Bool.and_false,
          Bool.false_eq_true, if_false, orElse_eq_none, and_true]
        split_ifs with hroot
        · rw [Bool.and_eq_true, beq_iff_eq, isPrefixOf_iff_prefix] at hroot
          refine first_eq_none fun j => ?_
          simpa using fun hj => hcap ⟨hroot.1, hroot.2, j, hj⟩
        · rfl
      simp [vfsResolve, halias, hbest]
    rw [hres]
    exact iff_of_true ⟨p, hp, hanc, rfl, hmax⟩ fun ⟨hcanary, _, htmp, hroot⟩ =>
      hcap ⟨hroot i p hp hanc, hcanary, htmp⟩

def twoMounts : Mounts := fun i =>
  if i.val = 1 then some [slash] else if i.val = 2 then some tmpPrefix else none

theorem vfsResolve_longest_tmp : Longest twoMounts (tmpPrefix ++ [47, 97])
      (vfsResolve (fun _ => false) twoMounts (tmpPrefix ++ [47, 97])) := by
  refine (vfsResolve_longest_iff _ _ _ rfl rfl (by decide)).mpr fun hcap => ?_
  exact absurd hcap.1 (by decide)

theorem canary_captured : ¬canaryPrefix ++ [45] <+: canaryPrefix ∧
      ¬Longest twoMounts canaryPrefix (vfsResolve (fun _ => false) twoMounts canaryPrefix) := by
  refine ⟨by decide, ?_⟩
  have hres : vfsResolve (fun _ => false) twoMounts canaryPrefix =
      some (⟨2, by decide⟩, canaryPrefix) := by decide +kernel
  rw [hres]
  rintro ⟨p, hp, hanc, -, -⟩
  obtain rfl : tmpPrefix = p := some.inj hp
  exact absurd hanc (by unfold Ancestor; decide)

end SotOs.Lucas.Vfs
