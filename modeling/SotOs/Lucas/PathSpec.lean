import SotOs.Lucas.Backend
import SotOs.Sotfs.RewriteSpec

/-! How the backend's ways of cutting a path agree with the walk of the graph, and that a path
resolves to the node just made under its last component. -/

namespace SotOs.Sotfs

open Slots List

variable {g : Graph}

theorem walk_append {a b : List Name} : ∀ cur : ℤ,
    walk g cur (a ++ b) = (walk g cur a).bind fun c => walk g c b := by
  induction a with
  | nil => intro cur; rfl
  | cons name a ih =>
    intro cur
    rw [cons_append, walk, walk]
    rcases findEdge g cur name with _ | i
    · rfl
    simp only
    cases g.edges i with
    | none => rfl
    | some e => exact ih e.childId

theorem components_append_slash (a b : List UInt8) : ∀ cur : List UInt8,
    components cur (a ++ slash :: b) = components cur a ++ components [] b := by
  induction a with
  | nil =>
    intro cur
    rw [nil_append, components, components, if_pos rfl]
    split_ifs <;> rfl
  | cons c a ih =>
    intro cur
    rw [cons_append, components, components]
    split_ifs
    · exact ih []
    · rw [ih, cons_append]
    · rw [ih, cons_append]
    · exact ih _

theorem components_name {name : Name} : ∀ cur : List UInt8, slash ∉ name →
    cur.length + name.length < maxName → cur ++ name ≠ [] → components cur name = [cur ++ name] := by
  induction name with
  | nil =>
    intro cur _ _ hne
    rw [append_nil] at hne ⊢
    rw [components, if_neg hne]
  | cons c name ih =>
    intro cur hslash hlen _
    rw [mem_cons, not_or] at hslash
    rw [length_cons] at hlen
    rw [components, if_neg (Ne.symm hslash.1)]
    have happ : cur ++ c :: name = (cur ++ [c]) ++ name := by simp
    split_ifs with hfull
    · -- the component is as long as one can be, and the name ends here
      have hnil : name = [] := by
        apply eq_nil_of_length_eq_zero
        omega
      rw [hnil]
      rfl
    · rw [happ]
      apply ih _ hslash.2
      · rw [length_append, length_singleton]
        omega
      · simp

def Extends (g g' : Graph) : Prop := ∀ p name i, findEdge g p name = some i →
  findEdge g' p name = some i ∧ g'.edges i = g.edges i

variable {names : List Name}

theorem walk_extends {g g' : Graph} (h : Extends g g') : ∀ {cur p : ℤ},
    walk g cur names = some p → walk g' cur names = some p := by
  induction names with
  | nil => intro cur p hw; exact hw
  | cons name names ih =>
    intro cur p hw
    rw [walk] at hw ⊢
    rcases hi : findEdge g cur name with _ | i
    · rw [hi] at hw
      cases hw
    obtain ⟨hi', he⟩ := h cur name i hi
    rw [hi] at hw
    rw [hi']
    simp only [he] at hw ⊢
    cases hedge : g.edges i with
    | none =>
      rw [hedge] at hw
      cases hw
    | some e =>
      rw [hedge] at hw
      exact ih hw

section
variable {g : Graph} {kind : Kind} {mode : UInt32} {i : Fin maxInodes} {p : ℤ} {j : Fin maxEdges}
  {name : Name}

theorem createdAt_edges_ne {k : Fin maxEdges} (hk : k ≠ j) :
    (createdAt g kind mode i p j name).edges k = g.edges k := Function.update_of_ne hk ..

theorem createdAt_edges_self :
    (createdAt g kind mode i p j name).edges j = some ⟨p, toId i, name⟩ :=
  Function.update_self ..

theorem createdAt_extends (hfind : findEdge g p name = none) (hj : g.edges j = none) :
    Extends g (createdAt g kind mode i p j name) := by
  intro q nm k hk
  obtain ⟨e, he, hq, hnm⟩ := findEdge_some hk
  have hkj : k ≠ j := by
    rintro rfl
    rw [hj] at he
    cases he
  have hpair : ¬(p = q ∧ name = nm) := by
    rintro ⟨rfl, rfl⟩
    rw [hfind] at hk
    cases hk
  refine ⟨?_, createdAt_edges_ne hkj⟩
  rw [← hk]
  apply first_congr
  intro l
  by_cases hl : l = j
  · rw [hl, createdAt_edges_self, hj]
    simpa using hpair
  · rw [createdAt_edges_ne hl]

theorem createdAt_findEdge (hfind : findEdge g p name = none) :
    findEdge (createdAt g kind mode i p j name) p name = some j := by
  apply first_eq_of_unique
  · rw [createdAt_edges_self]
    simp
  · intro k hk
    by_contra hkj
    rw [createdAt_edges_ne hkj] at hk
    cases he : g.edges k with
    | none => simp [he] at hk
    | some e =>
      have hpair : e.parentId = p ∧ e.name = name := by simpa [he] using hk
      exact findEdge_none hfind he hpair.1 hpair.2

theorem walk_created (hfind : findEdge g p name = none) (hj : g.edges j = none) {cur : ℤ}
    {names : List Name} (hw : walk g cur names = some p) :
    walk (createdAt g kind mode i p j name) cur (names ++ [name]) = some (toId i) := by
  rw [walk_append, walk_extends (createdAt_extends hfind hj) hw, Option.bind_some, walk,
    createdAt_findEdge hfind]
  simp only [createdAt_edges_self]
  rfl

end

end SotOs.Sotfs

namespace SotOs.Lucas
open Sotfs List

theorem resolvePathFrom_slash (g : Graph) (root : ℤ) (rest : List UInt8) :
    resolvePathFrom g root (slash :: rest) = walk g (backendRoot g root) (components [] rest) := by
  rw [resolvePathFrom, if_pos rfl]
  rfl

variable {path parent : List UInt8} {leaf : Name}

theorem splitPath_eq (h : splitPath path = some (parent, leaf)) :
    leaf ≠ [] ∧ slash ∉ leaf ∧ ∃ p, parent = slash :: p ∧
      (p = [] ∧ path = slash :: leaf ∨ path = parent ++ slash :: leaf) := by
  unfold splitPath at h
  dsimp only at h
  split_ifs at h with hhead hlong hleaf hzero
  all_goals
    obtain ⟨hparent, hleaf'⟩ := Prod.mk.inj (Option.some.inj h)
    rw [← hleaf']
    set dropped := path.rdropWhile (· != slash) with hdropped
    set last := path.rtakeWhile (· != slash) with hlast
    have hsplit : dropped ++ last = path := rdropWhile_append_rtakeWhile
    have hno : slash ∉ last := by
      intro hmem
      simpa using mem_rtakeWhile_imp hmem
    obtain ⟨rest, hrest⟩ : ∃ rest, path = slash :: rest := by
      have hh := not_not.mp hhead
      cases hp : path with
      | nil => rw [hp] at hh; cases hh
      | cons c rest =>
        rw [hp, head?_cons, Option.some.injEq] at hh
        exact ⟨rest, by rw [hh]⟩
    have hne : dropped ≠ [] := by
      rw [hdropped, Ne, rdropWhile_eq_nil_iff]
      intro hall
      have := hall slash (by rw [hrest]; exact mem_cons_self)
      simp at this
    have hend : dropped = dropped.dropLast ++ [slash] := by
      have hnot := rdropWhile_last_not (· != slash) path hne
      have hlastSlash : dropped.getLast hne = slash := by simpa using hnot
      rw [← hlastSlash, dropLast_append_getLast]
    have hlen : path.length - last.length - 1 = dropped.dropLast.length := by
      have := congrArg length hsplit
      rw [length_append] at this
      rw [length_dropLast]
      omega
    have hpath : path = dropped.dropLast ++ slash :: last := by
      rw [← hsplit]
      nth_rewrite 1 [hend]
      rw [append_assoc, singleton_append]
    refine ⟨hleaf, hno, ?_⟩
  · -- the leaf hangs off the root
    have hnil : dropped.dropLast = [] := eq_nil_of_length_eq_zero (hlen ▸ hzero)
    exact ⟨[], hparent.symm, .inl ⟨rfl, by rw [hnil] at hpath; exact hpath⟩⟩
  · have htake : path.take dropped.dropLast.length = dropped.dropLast := by
      nth_rewrite 1 [hpath]
      exact take_left
    rw [hlen, htake] at hparent
    rcases hp : dropped.dropLast with _ | ⟨c, p⟩
    · exact absurd (by rw [hlen, hp]; rfl) hzero
    obtain rfl : c = slash := by
      rw [hp, hrest, cons_append] at hpath
      exact (List.cons.inj hpath).1.symm
    exact ⟨p, by rw [← hparent, hp], .inr (by rw [← hparent]; exact hpath)⟩

theorem splitPath_some (h : splitPath path = some (parent, leaf)) :
    leaf ≠ [] ∧ slash ∉ leaf ∧ ∃ rest p, path = slash :: rest ∧ parent = slash :: p ∧
      components [] rest = components [] p ++ components [] leaf := by
  obtain ⟨hleaf, hno, p, hparent, hcase⟩ := splitPath_eq h
  refine ⟨hleaf, hno, ?_⟩
  rcases hcase with ⟨rfl, hpath⟩ | hpath
  · exact ⟨leaf, [], hpath, hparent, rfl⟩
  · rw [hparent, cons_append] at hpath
    exact ⟨p ++ slash :: leaf, p, hpath, hparent, components_append_slash p leaf []⟩

theorem splitPath_noNul (h : splitPath path = some (parent, leaf)) (hnul : 0 ∉ path) :
    0 ∉ parent ∧ 0 ∉ leaf := by
  have hleaf : 0 ∉ path.rtakeWhile (· != slash) :=
    fun hmem => hnul ((rtakeWhile_suffix _ _).subset hmem)
  unfold splitPath at h
  dsimp only at h
  split_ifs at h
  all_goals
    obtain ⟨rfl, rfl⟩ := Prod.mk.inj (Option.some.inj h)
    refine ⟨?_, hleaf⟩
  · decide
  · exact fun hmem => hnul (mem_of_mem_take hmem)

theorem stripTmpPrefix_noNul (hnul : 0 ∉ path) : 0 ∉ stripTmpPrefix path := by
  have hdrop : 0 ∉ path.drop 4 := fun hmem => hnul (mem_of_mem_drop hmem)
  unfold stripTmpPrefix
  split_ifs
  · split
    · decide
    rename_i c rest hrest
    rw [hrest] at hdrop
    split_ifs
    · exact hdrop
    · exact hnul
  · exact hnul

theorem resolve_created (hsplit : splitPath path = some (parent, leaf)) {g g' : Graph}
    {root p id : ℤ} {kind : Kind} {mode : UInt32} (hparent : resolvePathFrom g root parent = some p)
    (hcreate : createNode kind g p leaf mode = (g', .ok id)) :
    resolvePathFrom g' root path = some id := by
  obtain ⟨hne, hslash, rest, q, rfl, rfl, hcomp⟩ := splitPath_some hsplit
  have hcreated := createNode_created kind g p leaf mode
  rw [hcreate] at hcreated
  cases hcreated with
  | created i j _ hlen _ hfind _ hj =>
    rw [resolvePathFrom_slash] at hparent ⊢
    have hleaf : components [] leaf = [leaf] :=
      components_name [] hslash (by rwa [length_nil, Nat.zero_add]) (by simpa using hne)
    rw [hcomp, hleaf]
    exact walk_created hfind hj hparent

variable {rest : List UInt8}

theorem mem_segments {b : UInt8} : ∀ {cur seg : List UInt8},
    seg ∈ segments cur rest → b ∈ seg → b ∈ cur ∨ b ∈ rest ∧ b ≠ slash := by
  induction rest with
  | nil =>
    intro cur seg hseg hb
    rw [segments] at hseg
    split_ifs at hseg
    · cases hseg
    · rw [mem_singleton.mp hseg] at hb
      exact .inl hb
  | cons c rest ih =>
    intro cur seg hseg hb
    have hrest : b ∈ rest ∧ b ≠ slash → b ∈ c :: rest ∧ b ≠ slash :=
      And.imp_left (mem_cons_of_mem c)
    rw [segments] at hseg
    split_ifs at hseg with hc
    · rcases mem_cons.mp hseg with rfl | hseg
      · exact .inl hb
      · rcases ih hseg hb with hnil | hlater
        · cases hnil
        · exact .inr (hrest hlater)
    · rcases ih hseg hb with hcur | hlater
      · rcases mem_append.mp hcur with hcur | hcur
        · exact .inl hcur
        · rw [mem_singleton.mp hcur]
          exact .inr ⟨mem_cons_self, hc⟩
      · exact .inr (hrest hlater)

variable {rest : List UInt8}

theorem exists_segment : ∀ cur : List UInt8, cur ≠ [] →
    ∃ seg ∈ segments cur rest, cur.length ≤ seg.length := by
  induction rest with
  | nil =>
    intro cur hcur
    rw [segments, if_neg hcur]
    exact ⟨cur, mem_singleton_self cur, Nat.le_refl _⟩
  | cons c rest ih =>
    intro cur hcur
    rw [segments]
    split_ifs
    · exact ⟨cur, mem_cons_self, Nat.le_refl _⟩
    · obtain ⟨seg, hseg, hlen⟩ := ih (cur ++ [c]) (by simp)
      rw [length_append] at hlen
      exact ⟨seg, hseg, by omega⟩

def GoodSegment (seg : Name) : Prop := seg ≠ [] ∧ seg.length < 64

theorem components_eq_filter : ∀ {cur : List UInt8},
    (∀ seg ∈ segments cur rest, seg.length < maxName) →
      components cur rest = (segments cur rest).filter (· ≠ []) := by
  induction rest with
  | nil => intro cur _; rw [components, segments]; split_ifs with hcur <;> simp [hcur]
  | cons c rest ih =>
    intro cur hshort
    rw [segments] at hshort ⊢
    rw [components]
    split_ifs at hshort ⊢ with hc hcur hfull
    · rw [ih fun seg hseg => hshort seg (mem_cons_of_mem _ hseg)]
      simp [hcur]
    · rw [ih fun seg hseg => hshort seg (mem_cons_of_mem _ hseg)]
      simp [hcur]
    · -- the component is as long as one can be, so the path ends here or goes on with a slash
      rcases rest with _ | ⟨d, rest⟩
      · simp [components, segments]
      by_cases hd : d = slash
      · subst hd
        rw [segments, if_pos rfl] at hshort ⊢
        rw [ih (by simpa [segments, maxName] using (forall_mem_cons.mp hshort).2)]
        simp [segments]
      · rw [segments, if_neg hd] at hshort
        obtain ⟨seg, hseg, hlen⟩ := exists_segment (cur ++ [c] ++ [d]) (by simp)
        have := hshort seg hseg
        simp only [length_append, length_singleton] at hlen
        omega
    · exact ih hshort

theorem components_eq_segments {rest : List UInt8}
    (hgood : ∀ seg ∈ segments [] rest, GoodSegment seg) : components [] rest = segments [] rest := by
  have hshort : ∀ seg ∈ segments [] rest, seg.length < maxName :=
    fun seg hseg => (hgood seg hseg).2.trans (by decide)
  rw [components_eq_filter hshort, filter_eq_self]
  exact fun seg hseg => decide_eq_true (hgood seg hseg).1

def plainComponents (path : List UInt8) : List Name := (segments [] path).filter (· ≠ [])

def followComponents (g : Graph) (rootId : ℤ) (path : List UInt8) : Option ℤ :=
  if ∀ name ∈ plainComponents path, name.length < maxName then
    walk g (backendRoot g rootId) (plainComponents path)
  else none

def Spelled (g : Graph) : ℤ → List Name → Prop
  | _, [] => True
  | cur, name :: rest => ∃ i e, findEdge g cur name = some i ∧ g.edges i = some e ∧
      Spelled g e.childId rest

theorem walk_eq_none_iff {g : Graph} : ∀ cur : ℤ,
    walk g cur names = none ↔ ¬Spelled g cur names := by
  induction names with
  | nil => intro cur; simp [walk, Spelled]
  | cons name rest ih =>
    intro cur
    rw [walk, Spelled]
    rcases findEdge g cur name with _ | i
    · simp
    cases he : g.edges i with
    | none => simp [he]
    | some e => simpa [he] using ih e.childId

theorem resolve_eq_iff (g : Graph) (rootId : ℤ) (rest : List UInt8) :
    resolvePathFrom g rootId (slash :: rest) = followComponents g rootId (slash :: rest) ↔
      (∀ name ∈ plainComponents (slash :: rest), name.length < maxName) ∨
        ¬Spelled g (backendRoot g rootId) (components [] rest) := by
  have hplain : plainComponents (slash :: rest) = (segments [] rest).filter (· ≠ []) := by
    simp [plainComponents, segments]
  rw [resolvePathFrom_slash, followComponents, hplain]
  by_cases hshort : ∀ name ∈ (segments [] rest).filter (· ≠ []), name.length < maxName
  · have hall : ∀ seg ∈ segments [] rest, seg.length < maxName := by
      intro seg hseg
      by_cases hnil : seg = []
      · rw [hnil]
        decide
      · exact hshort seg (mem_filter.mpr ⟨hseg, decide_eq_true hnil⟩)
    rw [if_pos hshort, components_eq_filter hall]
    exact iff_of_true rfl (.inl hshort)
  · rw [if_neg hshort, walk_eq_none_iff, or_iff_right hshort]

def longestName : Name := List.replicate (maxName - 1) 97

def longestTree : Graph := (createFile (mkdir graphInit 1 longestName 0).1 2 [98] 0).1

theorem long_component_found :
    resolvePathFrom longestTree 0 (slash :: (longestName ++ [98])) = some 3 ∧
      followComponents longestTree 0 (slash :: (longestName ++ [98])) = none := by
  decide +kernel

def joinSegments (names : List Name) : List UInt8 := names.flatMap (slash :: ·)

theorem components_join {names : List Name} (hgood : ∀ seg ∈ names, GoodSegment seg ∧ slash ∉ seg) :
    ∀ seg, GoodSegment seg → slash ∉ seg → ∃ rest,
      joinSegments names ++ slash :: seg = slash :: rest ∧ components [] rest = names ++ [seg] := by
  induction names with
  | nil =>
    intro seg hseg hslash
    refine ⟨seg, rfl, ?_⟩
    have hlen : seg.length < maxName := hseg.2.trans (by decide)
    exact components_name [] hslash (by rwa [length_nil, Nat.zero_add])
      (by simpa using hseg.1)
  | cons name names ih =>
    intro seg hseg hslash
    obtain ⟨hname, hnoslash⟩ := hgood name mem_cons_self
    obtain ⟨rest, hrest, hcomp⟩ := ih (fun s hs => hgood s (mem_cons_of_mem _ hs)) seg hseg hslash
    have hlen : name.length < maxName := hname.2.trans (by decide)
    refine ⟨name ++ slash :: rest, ?_, ?_⟩
    · rw [← hrest]
      simp [joinSegments]
    · rw [components_append_slash, hcomp, components_name [] hnoslash
        (by rwa [length_nil, Nat.zero_add]) (by simpa using hname.1)]
      rfl

end SotOs.Lucas
