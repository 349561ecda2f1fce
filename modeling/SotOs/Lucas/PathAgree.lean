import SotOs.Lucas.BackendSpec
import SotOs.Lucas.Lookup

/-! Opening and reporting look a path up as it is given; the operations that make, remove and rename
drop a leading `/tmp` first. -/

namespace SotOs.Lucas
open Sotfs Function Slots List Option

def looked (g : Graph) (root : ℤ) (path : List UInt8) : Option (ℤ × Name) :=
  (splitPath path).bind fun pl => (resolvePathFrom g root pl.1).map fun p => (p, pl.2)

structure Finds (env : Env) (mountRoot : ℤ) (path : List UInt8) (s : Fs) (id : ℤ) : Prop where
  opens : ∀ flags mode, opOpen env mountRoot path flags mode s = openHandle path s id
  stats : opStat env mountRoot path s = statInode env id s

structure LookedUp (env : Env) (mountRoot : ℤ) (path : List UInt8) (s : Fs) (e : Edge) : Prop where
  place : looked s.graph (backendRoot s.graph mountRoot) path = some (e.parentId, e.name)
  finds : Finds env mountRoot path s e.childId

def EdgeGone (g g' : Graph) (e : Edge) : Prop := ∃ k, g.edges k = some e ∧ g'.edges k ≠ some e

structure RenameAgrees (env : Env) (mountRoot : ℤ) (oldpath newpath : List UInt8) (s s' : Fs) :
    Prop where
  gone : ∀ e, EdgeGone s.graph s'.graph e →
    LookedUp env mountRoot oldpath s e ∨ LookedUp env mountRoot newpath s e
  come : ∀ e, EdgeGone s'.graph s.graph e →
    looked s.graph (backendRoot s.graph mountRoot) newpath = some (e.parentId, e.name) ∧
      Finds env mountRoot oldpath s e.childId

structure PathAgrees (env : Env) (mountRoot : ℤ) (path : List UInt8) (s : Fs) : Prop where
  target : named s.graph (backendRoot s.graph mountRoot) path =
    looked s.graph (backendRoot s.graph mountRoot) path
  unlink : ∀ e, EdgeGone s.graph (unlinkRoot env (backendRoot s.graph mountRoot) path s).1.graph e →
    LookedUp env mountRoot path s e
  rmdir : ∀ e, EdgeGone s.graph (rmdirRoot env (backendRoot s.graph mountRoot) path s).1.graph e →
    LookedUp env mountRoot path s e
  mkdir : ∀ mode e,
    EdgeGone (mkdirRoot env (backendRoot s.graph mountRoot) path mode s).1.graph s.graph e →
    looked s.graph (backendRoot s.graph mountRoot) path = some (e.parentId, e.name) ∧
      Finds env mountRoot path (mkdirRoot env (backendRoot s.graph mountRoot) path mode s).1 e.childId
  rename : ∀ other, stripTmpPrefix other = other →
    RenameAgrees env mountRoot path other s
      (renameRoot env (backendRoot s.graph mountRoot) path other s).1 ∧
    RenameAgrees env mountRoot other path s
      (renameRoot env (backendRoot s.graph mountRoot) other path s).1

structure NamesSound (g : Graph) : Prop where
  fit : ∀ k e, g.edges k = some e → e.name.length < maxName
  unique : ∀ j k e e', g.edges j = some e → g.edges k = some e' → e.parentId = e'.parentId →
    e.name = e'.name → j = k

variable {g g' : Graph} {k i : Fin maxEdges} {e : Edge} {root p : ℤ} {leaf : Name}
  {oldpath newpath : List UInt8} {mode : UInt32} {names : List Name}

theorem NamesSound.findEdge (h : NamesSound g) (he : g.edges k = some e) :
    findEdge g e.parentId e.name = some k := by
  apply first_eq_of_unique
  · rw [he]
    simp
  · intro j hj
    cases hjk : g.edges j with
    | none => simp [hjk] at hj
    | some e' =>
      have hpair : e'.parentId = e.parentId ∧ e'.name = e.name := by simpa [hjk] using hj
      exact h.unique j k e' e hjk he hpair.1 hpair.2

variable {path : List UInt8} {env : Env} {s : Fs}

theorem finds_of_resolve {mountRoot : ℤ} {id : ℤ}
    (h : resolvePathFrom s.graph (backendRoot s.graph mountRoot) path = some id) :
    Finds env mountRoot path s id := by
  refine ⟨fun flags mode => ?_, ?_⟩
  · unfold opOpen
    simp only [h]
  · unfold opStat
    simp only [h]

theorem looked_some (h : looked g root path = some (p, leaf)) :
    ∃ parent, splitPath path = some (parent, leaf) ∧ resolvePathFrom g root parent = some p := by
  obtain ⟨⟨parent, leaf'⟩, hsplit, hres⟩ := bind_eq_some_iff.mp h
  obtain ⟨q, hq, heq⟩ := map_eq_some_iff.mp hres
  obtain ⟨rfl, rfl⟩ := Prod.mk.inj heq
  exact ⟨parent, hsplit, hq⟩

theorem resolve_looked (hsound : NamesSound g) (he : g.edges k = some e)
    (h : looked g root path = some (e.parentId, e.name)) :
    resolvePathFrom g root path = some e.childId := by
  obtain ⟨parent, hsplit, hparent⟩ := looked_some h
  obtain ⟨hne, hslash, rest, q, rfl, rfl, hcomp⟩ := splitPath_some hsplit
  have hfit : ([] : Name).length + e.name.length < maxName := by
    rw [length_nil, Nat.zero_add]
    exact hsound.fit k e he
  rw [resolvePathFrom_slash] at hparent ⊢
  rw [hcomp, components_name [] hslash hfit hne, nil_append, walk_append, hparent,
    bind_some, walk, hsound.findEdge he]
  simp only [he]
  rfl

theorem lookedUp {mountRoot : ℤ}
    (hsound : NamesSound s.graph) (he : s.graph.edges k = some e)
    (h : looked s.graph (backendRoot s.graph mountRoot) path = some (e.parentId, e.name)) :
    LookedUp env mountRoot path s e :=
  ⟨h, finds_of_resolve (resolve_looked hsound he h)⟩

theorem EdgeGone.trans {g'' : Graph} (h : EdgeGone g g'' e) (g' : Graph) :
    EdgeGone g g' e ∨ EdgeGone g' g'' e := by
  obtain ⟨k, he, hne⟩ := h
  by_cases hmid : g'.edges k = some e
  · exact .inr ⟨k, hmid, hne⟩
  · exact .inl ⟨k, he, hmid⟩

theorem not_edgeGone (h : g'.edges = g.edges) : ¬EdgeGone g g' e := by
  rintro ⟨k, he, hne⟩
  rw [h] at hne
  exact hne he

theorem edgeGone_cleared (h : g'.edges = (g.setEdge i none).edges) {e' : Edge}
    (hi : g.edges i = some e') (hgone : EdgeGone g g' e) : e = e' := by
  obtain ⟨k, he, hne⟩ := hgone
  rw [h] at hne
  have hk : k = i := by
    by_contra hk
    exact hne ((update_of_ne hk ..).trans he)
  rw [hk, hi] at he
  exact (some.inj he).symm

theorem not_edgeGone_cleared (h : g'.edges = (g.setEdge i none).edges) : ¬EdgeGone g' g e := by
  rintro ⟨k, he, hne⟩
  rw [h] at he
  by_cases hk : k = i
  · rw [hk] at he
    have hself : (g.setEdge i none).edges i = none := update_self ..
    rw [hself] at he
    cases he
  · have hkeep : (g.setEdge i none).edges k = g.edges k := update_of_ne hk ..
    rw [hkeep] at he
    exact hne he

theorem unlink_clears (h : unlink g p leaf = (g', .ok ())) :
    ∃ i c, g.edges i = some ⟨p, c, leaf⟩ ∧ g'.edges = (g.setEdge i none).edges := by
  have hu := unlink_unlinked g p leaf
  rw [h] at hu
  cases hu with
  | unlinked i c hdir hfind hedge hkind => exact ⟨i, toId c, hedge, dropLink_edges ..⟩

theorem rmdir_cleared (h : rmdir g p leaf = (g', .ok ())) :
    ∃ i c, g.edges i = some ⟨p, c, leaf⟩ ∧ g'.edges = (g.setEdge i none).edges := by
  have hr := rmdir_removed g p leaf
  rw [h] at hr
  cases hr with
  | removed i c hdir hfind hedge hkind hempty => exact ⟨i, toId c, hedge, rfl⟩

theorem unlinkRoot_gone
    (h : EdgeGone s.graph (unlinkRoot env root path s).1.graph e) :
    named s.graph root path = some (e.parentId, e.name) := by
  have hdone := unlinkRoot_done env root path s
  generalize (unlinkRoot env root path s).1 = s' at h hdone
  cases hdone with
  | same => exact absurd h (not_edgeGone rfl)
  | unlinked hnamed hunlink howner hcheck =>
    obtain ⟨i, c, hedge, hedges⟩ := unlink_clears hunlink
    rw [logUnlessSession_graph] at h
    rw [hnamed, edgeGone_cleared hedges hedge h]

theorem rmdirRoot_gone
    (h : EdgeGone s.graph (rmdirRoot env root path s).1.graph e) :
    named s.graph root path = some (e.parentId, e.name) := by
  have hdone := rmdirRoot_done env root path s
  generalize (rmdirRoot env root path s).1 = s' at h hdone
  cases hdone with
  | same => exact absurd h (not_edgeGone rfl)
  | removed hnamed hrmdir =>
    obtain ⟨i, c, hedge, hedges⟩ := rmdir_cleared hrmdir
    rw [hnamed, edgeGone_cleared hedges hedge h]

inductive MkdirDone (env : Env) (root : ℤ) (path : List UInt8) (s : Fs) : Fs → Prop
  | same {s'} (hedges : s'.graph.edges = s.graph.edges) : MkdirDone env root path s s'
  | made {p leaf mode g' id} (hnamed : named s.graph root path = some (p, leaf))
      (h : mkdir s.graph p leaf mode = (g', .ok id)) :
      MkdirDone env root path s (s.addNode env .dir p leaf mode g' id)

theorem mkdirRoot_done (env : Env) (root : ℤ) (path : List UInt8) (mode : UInt32) (s : Fs) :
    MkdirDone env root path s (mkdirRoot env root path mode s).1 := by
  unfold mkdirRoot
  split
  · exact .same rfl
  rcases hsplit : splitPath (stripTmpPrefix path) with _ | pl
  · exact .same rfl
  obtain ⟨parentPath, leaf⟩ := pl
  simp only
  cases hres : resolvePathFrom s.graph root parentPath with
  | none => exact .same rfl
  | some p =>
    simp only
    split
    · exact .same rfl
    generalize (if mode = 0 then (0o755 : UInt32) else mode) = mode'
    cases hmk : mkdir s.graph p leaf mode' with
    | mk g' out =>
      cases out with
      | error e =>
        have hcreated := createNode_created .dir s.graph p leaf mode'
        rw [show createNode .dir s.graph p leaf mode' = (g', .error e) from hmk] at hcreated
        cases hcreated with
        | failed _ _ hsame => exact .same hsame.edges
      | ok id => exact .made (named_eq hsplit hres) hmk

theorem rename_moves {pSrc pDst : ℤ} {sleaf dleaf : Name}
    (h : rename g pSrc sleaf pDst dleaf = (g', .ok ())) :
    ∃ k c, g.edges k = some ⟨pSrc, c, sleaf⟩ ∧ (EdgeGone g g' e → e = ⟨pSrc, c, sleaf⟩) ∧
      (EdgeGone g' g e → e = ⟨pDst, c, dleaf⟩) := by
  have hr := rename_renamed g pSrc sleaf pDst dleaf
  rw [h] at hr
  cases hr with
  | renamed old j c hsrc hdst hnew hfind hedge hfree hj =>
    have hjo : j ≠ old := by
      rintro rfl
      rw [hj] at hedge
      cases hedge
    have hold : (renamedAt g old j ⟨pDst, c, dleaf⟩).edges old = none := update_self ..
    have hnew : (renamedAt g old j ⟨pDst, c, dleaf⟩).edges j = some ⟨pDst, c, dleaf⟩ :=
      (update_of_ne hjo ..).trans (update_self ..)
    have hkeep : ∀ k, k ≠ old → k ≠ j →
        (renamedAt g old j ⟨pDst, c, dleaf⟩).edges k = g.edges k := fun k hko hkj =>
      (update_of_ne hko ..).trans (update_of_ne hkj ..)
    refine ⟨old, c, hedge, ?_, ?_⟩
    · rintro ⟨k, he, hne⟩
      have hk : k = old := by
        by_contra hk
        have hkj : k ≠ j := by
          rintro rfl
          rw [hj] at he
          cases he
        exact hne ((hkeep k hk hkj).trans he)
      rw [hk, hedge] at he
      exact (some.inj he).symm
    · rintro ⟨k, he, hne⟩
      have hko : k ≠ old := by
        rintro rfl
        cases hold.symm.trans he
      have hk : k = j := by
        by_contra hk
        exact hne ((hkeep k hko hk).symm.trans he)
      subst hk
      exact (some.inj (hnew.symm.trans he)).symm

theorem renameRoot_edges :
    (EdgeGone s.graph (renameRoot env root oldpath newpath s).1.graph e →
      named s.graph root oldpath = some (e.parentId, e.name) ∨
        named s.graph root newpath = some (e.parentId, e.name)) ∧
    (EdgeGone (renameRoot env root oldpath newpath s).1.graph s.graph e →
      named s.graph root newpath = some (e.parentId, e.name) ∧
        ∃ k e', s.graph.edges k = some e' ∧ e'.childId = e.childId ∧
          named s.graph root oldpath = some (e'.parentId, e'.name)) := by
  have hdone := renameRoot_done env root oldpath newpath s
  generalize (renameRoot env root oldpath newpath s).1 = s' at hdone
  cases hdone with
  | same => exact ⟨fun h => absurd h (not_edgeGone rfl), fun h => absurd h (not_edgeGone rfl)⟩
  | moved hpaths hfree hren =>
    obtain ⟨k, c, hk, hgone, hcome⟩ := rename_moves (e := e) hren
    refine ⟨fun h => .inl ?_, fun h => ⟨?_, k, _, hk, ?_, hpaths.src⟩⟩
    · rw [hpaths.src, hgone h]
    · rw [hpaths.dst, hcome h]
    · rw [hcome h]
  | lost hpaths hunlink hren =>
    obtain ⟨i, c, hedge, hedges⟩ := unlink_clears hunlink
    refine ⟨fun h => .inr ?_, fun h => absurd h (not_edgeGone_cleared hedges)⟩
    rw [hpaths.dst, edgeGone_cleared hedges hedge h]
  | @replaced pSrc sleaf pDst dleaf g' g'' sessions hpaths hunlink hren howner =>
    obtain ⟨i, c, hedge, hedges⟩ := unlink_clears hunlink
    obtain ⟨k, c', hk, hgone, hcome⟩ := rename_moves (e := e) hren
    refine ⟨fun h => ?_, fun h => ?_⟩
    · rcases h.trans g' with h | h
      · exact .inr (by rw [hpaths.dst, edgeGone_cleared hedges hedge h])
      · exact .inl (by rw [hpaths.src, hgone h])
    · have hnew : e = ⟨pDst, c', dleaf⟩ := by
        rcases h.trans g' with h | h
        · exact hcome h
        · exact absurd h (not_edgeGone_cleared hedges)
      have hk' : s.graph.edges k = some ⟨pSrc, c', sleaf⟩ := by
        by_contra hne
        exact not_edgeGone_cleared hedges ⟨k, hk, hne⟩
      refine ⟨?_, k, _, hk', ?_, hpaths.src⟩
      · rw [hpaths.dst, hnew]
      · rw [hnew]

variable {path : List UInt8}

theorem resolvePathFrom_congr (hedges : g'.edges = g.edges) (hroot : g'.rootId = g.rootId) :
    resolvePathFrom g' root path = resolvePathFrom g root path := by
  cases path with
  | nil => rfl
  | cons c rest => rw [resolvePathFrom, resolvePathFrom, hroot, walk_congr hedges]

theorem mkdir_made {id : ℤ} (h : mkdir g p leaf mode = (g', .ok id)) (hcome : EdgeGone g' g e) :
    e = ⟨p, id, leaf⟩ := by
  have hcreated := createNode_created .dir g p leaf mode
  rw [show createNode .dir g p leaf mode = (g', .ok id) from h] at hcreated
  cases hcreated with
  | created i j hname hlen hdir hfind hi hj =>
    obtain ⟨k, he, hne⟩ := hcome
    have hk : k = j := by
      by_contra hk
      exact hne ((createdAt_edges_ne hk).symm.trans he)
    subst hk
    exact (some.inj (createdAt_edges_self.symm.trans he)).symm

section
variable {env : Env} {mountRoot : ℤ} {path : List UInt8} {s : Fs}

theorem mkdirRoot_agrees {s' : Fs} (htarget : named s.graph (backendRoot s.graph mountRoot) path =
      looked s.graph (backendRoot s.graph mountRoot) path)
    (hs' : s' = (mkdirRoot env (backendRoot s.graph mountRoot) path mode s).1)
    (hcome : EdgeGone s'.graph s.graph e) :
    looked s.graph (backendRoot s.graph mountRoot) path = some (e.parentId, e.name) ∧
      Finds env mountRoot path s' e.childId := by
  have hdone := mkdirRoot_done env (backendRoot s.graph mountRoot) path mode s
  rw [← hs'] at hdone
  clear hs'
  cases hdone with
  | same hedges => exact absurd hcome (not_edgeGone hedges.symm)
  | @made p leaf mode g' id hnamed hmk =>
    have hgraph := addNode_graph s env .dir p leaf mode g' id
    have hedges : (s.addNode env .dir p leaf mode g' id).graph.edges = g'.edges := by
      rw [hgraph, modifyInode_edges]
    have hroot : (s.addNode env .dir p leaf mode g' id).graph.rootId = s.graph.rootId := by
      rw [hgraph, modifyInode_rootId]
      exact createNode_rootId hmk
    have hnew : e = ⟨p, id, leaf⟩ := by
      rcases hcome.trans g' with h | h
      · exact absurd h (not_edgeGone hedges.symm)
      · exact mkdir_made hmk h
    rw [htarget] at hnamed
    obtain ⟨parent, hsplit, hparent⟩ := looked_some hnamed
    refine ⟨by rw [hnamed, hnew], finds_of_resolve ?_⟩
    have hsame : backendRoot (s.addNode env .dir p leaf mode g' id).graph mountRoot =
        backendRoot s.graph mountRoot := by
      unfold backendRoot
      rw [hroot]
    rw [hsame, resolvePathFrom_congr hedges (hroot.trans (createNode_rootId hmk).symm), hnew]
    exact resolve_created hsplit hparent hmk

theorem renameRoot_agrees (hsound : NamesSound s.graph)
    (hold : named s.graph (backendRoot s.graph mountRoot) oldpath =
      looked s.graph (backendRoot s.graph mountRoot) oldpath)
    (hnew : named s.graph (backendRoot s.graph mountRoot) newpath =
      looked s.graph (backendRoot s.graph mountRoot) newpath) :
    RenameAgrees env mountRoot oldpath newpath s
      (renameRoot env (backendRoot s.graph mountRoot) oldpath newpath s).1 := by
  refine ⟨fun e hgone => ?_, fun e hcome => ?_⟩
  · obtain ⟨k, he, -⟩ := id hgone
    rcases renameRoot_edges.1 hgone with h | h
    · exact .inl (lookedUp hsound he (hold.symm.trans h))
    · exact .inr (lookedUp hsound he (hnew.symm.trans h))
  · obtain ⟨hplace, k, e', he', hchild, h⟩ := renameRoot_edges.2 hcome
    refine ⟨hnew.symm.trans hplace, ?_⟩
    rw [← hchild]
    exact (lookedUp hsound he' (hold.symm.trans h)).finds

theorem pathAgrees_of_target (hsound : NamesSound s.graph)
    (htarget : named s.graph (backendRoot s.graph mountRoot) path =
      looked s.graph (backendRoot s.graph mountRoot) path) : PathAgrees env mountRoot path s where
  target := htarget
  unlink := by
    intro e hgone
    obtain ⟨k, he, -⟩ := id hgone
    exact lookedUp hsound he (htarget.symm.trans (unlinkRoot_gone hgone))
  rmdir := by
    intro e hgone
    obtain ⟨k, he, -⟩ := id hgone
    exact lookedUp hsound he (htarget.symm.trans (rmdirRoot_gone hgone))
  mkdir := fun mode e hcome => mkdirRoot_agrees htarget rfl hcome
  rename := by
    intro other hother
    have hsame : named s.graph (backendRoot s.graph mountRoot) other =
        looked s.graph (backendRoot s.graph mountRoot) other := by
      unfold named looked
      rw [hother]
    exact ⟨renameRoot_agrees hsound htarget hsame, renameRoot_agrees hsound hsame htarget⟩

end

variable {rest : List UInt8}

theorem components_fit : ∀ cur : List UInt8, cur.length + 1 < maxName →
    ∀ c ∈ components cur rest, c.length < maxName := by
  induction rest with
  | nil =>
    intro cur hcur c hc
    rw [components] at hc
    split_ifs at hc
    · cases hc
    · rw [mem_singleton.mp hc]
      omega
  | cons b rest ih =>
    intro cur hcur c hc
    have hnil : ([] : List UInt8).length + 1 < maxName := by decide
    have hnext : (cur ++ [b]).length = cur.length + 1 := by simp
    rw [components] at hc
    split_ifs at hc with hslash hempty hfull
    · exact ih [] hnil c hc
    · rcases mem_cons.mp hc with rfl | hc
      · omega
      · exact ih [] hnil c hc
    · rcases mem_cons.mp hc with rfl | hc
      · omega
      · exact ih [] hnil c hc
    · exact ih (cur ++ [b]) (by omega) c hc

theorem components_length (rest : List UInt8) : ∀ cur : List UInt8,
    (components cur rest).length ≤ cur.length + rest.length := by
  induction rest with
  | nil =>
    intro cur
    rw [components]
    split_ifs with hempty
    · simp
    · have := length_pos_iff.mpr hempty
      rw [length_singleton]
      omega
  | cons b rest ih =>
    intro cur
    have hnil := ih []
    have hcur := ih (cur ++ [b])
    rw [length_append, length_singleton] at hcur
    rw [length_nil] at hnil
    rw [components, length_cons]
    split_ifs with hslash hempty hfull
    · omega
    · have := length_pos_iff.mpr hempty
      rw [length_cons]
      omega
    · rw [length_cons]
      omega
    · omega

def chain (names : List Name) : Graph :=
  { inodes := fun _ => none
    edges := fun k => (names[k.val]?).map fun name => ⟨k.val + 1, k.val + 2, name⟩
    blocks := fun _ => none
    nextInodeHint := 0
    nextEdgeHint := 0
    nextBlockHint := 0
    rootId := 1 }

theorem chain_edge (h : (chain names).edges k = some e) :
    ∃ name ∈ names, e = ⟨k.val + 1, k.val + 2, name⟩ := by
  obtain ⟨name, hname, he⟩ := map_eq_some_iff.mp h
  exact ⟨name, mem_of_getElem? hname, he.symm⟩

theorem chain_sound (hfit : ∀ name ∈ names, name.length < maxName) : NamesSound (chain names) where
  fit := by
    intro k e he
    obtain ⟨name, hname, rfl⟩ := chain_edge he
    exact hfit name hname
  unique := by
    intro j k e e' hj hk hparent _
    obtain ⟨_, -, rfl⟩ := chain_edge hj
    obtain ⟨_, -, rfl⟩ := chain_edge hk
    simp only at hparent
    exact Fin.ext (by omega)

theorem chain_depth {path : List Name} : ∀ {cur p : ℤ}, walk (chain names) cur path = some p →
    p = cur + path.length := by
  induction path with
  | nil =>
    intro cur p h
    rw [← some.inj h]
    simp
  | cons name path ih =>
    intro cur p h
    rw [walk] at h
    rcases hfind : findEdge (chain names) cur name with _ | k
    · rw [hfind] at h
      cases h
    obtain ⟨e, he, hparent, -⟩ := findEdge_some hfind
    rw [hfind] at h
    simp only [he] at h
    obtain ⟨_, -, rfl⟩ := chain_edge he
    simp only at h hparent
    rw [ih h, ← hparent, length_cons]
    omega

theorem chain_walk (hfit : ∀ name ∈ names, name.length < maxName) (hlen : names.length ≤ maxEdges) :
    ∀ (rest done : List Name), names = done ++ rest →
    walk (chain names) (done.length + 1) rest = some ((names.length : ℤ) + 1) := by
  intro rest
  induction rest with
  | nil =>
    intro done hdone
    rw [hdone, append_nil]
    rfl
  | cons name rest ih =>
    intro done hdone
    have hlength : names.length = done.length + (rest.length + 1) := by
      rw [hdone, length_append, length_cons]
    have hlt : done.length < maxEdges := by omega
    have hedge : (chain names).edges ⟨done.length, hlt⟩ =
        some ⟨done.length + 1, done.length + 2, name⟩ := by
      simp [chain, hdone]
    have hnext := ih (done ++ [name]) (by rw [hdone]; simp)
    have hcast : (((done ++ [name]).length : ℕ) : ℤ) + 1 = done.length + 2 := by
      rw [length_append, length_singleton]
      omega
    rw [hcast] at hnext
    rw [walk, (chain_sound hfit).findEdge hedge]
    simp only [hedge]
    exact hnext

theorem stripTmpPrefix_changed (h : stripTmpPrefix path ≠ path) :
    path = tmpPrefix ∨ ∃ rest, path = tmpPrefix ++ slash :: rest ∧
      stripTmpPrefix path = slash :: rest := by
  have happ := take_append_drop 4 path
  unfold stripTmpPrefix at h ⊢
  split_ifs at h ⊢ with htake
  · rw [htake] at happ
    rcases hdrop : path.drop 4 with _ | ⟨c, rest⟩
    · rw [hdrop, append_nil] at happ
      exact .inl happ.symm
    rw [hdrop] at happ h
    simp only at h ⊢
    split_ifs at h ⊢ with hc
    · exact .inr ⟨rest, by rw [← happ, hc], by rw [hc]⟩
    · exact absurd rfl h
  · exact absurd rfl h

theorem leaf_append {a : List UInt8} :
    (a ++ slash :: rest).rtakeWhile (· != slash) = (slash :: rest).rtakeWhile (· != slash) := by
  have hslash : ¬∀ x ∈ (slash :: rest).reverse, (x != slash) = true := by simp
  unfold rtakeWhile
  rw [reverse_append, takeWhile_append, if_neg]
  rw [takeWhile_eq_self_iff.not.symm] at hslash
  intro hlen
  exact hslash (List.IsPrefix.eq_of_length ( takeWhile_prefix _) hlen)

theorem splitPath_leaf {path parent : List UInt8} (h : splitPath path = some (parent, leaf)) :
    leaf = path.rtakeWhile (· != slash) ∧ parent.length ≤ 256 := by
  unfold splitPath at h
  dsimp only at h
  split_ifs at h with hhead hlong hleaf hzero
  · obtain ⟨rfl, rfl⟩ := Prod.mk.inj (some.inj h)
    exact ⟨rfl, by decide⟩
  · obtain ⟨rfl, rfl⟩ := Prod.mk.inj (some.inj h)
    refine ⟨rfl, ?_⟩
    rw [length_take]
    omega

theorem splitPath_tmp {rest : List UInt8} (h : splitPath (slash :: rest) = none) :
    splitPath (tmpPrefix ++ slash :: rest) = none := by
  unfold splitPath at h ⊢
  dsimp only at h ⊢
  rw [leaf_append]
  rw [if_neg (by simp)] at h
  rw [if_neg (by simp [tmpPrefix, slash])]
  split_ifs at h with hlong hleaf
  · rw [if_pos]
    rw [length_append]
    omega
  · rw [if_pos hleaf, ite_self]

theorem looked_tmp : looked g root tmpPrefix = some (backendRoot g root, [116, 109, 112]) := by
  have hsplit : splitPath tmpPrefix = some ([slash], [116, 109, 112]) := by decide
  have hres : resolvePathFrom g root [slash] = some (backendRoot g root) :=
    resolvePathFrom_slash g root []
  simp [looked, hsplit, hres]

theorem exists_differ (hstrip : stripTmpPrefix path ≠ path)
    (hsplit : ¬(splitPath path = none ∧ splitPath (stripTmpPrefix path) = none)) :
    ∃ g, NamesSound g ∧ named g 1 path ≠ looked g 1 path := by
  rcases stripTmpPrefix_changed hstrip with rfl | ⟨rest, hpath, hshort⟩
  · have hnone : splitPath (stripTmpPrefix tmpPrefix) = none := by decide
    refine ⟨chain [], chain_sound (by simp), ?_⟩
    simp [looked_tmp, named, hnone]
  rw [hshort] at hsplit
  rcases hs : splitPath (slash :: rest) with _ | pl
  · rw [hpath] at hsplit
    exact absurd ⟨splitPath_tmp hs, hs⟩ hsplit
  obtain ⟨parent, leaf⟩ := pl
  obtain ⟨hne, hslash, rest', q, hrest, hparent, hcomp⟩ := splitPath_some hs
  obtain ⟨hleaf, hlength⟩ := splitPath_leaf hs
  obtain rfl : rest' = rest := (List.cons.inj hrest).2.symm
  set names := components [] q with hnames
  have hfit : ∀ name ∈ names, name.length < maxName := components_fit [] (by decide)
  have hlen : names.length ≤ maxEdges := by
    have hq := components_length q []
    rw [hparent, length_cons] at hlength
    rw [length_nil, Nat.zero_add, ← hnames] at hq
    have hmax : 256 ≤ maxEdges := by decide
    omega
  have hwalk : walk (chain names) 1 names = some ((names.length : ℤ) + 1) :=
    chain_walk hfit hlen names [] rfl
  have hnamed : named (chain names) 1 path = some ((names.length : ℤ) + 1, leaf) := by
    apply named_eq (hshort ▸ hs)
    rw [hparent, resolvePathFrom_slash, ← hnames]
    exact hwalk
  refine ⟨chain names, chain_sound hfit, fun heq => ?_⟩
  rw [hnamed] at heq
  obtain ⟨parent', hsplit', hres'⟩ := looked_some heq.symm
  obtain ⟨-, -, rest'', q', hpath', rfl, hcomp'⟩ := splitPath_some hsplit'
  have htmp : components [] rest'' = [116, 109, 112] :: (names ++ components [] leaf) := by
    rw [hpath] at hpath'
    rw [← (List.cons.inj hpath').2]
    have happ := components_append_slash [116, 109, 112] rest' []
    rw [hcomp] at happ
    exact happ
  have hq' : components [] q' = [116, 109, 112] :: names := by
    rw [htmp, ← cons_append] at hcomp'
    exact (append_cancel_right hcomp').symm
  rw [resolvePathFrom_slash, hq'] at hres'
  have hdepth := chain_depth hres'
  rw [length_cons] at hdepth
  have hroot : backendRoot (chain names) 1 = 1 := rfl
  rw [hroot] at hdepth
  omega

/-- Operations act where opening looks, in every state, exactly if dropping a leading `/tmp` leaves
the path as it is or it has no leaf to act on. -/
theorem path_agreement_iff (path : List UInt8) :
    (∀ (env : Env) (mountRoot : ℤ) (s : Fs), NamesSound s.graph → PathAgrees env mountRoot path s) ↔
      stripTmpPrefix path = path ∨
        splitPath path = none ∧ splitPath (stripTmpPrefix path) = none := by
  constructor
  · intro h
    by_contra hcond
    rw [not_or] at hcond
    obtain ⟨g, hsound, hdiffer⟩ := exists_differ hcond.1 hcond.2
    have hagree := h ⟨none, 0, fun _ => (0, 0)⟩ 1 { freshFs ⟨fun _ => 0, 0, []⟩ 0 with graph := g }
      hsound
    exact hdiffer hagree.target
  · intro hcond env mountRoot s hsound
    apply pathAgrees_of_target hsound
    rcases hcond with hstrip | ⟨hsplit, hsplit'⟩
    · unfold named looked
      rw [hstrip]
    · simp [named, looked, hsplit, hsplit']

def baseEnv : Env := ⟨none, 0, fun _ => (0, 0)⟩

def xFs : Fs := (opOpen baseEnv 0 [47, 120] oCreat 0 (freshFs ⟨fun _ => 0, 0, []⟩ 0)).1

theorem unlink_strips : ¬PathAgrees baseEnv 0 [47, 116, 109, 112, 47, 120] xFs ∧
      (opOpen baseEnv 0 [47, 116, 109, 112, 47, 120] 0 0 xFs).2 = .code (-2) ∧
      opStat baseEnv 0 [47, 116, 109, 112, 47, 120] xFs = .error (-2) ∧
      (unlinkRoot baseEnv 1 [47, 116, 109, 112, 47, 120] xFs).2 = .code 0 ∧
      (opStat baseEnv 0 [47, 120] xFs).toOption.map LxStat.ino = some 2 ∧
      opStat baseEnv 0 [47, 120] (unlinkRoot baseEnv 1 [47, 116, 109, 112, 47, 120] xFs).1 =
        .error (-2) := by
  refine ⟨fun h => ?_, by decide +kernel, by decide +kernel, by decide +kernel, by decide +kernel,
    by decide +kernel⟩
  have hdiffer : named xFs.graph (backendRoot xFs.graph 0) [47, 116, 109, 112, 47, 120] ≠
      looked xFs.graph (backendRoot xFs.graph 0) [47, 116, 109, 112, 47, 120] := by
    decide +kernel
  exact hdiffer h.target

end SotOs.Lucas
