import SotOs.Lucas.Reap

/-! Renaming as one step, apart from a lost source, two paths to one entry and a destination below
the source. -/

namespace SotOs.Sotfs
open List

def trail (g : Graph) : ℤ → List Name → List (Fin maxEdges)
  | _, [] => []
  | cur, name :: rest =>
    match findEdge g cur name with
    | none => []
    | some k => match g.edges k with
      | none => [k]
      | some e => k :: trail g e.childId rest

variable {k t : Fin maxEdges} {e : Edge} {g' : Graph} {p : ℤ} {name old : Name} {g : Graph}
  {pSrc pDst : ℤ}

theorem WellFormed.finds (h : WellFormed g) (he : g.edges k = some e) :
    findEdge g e.parentId e.name = some k := by
  apply Slots.first_eq_of_unique
  · rw [he]
    simp
  · intro j hj
    cases hjk : g.edges j with
    | none => simp [hjk] at hj
    | some e' =>
      have hpair : e'.parentId = e.parentId ∧ e'.name = e.name := by simpa [hjk] using hj
      exact h.edge_unique j k e' e hjk he hpair.1 hpair.2

def ExtendsBut (k : Fin maxEdges) (g g' : Graph) : Prop :=
  ∀ p name i, i ≠ k → findEdge g p name = some i →
    findEdge g' p name = some i ∧ g'.edges i = g.edges i

theorem extendsBut_of_edges (h' : WellFormed g')
    (hkept : ∀ i e, i ≠ k → g.edges i = some e → g'.edges i = some e) : ExtendsBut k g g' := by
  intro p name i hik hi
  obtain ⟨e, he, rfl, rfl⟩ := findEdge_some hi
  have he' := hkept i e hik he
  exact ⟨h'.finds he', he'.trans he.symm⟩

theorem walk_off_trail (h : ExtendsBut k g g') (names : List Name) :
    ∀ {cur q : ℤ}, k ∉ trail g cur names → walk g cur names = some q →
    walk g' cur names = some q ∧ trail g' cur names = trail g cur names := by
  induction names with
  | nil => exact fun _ hw => ⟨hw, rfl⟩
  | cons name rest ih =>
    intro cur q hk hw
    rw [trail] at hk
    rw [walk] at hw
    rw [walk, trail, trail]
    rcases hi : findEdge g cur name with _ | i
    · rw [hi] at hw
      cases hw
    obtain ⟨e, he, -⟩ := findEdge_some hi
    simp only [hi, he] at hk hw
    rw [mem_cons, not_or] at hk
    obtain ⟨hi', he'⟩ := h cur name i (Ne.symm hk.1) hi
    obtain ⟨hwalk, htrail⟩ := ih hk.2 hw
    simp only [hi', he', he]
    exact ⟨hwalk, by rw [htrail]⟩

theorem walk_on_trail (h : ExtendsBut k g g') (hk : g.edges k = some e)
    (hgone : findEdge g' e.parentId e.name = none) (names : List Name) :
    ∀ {cur : ℤ}, k ∈ trail g cur names → walk g' cur names = none := by
  induction names with
  | nil => exact fun hmem => absurd hmem (not_mem_nil)
  | cons name rest ih =>
    intro cur hmem
    rw [trail] at hmem
    rw [walk]
    rcases hi : findEdge g cur name with _ | i
    · simp [hi] at hmem
    obtain ⟨e', he', hparent, hname⟩ := findEdge_some hi
    simp only [hi, he', mem_cons] at hmem
    by_cases hik : i = k
    · subst hik
      rw [hk] at he'
      cases he'
      rw [← hparent, ← hname, hgone]
    · obtain ⟨hi', hsame⟩ := h cur name i hik hi
      rw [hi']
      simp only [hsame, he']
      exact ih (hmem.resolve_left (Ne.symm hik))

theorem WellFormed.off_trail (h : WellFormed g) (hk : g.edges k = some e)
    (hfile : ∀ n, g.inode e.childId = some n → n.kind ≠ .dir) (names : List Name) :
    ∀ {cur q : ℤ}, walk g cur names = some q →
    (∃ n, g.inode q = some n ∧ n.kind = .dir) → k ∉ trail g cur names := by
  induction names with
  | nil => exact fun _ _ => not_mem_nil
  | cons name rest ih =>
    intro cur q hw hdir
    rw [walk] at hw
    rw [trail]
    cases hi : findEdge g cur name with
    | none => simp
    | some i =>
      obtain ⟨e', he', -⟩ := findEdge_some hi
      simp only [hi, he'] at hw ⊢
      rw [mem_cons, not_or]
      refine ⟨?_, ih hw hdir⟩
      rintro rfl
      rw [hk] at he'
      cases he'
      -- the walk cannot go on from what is no directory
      cases rest with
      | nil =>
        obtain ⟨n, hn, hkind⟩ := hdir
        cases hw
        exact hfile n hn hkind
      | cons name' rest' =>
        rw [walk] at hw
        cases hj : findEdge g e.childId name' with
        | none =>
          rw [hj] at hw
          cases hw
        | some j =>
          obtain ⟨e', he', hparent, -⟩ := findEdge_some hj
          obtain ⟨n, hn, hkind⟩ := h.parent_dir j e' he'
          rw [hparent] at hn
          exact hfile n hn hkind

theorem checkDir_of_dir {id : ℤ} (h : ∃ n, g.inode id = some n ∧ n.kind = .dir) :
    checkDir g id = none := by
  obtain ⟨n, hn, hkind⟩ := h
  simp [checkDir, hn, hkind]

def entryKind (g : Graph) (p : ℤ) (name : Name) : Option Kind :=
  (findEdge g p name).bind fun k => (g.edges k).bind fun e => (g.inode e.childId).map Inode.kind

theorem unlink_entry (h : WellFormed g) (hname : name ≠ []) (hk : findEdge g p name = some k) :
    entryKind g p name = some .dir ∧ unlink g p name = (g, .error .errIsdir) ∨
      ∃ c, g.edges k = some ⟨p, Slots.toId c, name⟩ ∧ entryKind g p name ≠ some .dir ∧
        unlink g p name = (dropLink (g.setEdge k none) c, .ok ()) := by
  obtain ⟨e, he, rfl, rfl⟩ := findEdge_some hk
  obtain ⟨n, hn⟩ := h.child_live k e he
  obtain ⟨c, hc, hslot⟩ := Graph.inode_eq_some.mp hn
  have hlookup : lookupChild g e.parentId e.name = .ok (k, c) := by
    unfold lookupChild
    rw [checkDir_of_dir (h.parent_dir k e he), hk]
    simp only [he, hc, Slots.ofId_toId]
  have hkind : entryKind g e.parentId e.name = some n.kind := by
    simp [entryKind, hk, he, hn]
  rw [unlink, if_neg hname, hlookup, hkind]
  simp only [hslot, Option.map_some]
  split_ifs with hdir
  · exact .inl ⟨hdir, rfl⟩
  · refine .inr ⟨c, ?_, hdir, rfl⟩
    rw [← hc]
    exact he

structure Moved (g g' : Graph) (k : Fin maxEdges) (e : Edge) (p : ℤ) (name : Name) : Prop where
  source : g.edges k = some e
  rootId : g'.rootId = g.rootId
  off : ∀ names {cur q}, (∃ n, g.inode q = some n ∧ n.kind = .dir) → walk g cur names = some q →
    k ∉ trail g cur names → walk g' cur names = some q
  on : ∀ names {cur q}, (∃ n, g.inode q = some n ∧ n.kind = .dir) → walk g cur names = some q →
    k ∈ trail g cur names → walk g' cur names = none
  gone : findEdge g' e.parentId e.name = none
  here : ∃ j, findEdge g' p name = some j ∧ g'.edges j = some ⟨p, e.childId, name⟩

theorem rename_moved (h : GraphInv g) {new : Name}
    (hren : rename g pSrc old pDst new = (g', .ok ())) :
    ∃ k e, findEdge g pSrc old = some k ∧ Moved g g' k e pDst new := by
  have hspec := rename_renamed g pSrc old pDst new
  have hinv' := hspec.inv h
  rw [hren] at hspec hinv'
  cases hspec with
  | renamed k j c hsrc hdst hnew hfind hedge hfree hj =>
    have hjk : j ≠ k := by
      rintro rfl
      rw [hj] at hedge
      cases hedge
    have hother : ∀ i e, i ≠ k → g.edges i = some e →
        (renamedAt g k j ⟨pDst, c, new⟩).edges i = some e := by
      intro i e hik he
      have hij : i ≠ j := by
        rintro rfl
        rw [hj] at he
        cases he
      simpa [renamedAt, Function.update_of_ne hik, Function.update_of_ne hij] using he
    have hext := extendsBut_of_edges hinv'.toWellFormed hother
    have hhere : (renamedAt g k j ⟨pDst, c, new⟩).edges j = some ⟨pDst, c, new⟩ := by
      simp [renamedAt, Function.update_of_ne hjk]
    have hgone : findEdge (renamedAt g k j ⟨pDst, c, new⟩) pSrc old = none := by
      rcases hi : findEdge (renamedAt g k j ⟨pDst, c, new⟩) pSrc old with _ | i
      · rfl
      obtain ⟨e, he, rfl, rfl⟩ := findEdge_some hi
      by_cases hik : i = k
      · simp [hik, renamedAt] at he
      by_cases hij : i = j
      · rw [hij, hhere] at he
        cases he
        rw [hfree] at hfind
        cases hfind
      · have hbefore : g.edges i = some e := by
          simpa [renamedAt, Function.update_of_ne hik, Function.update_of_ne hij] using he
        exact absurd (h.edge_unique i k e _ hbefore hedge rfl rfl) hik
    refine ⟨k, _, hfind, hedge, rfl, ?_, ?_, hgone, j, hinv'.toWellFormed.finds hhere, hhere⟩
    · exact fun names _ _ _ hw hoff => (walk_off_trail hext names hoff hw).1
    · exact fun names _ _ _ _ hon => walk_on_trail hext hedge hgone names hon

structure Cleared (g g' : Graph) (t : Fin maxEdges) : Prop where
  inv : GraphInv g'
  rootId : g'.rootId = g.rootId
  edges : g'.edges = Function.update g.edges t none
  dirs : ∀ id, (∃ n, g.inode id = some n ∧ n.kind = .dir) → ∃ n, g'.inode id = some n ∧ n.kind = .dir
  file : ∀ e n, g.edges t = some e → g.inode e.childId = some n → n.kind ≠ .dir

theorem unlink_cleared (h : GraphInv g) (ht : findEdge g p name = some t)
    (hunlink : unlink g p name = (g', .ok ())) : Cleared g g' t := by
  have hspec : Unlinked g p name g' (.ok ()) := by
    simpa only [hunlink] using unlink_unlinked g p name
  have hinv' := hspec.inv h
  have hroot := hspec.rootId
  cases hspec with
  | unlinked i c hdir hfind hedge hkind =>
    obtain rfl := Option.some.inj (ht.symm.trans hfind)
    have hfile : ∀ n, g.inode (Slots.toId c) = some n → n.kind ≠ .dir := by
      intro n hn hd
      rw [Graph.inode_toId] at hn
      simp [hn, hd] at hkind
    refine ⟨hinv', hroot, ?_, ?_, ?_⟩
    · rw [dropLink_edges]
      rfl
    · rintro id ⟨n, hn, hd⟩
      have hne : id ∉ ({Slots.toId c} : Set ℤ) := by
        rintro rfl
        exact hfile n hn hd
      have hface := ((local_dropLink (g.setEdge t none) c).others id hne).inode
      rw [show (g.setEdge t none).inode id = some n from hn, Option.map_some] at hface
      obtain ⟨n', hn', hsame⟩ := Option.map_eq_some_iff.mp hface
      exact ⟨n', hn', (congrArg Prod.fst hsame).trans hd⟩
    · intro e n he hn
      rw [hedge] at he
      cases he
      exact hfile n hn

theorem Cleared.walks (h : Cleared g g' t) (hinv : GraphInv g) (ht : g.edges t = some e)
    (names : List Name) {cur q : ℤ} (hdir : ∃ n, g.inode q = some n ∧ n.kind = .dir)
    (hw : walk g cur names = some q) :
    walk g' cur names = some q ∧ trail g' cur names = trail g cur names := by
  have hext : ExtendsBut t g g' := by
    apply extendsBut_of_edges h.inv.toWellFormed
    intro i e' hit he'
    rw [h.edges, Function.update_of_ne hit]
    exact he'
  exact walk_off_trail hext names
    (hinv.toWellFormed.off_trail ht (fun n => h.file e n ht) names hw hdir) hw

theorem Cleared.findEdge_iff (h : Cleared g g' t) (hinv : GraphInv g) :
    findEdge g' p name = some k ↔ findEdge g p name = some k ∧ k ≠ t := by
  have hedge : ∀ e, g'.edges k = some e ↔ g.edges k = some e ∧ k ≠ t := by
    intro e
    rw [h.edges]
    by_cases hk : k = t
    · simp [hk]
    · simp [hk]
  constructor
  · intro hk
    obtain ⟨e, he, rfl, rfl⟩ := findEdge_some hk
    obtain ⟨hbefore, hne⟩ := (hedge e).mp he
    exact ⟨hinv.toWellFormed.finds hbefore, hne⟩
  · rintro ⟨hk, hne⟩
    obtain ⟨e, he, rfl, rfl⟩ := findEdge_some hk
    exact h.inv.toWellFormed.finds ((hedge e).mpr ⟨he, hne⟩)

theorem Cleared.moved {g'' : Graph} {e' : Edge} (h : Cleared g g' t) (hinv : GraphInv g)
    (ht : g.edges t = some e') {new : Name} (hren : rename g' pSrc old pDst new = (g'', .ok ())) :
    ∃ k e, findEdge g pSrc old = some k ∧ k ≠ t ∧ Moved g g'' k e pDst new := by
  obtain ⟨k, e, hk, hmoved⟩ := rename_moved h.inv hren
  obtain ⟨hbefore, hne⟩ := (h.findEdge_iff hinv).mp hk
  have hsource : g.edges k = some e := by
    have hedge := hmoved.source
    rwa [h.edges, Function.update_of_ne hne] at hedge
  refine ⟨k, e, hbefore, hne, hsource, hmoved.rootId.trans h.rootId, ?_, ?_, hmoved.gone, hmoved.here⟩
  · intro names cur q hdir hw hoff
    obtain ⟨hw', htrail⟩ := h.walks hinv ht names hdir hw
    rw [← htrail] at hoff
    exact hmoved.off names (h.dirs q hdir) hw' hoff
  · intro names cur q hdir hw hon
    obtain ⟨hw', htrail⟩ := h.walks hinv ht names hdir hw
    rw [← htrail] at hon
    exact hmoved.on names (h.dirs q hdir) hw' hon

end SotOs.Sotfs

namespace SotOs.Lucas
open Sotfs List

def parentNames (path : List UInt8) : Option (List Name × Name) :=
  (splitPath (stripTmpPrefix path)).map fun pl => (components [] pl.1.tail, pl.2)

theorem named_eq_walk (g : Graph) (root : ℤ) (path : List UInt8) :
    named g root path = (parentNames path).bind fun pl =>
      (walk g (backendRoot g root) pl.1).map fun p => (p, pl.2) := by
  unfold named parentNames
  rcases hsplit : splitPath (stripTmpPrefix path) with _ | pl
  · rfl
  obtain ⟨parent, leaf⟩ := pl
  obtain ⟨-, -, rest, p, -, rfl, -⟩ := splitPath_some hsplit
  simp only [Option.bind_some, Option.map_some, tail_cons, resolvePathFrom_slash]

def denotes (g : Graph) (root : ℤ) (path : List UInt8) : Option ℤ :=
  (named g root path).bind fun pl =>
    (findEdge g pl.1 pl.2).bind fun k => (g.edges k).map Edge.childId

def parentTrail (g : Graph) (root : ℤ) (path : List UInt8) : List (Fin maxEdges) :=
  match parentNames path with
  | none => []
  | some (names, _) => trail g (backendRoot g root) names

variable {g' : Graph} {k : Fin maxEdges} {e : Edge} {p : ℤ} {name : Name} {path : List UInt8}
  {s : Fs}

variable {oldpath newpath : List UInt8} {root : ℤ}

theorem moved_named {g : Graph} {q : ℤ} {leaf : Name} (h : Moved g g' k e p name)
    (hdir : ∃ n, g.inode q = some n ∧ n.kind = .dir) (hnamed : named g root path = some (q, leaf)) :
    named g' root path = if k ∈ parentTrail g root path then none else some (q, leaf) := by
  have hroot : backendRoot g' root = backendRoot g root := by rw [backendRoot, backendRoot, h.rootId]
  rw [named_eq_walk] at hnamed ⊢
  unfold parentTrail
  rcases hnames : parentNames path with _ | pl
  · rw [hnames] at hnamed
    cases hnamed
  obtain ⟨names, leaf'⟩ := pl
  rw [hnames, Option.bind_some, Option.map_eq_some_iff] at hnamed
  obtain ⟨q', hwalk, heq⟩ := hnamed
  obtain ⟨rfl, rfl⟩ := Prod.mk.inj heq
  simp only [Option.bind_some, hroot]
  split_ifs with hon
  · rw [h.on names hdir hwalk hon]
    rfl
  · rw [h.off names hdir hwalk hon]
    rfl

theorem moved_denotes_src {g : Graph} (h : Moved g g' k e p name) (hwf : WellFormed g)
    (hnamed : named g root path = some (e.parentId, e.name)) :
    denotes g root path = some e.childId ∧ denotes g' root path = none := by
  constructor
  · simp [denotes, hnamed, hwf.finds h.source, h.source]
  · rw [denotes, moved_named h (hwf.parent_dir k e h.source) hnamed]
    split_ifs
    · rfl
    · simp [h.gone]

theorem moved_denotes_dst {g : Graph} (h : Moved g g' k e p name)
    (hdir : ∃ n, g.inode p = some n ∧ n.kind = .dir) (hnamed : named g root path = some (p, name)) :
    denotes g' root path = some e.childId ↔ k ∉ parentTrail g root path := by
  obtain ⟨j, hj, hedge⟩ := h.here
  rw [denotes, moved_named h hdir hnamed]
  split_ifs with hon
  · simp [hon]
  · simp [hon, hj, hedge]

structure RenameAtomic (root : ℤ) (oldpath newpath : List UInt8) (g g' : Graph) (r : Reply) :
    Prop where
  failed : ∀ rc, r = .code rc → rc < 0 →
    g'.inodes = g.inodes ∧ g'.edges = g.edges ∧ g'.blocks = g.blocks
  moved : r = .code 0 → oldpath ≠ newpath → ∃ id, denotes g root oldpath = some id ∧
    denotes g' root oldpath = none ∧ denotes g' root newpath = some id

structure EntriesApart (g : Graph) (root : ℤ) (newpath : List UInt8) (pSrc : ℤ) (sleaf : Name)
    (pDst : ℤ) (dleaf : Name) : Prop where
  source : ∀ t, findEdge g pDst dleaf = some t → entryKind g pDst dleaf ≠ some .dir →
    checkNames sleaf dleaf = none ∧ ∃ k, findEdge g pSrc sleaf = some k ∧ k ≠ t
  outside : ∀ k, findEdge g pSrc sleaf = some k → entryKind g pDst dleaf ≠ some .dir →
    checkNames sleaf dleaf = none → checkDir g pDst = none → k ∉ parentTrail g root newpath

def RenameSafe (env : Env) (root : ℤ) (oldpath newpath : List UInt8) (g : Graph) : Prop :=
  (env.isolated && env.session == 0) = true ∨ oldpath = newpath ∨
    stripTmpPrefix oldpath ≠ stripTmpPrefix newpath ∧
      ∀ pSrc sleaf pDst dleaf, named g root oldpath = some (pSrc, sleaf) →
        named g root newpath = some (pDst, dleaf) →
          EntriesApart g root newpath pSrc sleaf pDst dleaf

theorem errToErrno_neg (e : Err) : errToErrno e < 0 := by
  cases e <;> decide

theorem RenameAtomic.unchanged {g : Graph} {rc : ℤ}
    (hrc : rc < 0) : RenameAtomic root oldpath newpath g g (.code rc) := by
  refine ⟨fun _ _ _ => ⟨rfl, rfl, rfl⟩, fun h => ?_⟩
  cases h
  cases hrc

theorem renameRoot_named {env : Env} (hiso : ¬(env.isolated && env.session == 0) = true)
    (hdiffer : stripTmpPrefix oldpath ≠ stripTmpPrefix newpath)
    {pSrc pDst : ℤ} {sleaf dleaf : Name} (hsrc : named s.graph root oldpath = some (pSrc, sleaf))
    (hdst : named s.graph root newpath = some (pDst, dleaf)) :
    renameRoot env root oldpath newpath s = match findEdge s.graph pDst dleaf with
      | none => renameOnto env false (0, 0) pSrc sleaf pDst dleaf s
      | some tgt => match unlink s.graph pDst dleaf with
        | (graph, .error e) => ({ s with graph }, .code (if e = .errIsdir then -21 else -22))
        | (graph, .ok ()) =>
          renameOnto env true (clobberCredit s tgt) pSrc sleaf pDst dleaf { s with graph } := by
  obtain ⟨⟨sparent, sleaf'⟩, hsplitSrc, hresSrc⟩ := Option.bind_eq_some_iff.mp hsrc
  obtain ⟨⟨dparent, dleaf'⟩, hsplitDst, hresDst⟩ := Option.bind_eq_some_iff.mp hdst
  obtain ⟨pSrc', hsrc', heq⟩ := Option.map_eq_some_iff.mp hresSrc
  obtain ⟨pDst', hdst', heq'⟩ := Option.map_eq_some_iff.mp hresDst
  cases heq
  cases heq'
  unfold renameRoot
  rw [if_neg hiso]
  cases hfind : findEdge s.graph pDst dleaf' with
  | none => simp only [if_neg hdiffer, hsplitSrc, hsplitDst, hsrc', hdst', hfind]
  | some tgt =>
    rcases hun : unlink s.graph pDst dleaf' with ⟨graph, e | ⟨⟩⟩ <;>
      simp only [if_neg hdiffer, hsplitSrc, hsplitDst, hsrc', hdst', hfind, hun]

theorem renameRoot_unnamed {env : Env} (hiso : ¬(env.isolated && env.session == 0) = true)
    (hdiffer : stripTmpPrefix oldpath ≠ stripTmpPrefix newpath)
    (hnone : named s.graph root oldpath = none ∨ named s.graph root newpath = none) :
    ∃ rc < 0, renameRoot env root oldpath newpath s = (s, .code rc) := by
  unfold renameRoot
  rw [if_neg hiso]
  simp only [if_neg hdiffer]
  split
  · rename_i sparent sleaf dparent dleaf hsplitSrc hsplitDst
    split
    · rename_i pSrc pDst hsrc hdst
      rw [named_eq hsplitSrc hsrc, named_eq hsplitDst hdst] at hnone
      rcases hnone with h | h <;> cases h
    · exact ⟨-2, by decide, rfl⟩
  · exact ⟨-22, by decide, rfl⟩

theorem renameOnto_eq (env : Env) (hadDst : Bool) (credit : UInt32 × ℕ) (pSrc : ℤ) (sleaf : Name)
    (pDst : ℤ) (dleaf : Name) (s : Fs) :
    (renameOnto env hadDst credit pSrc sleaf pDst dleaf s).1.graph =
        (rename s.graph pSrc sleaf pDst dleaf).1 ∧
      (renameOnto env hadDst credit pSrc sleaf pDst dleaf s).2 =
        match (rename s.graph pSrc sleaf pDst dleaf).2 with
        | .error e => .code (errToErrno e)
        | .ok () => .code 0 := by
  unfold renameOnto
  split
  · rename_i heq
    rw [heq]
    exact ⟨rfl, rfl⟩
  · rename_i heq
    rw [heq]
    cases hadDst <;> exact ⟨rfl, rfl⟩

theorem atomic_of_moved {g : Graph} (hwf : WellFormed g) {pDst : ℤ} {dleaf : Name}
    (h : Moved g g' k e pDst dleaf)
    (hne : oldpath ≠ newpath) (hsrc : named g root oldpath = some (e.parentId, e.name))
    (hdst : named g root newpath = some (pDst, dleaf))
    (hdir : ∃ n, g.inode pDst = some n ∧ n.kind = .dir) :
    RenameAtomic root oldpath newpath g g' (.code 0) ↔ k ∉ parentTrail g root newpath := by
  obtain ⟨hbefore, hgone⟩ := moved_denotes_src h hwf hsrc
  rw [← moved_denotes_dst h hdir hdst]
  constructor
  · intro hatomic
    obtain ⟨id, hid, -, hnew⟩ := hatomic.moved rfl hne
    rw [hbefore] at hid
    rw [hnew, hid]
  · intro hnew
    refine ⟨fun rc hrc hneg => ?_, fun _ _ => ⟨e.childId, hbefore, hgone, hnew⟩⟩
    cases hrc
    cases hneg

section
variable {env : Env} {root : ℤ} {oldpath newpath : List UInt8} {g : Graph} {pSrc pDst : ℤ}
  {sleaf dleaf : Name}

theorem moved_iff (hinv : GraphInv g) (hne : oldpath ≠ newpath)
    (hsrc : named g root oldpath = some (pSrc, sleaf))
    (hdst : named g root newpath = some (pDst, dleaf)) (hk : findEdge g pSrc sleaf = some k)
    (hmoved : Moved g g' k e pDst dleaf) (hnames : checkNames sleaf dleaf = none)
    (hdir : checkDir g pDst = none) (hkind : entryKind g pDst dleaf ≠ some .dir)
    (hother : findEdge g pDst dleaf ≠ some k) :
    RenameAtomic root oldpath newpath g g' (.code 0) ↔
      EntriesApart g root newpath pSrc sleaf pDst dleaf := by
  obtain ⟨e', he', hparent, hname⟩ := findEdge_some hk
  rw [hmoved.source] at he'
  cases he'
  rw [← hparent, ← hname] at hsrc
  rw [atomic_of_moved hinv.toWellFormed hmoved hne hsrc hdst (checkDir_none hdir)]
  constructor
  · intro hoff
    refine ⟨fun t ht _ => ⟨hnames, k, hk, ?_⟩, fun k' hk' _ _ _ => ?_⟩
    · rintro rfl
      exact hother ht
    · rw [hk] at hk'
      cases hk'
      exact hoff
  · exact fun hapart => hapart.outside k hk hkind hnames hdir

theorem renameOnto_free (hinv : GraphInv g) (hne : oldpath ≠ newpath)
    (hsrc : named g root oldpath = some (pSrc, sleaf)) (hdst : named g root newpath = some (pDst, dleaf))
    (hfree : findEdge g pDst dleaf = none) :
    RenameAtomic root oldpath newpath g (rename g pSrc sleaf pDst dleaf).1
        (match (rename g pSrc sleaf pDst dleaf).2 with
          | .error e => .code (errToErrno e)
          | .ok () => .code 0) ↔
      EntriesApart g root newpath pSrc sleaf pDst dleaf := by
  have hok := rename_ok_iff hinv.free_edge pSrc sleaf pDst dleaf
  cases hren : rename g pSrc sleaf pDst dleaf with
  | mk g' out =>
    rw [hren] at hok
    cases out with
    | error e =>
      obtain rfl := rename_failed hren
      refine iff_of_true (.unchanged (errToErrno_neg e)) ⟨fun t ht => ?_, fun k hk _ hnames hdir => ?_⟩
      · rw [hfree] at ht
        cases ht
      · obtain ⟨e', he', rfl, -⟩ := findEdge_some hk
        have hsome := hok.mpr ⟨hnames, checkDir_of_dir (hinv.parent_dir k e' he'), hdir, by simp [hk],
          hfree⟩
        cases hsome
    | ok u =>
      obtain ⟨hnames, -, hdir, -⟩ := hok.mp rfl
      obtain ⟨k, e, hk, hmoved⟩ := rename_moved hinv hren
      refine moved_iff hinv hne hsrc hdst hk hmoved hnames hdir ?_ ?_
      · simp [entryKind, hfree]
      · simp [hfree]

theorem renameOnto_cleared (hinv : GraphInv g) (hne : oldpath ≠ newpath)
    (hsrc : named g root oldpath = some (pSrc, sleaf)) (hdst : named g root newpath = some (pDst, dleaf))
    {t : Fin maxEdges} (ht : findEdge g pDst dleaf = some t)
    (hkind : entryKind g pDst dleaf ≠ some .dir) {g₁ : Graph} (hcleared : Cleared g g₁ t) :
    RenameAtomic root oldpath newpath g (rename g₁ pSrc sleaf pDst dleaf).1
        (match (rename g₁ pSrc sleaf pDst dleaf).2 with
          | .error e => .code (errToErrno e)
          | .ok () => .code 0) ↔
      EntriesApart g root newpath pSrc sleaf pDst dleaf := by
  obtain ⟨e', he', hparent, -⟩ := findEdge_some ht
  have hslot : g₁.edges t = none := by
    rw [hcleared.edges, Function.update_self]
  have hdir : ∃ n, g.inode pDst = some n ∧ n.kind = .dir := hparent ▸ hinv.parent_dir t e' he'
  have hok := rename_ok_iff ⟨t, hslot⟩ pSrc sleaf pDst dleaf
  cases hren : rename g₁ pSrc sleaf pDst dleaf with
  | mk g' out =>
    rw [hren] at hok
    cases out with
    | error e =>
      -- the destination is gone and nothing has taken its place
      obtain rfl := rename_failed hren
      refine iff_of_false (fun hatomic => ?_) (fun hapart => ?_)
      · have hsame := (hatomic.failed _ rfl (errToErrno_neg e)).2.1
        rw [hsame, he'] at hslot
        cases hslot
      · obtain ⟨hnames, k, hk, hkt⟩ := hapart.source t ht hkind
        have hk₁ := (hcleared.findEdge_iff hinv).mpr ⟨hk, hkt⟩
        obtain ⟨e₁, he₁, rfl, -⟩ := findEdge_some hk₁
        have hgone : findEdge g' pDst dleaf = none := by
          cases hi : findEdge g' pDst dleaf with
          | none => rfl
          | some i =>
            obtain ⟨hi', hit⟩ := (hcleared.findEdge_iff hinv).mp hi
            exact absurd (Option.some.inj (hi'.symm.trans ht)) hit
        have hsome := hok.mpr ⟨hnames, checkDir_of_dir (hcleared.inv.parent_dir k e₁ he₁),
          checkDir_of_dir (hcleared.dirs pDst hdir), by simp [hk₁], hgone⟩
        cases hsome
    | ok u =>
      obtain ⟨hnames, -, -, -⟩ := hok.mp rfl
      obtain ⟨k, e, hk, hkt, hmoved⟩ := hcleared.moved hinv he' hren
      refine moved_iff hinv hne hsrc hdst hk hmoved hnames (checkDir_of_dir hdir) hkind ?_
      rw [ht]
      exact fun heq => hkt (Option.some.inj heq).symm

end

structure SoundFs where
  fs : Fs
  inv : GraphInv fs.graph

def SoundFs.reached (st : Storage) (now : ℤ) (calls : List (Env × FsOp))
    (hcalls : ∀ e ∈ Machine.trace fsStep (lazyInit st now) calls, ClosedCall e.pre e.input) :
    SoundFs where
  fs := Machine.exec fsStep (lazyInit st now) calls
  inv := by
    have hrun := Machine.exec_invariant_of fsStep (P := ReapInv) (Q := fun e => ClosedCall e.pre e.input)
      (fun s call hcall hs => hs.next call hcall) (lazyInit_reapInv st now) calls hcalls
    exact hrun.graph

/-- A rename is all or nothing exactly when its two entries are apart. -/
theorem rename_atomic_iff (env : Env) (root : ℤ) (oldpath newpath : List UInt8) (s : SoundFs) :
    RenameAtomic root oldpath newpath s.fs.graph (renameRoot env root oldpath newpath s.fs).1.graph
        (renameRoot env root oldpath newpath s.fs).2 ↔
      RenameSafe env root oldpath newpath s.fs.graph := by
  obtain ⟨s, hinv⟩ := s
  simp only
  by_cases hiso : (env.isolated && env.session == 0) = true
  · refine iff_of_true ?_ (.inl hiso)
    rw [renameRoot, if_pos hiso]
    exact .unchanged (by decide)
  by_cases hstrip : stripTmpPrefix oldpath = stripTmpPrefix newpath
  · rw [renameRoot, if_neg hiso]
    simp only [if_pos hstrip]
    constructor
    · intro hatomic
      refine .inr (.inl ?_)
      by_contra hne
      obtain ⟨id, hid, hgone, -⟩ := hatomic.moved rfl hne
      rw [hid] at hgone
      cases hgone
    · rintro (h | h | h)
      · exact absurd h hiso
      · refine ⟨fun rc hrc hneg => ?_, fun _ hne => absurd h hne⟩
        cases hrc
        cases hneg
      · exact absurd hstrip h.1
  have hne : oldpath ≠ newpath := fun h => hstrip (congrArg stripTmpPrefix h)
  have hsafe : RenameSafe env root oldpath newpath s.graph ↔ ∀ pSrc sleaf pDst dleaf,
      named s.graph root oldpath = some (pSrc, sleaf) → named s.graph root newpath = some (pDst, dleaf) →
        EntriesApart s.graph root newpath pSrc sleaf pDst dleaf := by
    simp [RenameSafe, hiso, hne, hstrip]
  rw [hsafe]
  cases hsrc : named s.graph root oldpath with
  | none =>
    obtain ⟨rc, hrc, heq⟩ := renameRoot_unnamed hiso hstrip (.inl hsrc)
    rw [heq]
    exact iff_of_true (.unchanged hrc) (by simp)
  | some spl =>
  cases hdst : named s.graph root newpath with
  | none =>
    obtain ⟨rc, hrc, heq⟩ := renameRoot_unnamed hiso hstrip (.inr hdst)
    rw [heq]
    exact iff_of_true (.unchanged hrc) (by simp)
  | some dpl =>
  obtain ⟨pSrc, sleaf⟩ := spl
  obtain ⟨pDst, dleaf⟩ := dpl
  rw [renameRoot_named hiso hstrip hsrc hdst]
  have hall : (∀ p l p' l', some (pSrc, sleaf) = some (p, l) → some (pDst, dleaf) = some (p', l') →
      EntriesApart s.graph root newpath p l p' l') ↔
      EntriesApart s.graph root newpath pSrc sleaf pDst dleaf := by
    constructor
    · exact fun h => h pSrc sleaf pDst dleaf rfl rfl
    · intro h p l p' l' heq heq'
      cases heq
      cases heq'
      exact h
  rw [hall]
  rcases ht : findEdge s.graph pDst dleaf with _ | t
  · simp only
    rw [(renameOnto_eq ..).1, (renameOnto_eq ..).2]
    exact renameOnto_free hinv hne hsrc hdst ht
  simp only
  rcases unlink_entry hinv.toWellFormed (named_ne_nil hdst) ht with ⟨hkind, hunlink⟩ |
    ⟨c, -, hkind, hunlink⟩
  · rw [hunlink]
    exact iff_of_true (.unchanged (by decide))
      ⟨fun _ _ h => absurd hkind h, fun _ _ h => absurd hkind h⟩
  · have hcleared := unlink_cleared hinv ht hunlink
    rw [hunlink]
    simp only
    rw [(renameOnto_eq ..).1, (renameOnto_eq ..).2]
    exact renameOnto_cleared hinv hne hsrc hdst ht hkind hcleared

def oneFile : List (Env × FsOp) := [(bootEnv, .open 0 pathA oCreat 0)]

theorem oneFile_closed :
    ∀ e ∈ Machine.trace fsStep (lazyInit blankImage 0) oneFile, ClosedCall e.pre e.input := by
  rintro e (_ | ⟨_, _ | _⟩) session h
  cases h

theorem clobbered_without_source :
    ∃ s : SoundFs, (renameRoot bootEnv 1 pathB.bytes pathA.bytes s.fs).2 = .code (-2) ∧
      (denotes s.fs.graph 1 pathA.bytes).isSome = true ∧
      denotes (renameRoot bootEnv 1 pathB.bytes pathA.bytes s.fs).1.graph 1 pathA.bytes = none ∧
      ¬RenameAtomic 1 pathB.bytes pathA.bytes s.fs.graph
        (renameRoot bootEnv 1 pathB.bytes pathA.bytes s.fs).1.graph
        (renameRoot bootEnv 1 pathB.bytes pathA.bytes s.fs).2 := by
  refine ⟨.reached blankImage 0 oneFile oneFile_closed, ?_⟩
  simp only [SoundFs.reached, boot_eq]
  have hrc : (renameRoot bootEnv 1 pathB.bytes pathA.bytes
      (Machine.exec fsStep (freshFs blankImage 0) oneFile)).2 = .code (-2) := by
    decide +kernel
  have hbefore : (denotes (Machine.exec fsStep (freshFs blankImage 0) oneFile).graph 1
      pathA.bytes).isSome = true := by
    decide +kernel
  have hgone : denotes (renameRoot bootEnv 1 pathB.bytes pathA.bytes
      (Machine.exec fsStep (freshFs blankImage 0) oneFile)).1.graph 1 pathA.bytes = none := by
    decide +kernel
  refine ⟨hrc, hbefore, hgone, fun hatomic => ?_⟩
  have hedges := congrFun (hatomic.failed (-2) hrc (by decide)).2.1 0
  have hdiffer : ((renameRoot bootEnv 1 pathB.bytes pathA.bytes
      (Machine.exec fsStep (freshFs blankImage 0) oneFile)).1.graph.edges 0).isSome ≠
      ((Machine.exec fsStep (freshFs blankImage 0) oneFile).graph.edges 0).isSome := by
    decide +kernel
  exact hdiffer (congrArg Option.isSome hedges)

end SotOs.Lucas
