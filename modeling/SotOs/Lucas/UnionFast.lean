import SotOs.Lucas.Handles
import SotOs.Lucas.Union

/-! The fast path of a union mount: while the flag says that the upper layer is empty it is not
asked. -/

namespace SotOs.Lucas.Union
open Sotfs Machine Function Slots List Option

def UpperEmpty (u : UnionState) : Prop :=
  ∀ k e, u.fs.graph.edges k = some e → e.parentId ≠ backendRoot u.fs.graph u.root

def UnionState.dirtied (u : UnionState) : UnionState := { u with upperDirty := true }

structure FastExact (cfg : Cfg) (u : UnionState) : Prop where
  stat : ∀ env path, opensRoot path = false → uStat cfg env path u = uStat cfg env path u.dirtied
  readlink : ∀ env path, opensRoot path = false →
    uReadlink cfg env path u = uReadlink cfg env path u.dirtied
  opens : ∀ env path flags mode, opensRoot path = false →
    (uOpen cfg env path flags mode u).2 = (uOpen cfg env path flags mode u.dirtied).2 ∧
      (uOpen cfg env path flags mode u).1.handles = (uOpen cfg env path flags mode u.dirtied).1.handles
  getdents : ∀ env h count,
    (uGetdents cfg env h count u).2 = (uGetdents cfg env h count u.dirtied).2

variable {root : ℤ}

theorem start_eq {g : Graph} :
    (if 0 < backendRoot g root then backendRoot g root else g.rootId) = backendRoot g root := by
  unfold backendRoot
  split_ifs <;> rfl

variable {u u' : UnionState} {path dirpath : List UInt8} {h : Fin handlePool} {s : Fs} {cfg : Cfg}

theorem empty_resolve (h : UpperEmpty u) (hpath : opensRoot path = false) :
    resolvePathFrom u.fs.graph (backendRoot u.fs.graph u.root) path = none := by
  rcases path with _ | ⟨c, rest⟩
  · rfl
  rw [resolvePathFrom]
  by_cases hc : c = slash
  · rw [if_pos hc, start_eq]
    have hne : components [] rest ≠ [] := by
      rw [Ne, components_eq_nil]
      simpa [opensRoot, hc] using hpath
    obtain ⟨name, names, hnames⟩ := exists_cons_of_ne_nil hne
    have hfind : findEdge u.fs.graph (backendRoot u.fs.graph u.root) name = none := by
      cases hk : findEdge u.fs.graph (backendRoot u.fs.graph u.root) name with
      | none => rfl
      | some k =>
        obtain ⟨e, he, hparent, -⟩ := findEdge_some hk
        exact absurd hparent (h k e he)
    rw [hnames, walk, hfind]
  · rw [if_neg hc]

theorem empty_upperHas (h : UpperEmpty u) (env : Env) (hpath : opensRoot path = false) :
    upperHas env path u = false := by
  rw [upperHas, UnionState.upperStat, opStat, empty_resolve h hpath]
  rfl

theorem opensRoot_mark {dir leaf : List UInt8} : opensRoot (dir ++ whMark ++ leaf) = false := by
  simp [opensRoot, whMark, slash]

theorem whiteoutPath_some {wp : List UInt8} (h : whiteoutPath path = some wp) :
    ∃ dir leaf, cutLeaf path = some (dir, leaf) ∧ wp = dir ++ whMark ++ leaf := by
  obtain ⟨⟨dir, leaf⟩, hcut, hwp⟩ := bind_eq_some_iff.mp h
  simp only at hwp
  split_ifs at hwp
  exact ⟨dir, leaf, hcut, (some.inj hwp).symm⟩

theorem empty_whiteout (h : UpperEmpty u) (env : Env) (path : List UInt8) :
    upperWhiteout env path u = false := by
  unfold upperWhiteout
  cases hwp : whiteoutPath path with
  | none => rfl
  | some wp =>
    obtain ⟨dir, leaf, -, rfl⟩ := whiteoutPath_some hwp
    exact empty_upperHas h env opensRoot_mark

variable {name : Name}

theorem opensRoot_cut {dir : List UInt8} (hdir : dir.length < 256) :
    opensRoot ((dir ++ whMark ++ name).take (maxName * 4 - 1)) = false := by
  obtain ⟨n, hn⟩ : ∃ n, maxName * 4 - 1 = dir.length + (n + 2) := ⟨509 - dir.length, by
    have : maxName * 4 - 1 = 511 := rfl
    omega⟩
  rw [hn, append_assoc, take_length_add_append]
  simp [opensRoot, whMark, slash]

variable {env : Env}

theorem empty_nameWhitened (h : UpperEmpty u) (hdir : dirpath.length < 256) :
    nameWhitened env dirpath name u = false := by
  refine empty_upperHas h env (opensRoot_cut ?_)
  split_ifs
  · decide
  · exact hdir

variable {count : ℕ}

theorem getdentsLoop_none {entry : Fin maxEdges → Option Dirent} (h : ∀ k, entry k = none)
    {slots : List (Fin maxEdges)} {written : ℕ} :
    getdentsLoop entry count slots written = (maxEdges, []) := by
  induction slots with
  | nil => rfl
  | cons k rest ih => rw [getdentsLoop, h k, ih]

theorem upperEntries_none
    (hnone : ∀ k e, s.graph.edges k = some e → e.parentId ≠ (s.handles h).inodeId) {fuel next : ℕ} :
    upperEntries cfg env h s fuel next = [] := by
  cases fuel with
  | zero => rfl
  | succ fuel =>
    rw [upperEntries]
    unfold opGetdents
    rcases hslot : handleSlot s h with _ | i
    · rfl
    have hid : (s.handles h).inodeId = toId i := by
      unfold handleSlot at hslot
      split_ifs at hslot
      exact ofId_eq_some hslot
    simp only
    split_ifs
    · rfl
    have hentry : ∀ k, dirEntry env cfg.hiddenRoots (toId i) s k = none := by
      intro k
      unfold dirEntry
      cases he : s.graph.edges k with
      | none => rfl
      | some e => exact if_pos (hid ▸ hnone k e he)
    rw [getdentsLoop_none hentry]

theorem UpperEmpty.congr (h : UpperEmpty u) (hedges : u'.fs.graph.edges = u.fs.graph.edges)
    (hrootId : u'.fs.graph.rootId = u.fs.graph.rootId) (hroot : u'.root = u.root) :
    UpperEmpty u' := by
  intro k e he
  rw [hedges] at he
  have hsame : backendRoot u'.fs.graph u'.root = backendRoot u.fs.graph u.root := by
    rw [backendRoot, hrootId, hroot, backendRoot]
  rw [hsame]
  exact h k e he

theorem empty_resolve_root (hpath : opensRoot path = true) :
    resolvePathFrom u.fs.graph (backendRoot u.fs.graph u.root) path =
      some (backendRoot u.fs.graph u.root) := by
  cases path with
  | nil => cases hpath
  | cons c rest =>
    have hall : c = slash ∧ rest.all (· == slash) = true := by simpa [opensRoot] using hpath
    rw [resolvePathFrom, if_pos hall.1, start_eq, components_eq_nil.mpr hall.2, walk]

structure SameNames (u u' : UnionState) : Prop where
  edges : u'.fs.graph.edges = u.fs.graph.edges
  rootId : u'.fs.graph.rootId = u.fs.graph.rootId
  root : u'.root = u.root
  dirty : u'.upperDirty = u.upperDirty
  handles : u'.handles = u.handles

theorem SameNames.refl (u : UnionState) : SameNames u u := ⟨rfl, rfl, rfl, rfl, rfl⟩

theorem upperClose_sameNames (h : Fin handlePool) (u : UnionState) : SameNames u (upperClose h u) := by
  have hedges : (opClose h u.fs).1.graph.edges = u.fs.graph.edges ∧
      (opClose h u.fs).1.graph.rootId = u.fs.graph.rootId := by
    unfold opClose
    split_ifs
    · exact ⟨inodeClose_edges .., inodeClose_rootId ..⟩
    · exact ⟨rfl, rfl⟩
  exact ⟨hedges.1, hedges.2, rfl, rfl, rfl⟩

theorem drainUpper_empty (cfg : Cfg) (env : Env) (dirpath : List UInt8) (h : UpperEmpty u) :
    (drainUpper cfg env dirpath u).2 = [] ∧ SameNames u (drainUpper cfg env dirpath u).1 := by
  unfold drainUpper upperOpen opOpen
  simp only
  cases hpath : opensRoot dirpath with
  | false =>
    have hflags : (0x10000 : UInt32) &&& oCreat = 0 := by decide
    rw [empty_resolve h hpath]
    simp only [hflags, if_true, openResult]
    exact ⟨trivial, .refl u⟩
  | true =>
    rw [empty_resolve_root hpath]
    simp only
    unfold openHandle
    rcases hfree : freeHandle u.fs with _ | i
    · exact ⟨rfl, .refl u⟩
    have hedges : (inodeOpen u.fs.graph (backendRoot u.fs.graph u.root)).edges = u.fs.graph.edges :=
      modifyInode_edges ..
    have hrootId : (inodeOpen u.fs.graph (backendRoot u.fs.graph u.root)).rootId =
        u.fs.graph.rootId := modifyInode_rootId ..
    simp only [openResult]
    constructor
    · rw [upperEntries_none]
      · rfl
      intro k e he
      rw [hedges] at he
      simp only [update_self]
      exact h k e he
    · have hclosed := upperClose_sameNames i
        { u with fs := (u.fs.openAt dirpath (backendRoot u.fs.graph u.root) i) }
      exact ⟨hclosed.edges.trans hedges, hclosed.rootId.trans hrootId, rfl, rfl, rfl⟩

theorem drainNames_congr {skip skip' : Name → Bool} (h : ∀ nm, skip nm = skip' nm) :
    drainNames skip = drainNames skip' := by rw [funext h]

theorem mergeNames_empty (hdir : dirpath.length < 256) (h : UpperEmpty u)
    (hclean : u.upperDirty = false) :
    (mergeNames cfg env dirpath u).2 = (mergeNames cfg env dirpath u.dirtied).2 := by
  have hdirty : u.dirtied.upperDirty = true := rfl
  have hdrain := drainUpper_empty cfg env dirpath (u := u.dirtied) h
  unfold mergeNames
  simp only [hclean, hdirty, if_true, Bool.false_eq_true, if_false]
  generalize drainUpper cfg env dirpath u.dirtied = out at hdrain
  obtain ⟨u', buf⟩ := out
  obtain ⟨rfl, hsame⟩ := hdrain
  have hempty : UpperEmpty u' := UpperEmpty.congr (u := u) h hsame.edges hsame.rootId hsame.root
  unfold drainBase
  cases cfg.base.open dirpath with
  | error e => rfl
  | ok _ =>
    refine congrFun (congrFun (drainNames_congr fun nm => ?_) _) _
    rw [hclean, empty_nameWhitened hempty hdir, Bool.false_and, Bool.and_false]

variable {flags mode : UInt32} {i : Fin unionPool}

theorem opens_exact (hbase : cfg.base.free = true) (hstatic : cfg.static.free = true)
    (h : UpperEmpty u) (hpath : opensRoot path = false) (hclean : u.upperDirty = false) :
    (openRead cfg env path flags mode i u).2 = (openRead cfg env path flags mode i u.dirtied).2 ∧
      (openRead cfg env path flags mode i u).1.handles =
        (openRead cfg env path flags mode i u.dirtied).1.handles := by
  have hdirty : u.dirtied.upperDirty = true := rfl
  have hhas : upperHas env path u.dirtied = false := empty_upperHas (u := u.dirtied) h env hpath
  have hwhite : upperWhiteout env path u.dirtied = false := empty_whiteout (u := u.dirtied) h env path
  have herror : (staticFallbackOpen cfg path).mapError (fun _ => (-2 : ℤ)) =
      staticFallbackOpen cfg path := by
    unfold staticFallbackOpen Layer.open
    split
    · rfl
    · simp only [hstatic, if_true]
      split_ifs <;> rfl
  unfold openRead resolveLayer
  simp only [hclean, hdirty, hhas, hwhite, Bool.not_false, Bool.not_true, Bool.false_eq_true,
    if_true, if_false]
  unfold Layer.open baseHas
  cases hstat : cfg.base.stat path with
  | none =>
    simp only [isNone_none, isSome_none, if_true, Bool.false_eq_true, if_false, herror]
    cases staticFallbackOpen cfg path <;> exact ⟨rfl, rfl⟩
  | some st =>
    simp only [isNone_some, isSome_some, hbase, if_true, Bool.false_eq_true, if_false]
    exact ⟨rfl, rfl⟩

theorem fastExact_of_empty (hbase : cfg.base.free = true) (hstatic : cfg.static.free = true)
    (h : UpperEmpty u) (hclean : u.upperDirty = false) : FastExact cfg u := by
  have hdirty : u.dirtied.upperDirty = true := rfl
  have hhas : ∀ env path, opensRoot path = false → upperHas env path u.dirtied = false :=
    fun env path hpath => empty_upperHas (u := u.dirtied) h env hpath
  have hwhite : ∀ env path, upperWhiteout env path u.dirtied = false :=
    fun env path => empty_whiteout (u := u.dirtied) h env path
  refine ⟨?_, ?_, ?_, ?_⟩
  · intro env path hpath
    simp [uStat, hclean, hdirty, hhas env path hpath, hwhite env path]
  · intro env path hpath
    simp [uReadlink, hclean, hdirty, hhas env path hpath, hwhite env path]
  · intro env path flags mode hpath
    have hfree : freeUHandle u.dirtied = freeUHandle u := rfl
    unfold uOpen
    rw [hfree]
    rcases freeUHandle u with _ | i
    · exact ⟨rfl, rfl⟩
    simp only
    split_ifs
    · exact ⟨rfl, rfl⟩
    · exact opens_exact hbase hstatic h hpath hclean
  · intro env hd count
    have hhandles : u.dirtied.handles = u.handles := rfl
    unfold uGetdents
    rw [hhandles]
    rcases u.handles hd with _ | uh
    · rfl
    simp only
    cases uh.gdNames with
    | some names => rfl
    | none =>
      simp only
      rw [mergeNames_empty uh.fits h hclean]

def CleanStep (u u' : UnionState) : Prop :=
  u'.upperDirty = false → u.upperDirty = false ∧ u'.fs.graph.edges = u.fs.graph.edges ∧
    u'.fs.graph.rootId = u.fs.graph.rootId ∧ u'.root = u.root

theorem CleanStep.refl (u : UnionState) : CleanStep u u := fun h => ⟨h, rfl, rfl, rfl⟩

theorem CleanStep.trans {u'' : UnionState} (h : CleanStep u u') (h' : CleanStep u' u'') :
    CleanStep u u'' := by
  intro hclean
  obtain ⟨hclean', hedges', hrootId', hroot'⟩ := h' hclean
  obtain ⟨hclean'', hedges, hrootId, hroot⟩ := h hclean'
  exact ⟨hclean'', hedges'.trans hedges, hrootId'.trans hrootId, hroot'.trans hroot⟩

theorem SameNames.cleanStep (h : SameNames u u') : CleanStep u u' :=
  fun hclean => ⟨h.dirty ▸ hclean, h.edges, h.rootId, h.root⟩

theorem cleanStep_of_dirty (h : u'.upperDirty = true) : CleanStep u u' := by
  intro hclean
  cases h.symm.trans hclean

theorem cleanStep_setHandle {x : Option UHandle} :
    CleanStep u (u.setHandle i x) := fun h => ⟨h, rfl, rfl, rfl⟩

theorem cleanStep_fs {fs : Fs} (hedges : fs.graph.edges = u.fs.graph.edges)
    (hrootId : fs.graph.rootId = u.fs.graph.rootId) : CleanStep u { u with fs } :=
  fun h => ⟨h, hedges, hrootId, rfl⟩

theorem upperMkparents_dirty (env : Env) (path : List UInt8) (u : UnionState) :
    (upperMkparents env path u).upperDirty = u.upperDirty := by
  unfold upperMkparents
  generalize parentPaths path = dirs
  induction dirs generalizing u with
  | nil => rfl
  | cons dir dirs ih => exact ih _

theorem clearWhiteout_dirty (env : Env) (path : List UInt8) (u : UnionState) :
    (clearWhiteout env path u).upperDirty = u.upperDirty := by
  unfold clearWhiteout
  split_ifs
  · split <;> rfl
  · rfl

theorem writeWhiteout_dirty (env : Env) (path : List UInt8) (u : UnionState) :
    (writeWhiteout env path u).upperDirty = true := by
  unfold writeWhiteout
  simp only
  rcases whiteoutPath path with _ | wp
  · rfl
  have hmade := upperMkparents_dirty env path { u with upperDirty := true }
  generalize upperMkparents env path { u with upperDirty := true } = u₁ at hmade
  simp only [upperOpen]
  generalize openResult (opOpen env u₁.root wp (oCreat ||| oWronly) 420 u₁.fs) = out
  obtain ⟨fs, _ | h⟩ := out <;> exact hmade

theorem finishUpper_dirty {out : UnionState × Except ℤ (Fin handlePool)} :
    (finishUpper i path out).1.upperDirty = out.1.upperDirty := by
  obtain ⟨u, _ | h⟩ := out <;> rfl

theorem finishOpen_clean {layer : UnionLayer} {r : Except ℤ Unit} :
    CleanStep u (finishOpen i layer path u r).1 := by
  cases r with
  | error rc => exact .refl u
  | ok _ => apply cleanStep_setHandle

theorem uOpen_clean (cfg : Cfg) (env : Env) (path : List UInt8) (flags mode : UInt32)
    (u : UnionState) : CleanStep u (uOpen cfg env path flags mode u).1 := by
  unfold uOpen
  rcases freeUHandle u with _ | i
  · exact .refl u
  simp only
  split_ifs
  · apply cleanStep_of_dirty
    unfold openWrite
    simp only
    split_ifs
    · rw [finishUpper_dirty]
      exact (clearWhiteout_dirty ..).trans (upperMkparents_dirty ..)
    · rfl
    · exact finishUpper_dirty ..
  · unfold openRead
    split_ifs with hdirty
    · split
      · apply finishOpen_clean
      · apply finishOpen_clean
    · have hset : u.upperDirty = true := by simpa using hdirty
      split
      · exact cleanStep_of_dirty ((finishUpper_dirty ..).trans hset)
      · apply finishOpen_clean
      · apply finishOpen_clean

theorem uClose_clean (h : Fin unionPool) : CleanStep u (uClose h u).1 := by
  unfold uClose
  rcases u.handles h with _ | uh
  · exact .refl u
  simp only
  cases uh.sub with
  | none => apply cleanStep_setHandle
  | some sub =>
    exact (upperClose_sameNames sub u).cleanStep.trans cleanStep_setHandle

variable {cursor : ℤ}

theorem uRead_clean (h : Fin unionPool) : CleanStep u (uRead cfg env h count cursor u).1 := by
  have hfs : ∀ sub, CleanStep u { u with fs := (opRead env sub count cursor u.fs).1 } := by
    intro sub
    obtain ⟨dev, hdev⟩ := opRead_dev env sub count cursor u.fs
    rw [hdev]
    exact cleanStep_fs rfl rfl
  unfold uRead
  rcases u.handles h with _ | uh
  · exact .refl u
  obtain ⟨layer, sub, path, dir, fits, names, idx⟩ := uh
  cases layer with
  | upper =>
    cases sub with
    | none => exact .refl u
    | some sub =>
      have hread := hfs sub
      simp only
      generalize opRead env sub count cursor u.fs = out at hread ⊢
      obtain ⟨fs, r⟩ := out
      cases r <;> exact hread
  | _ => exact .refl u

theorem WriteDone.edges {env : Env} {buf : List UInt8} {cursor : ℤ} {s' : Fs}
    (hd : WriteDone env h buf cursor s s') : s'.graph.edges = s.graph.edges := by
  have hwrite : ∀ {id off data g' d' rc}, fileWrite s.graph s.dev id off data = (g', d', rc) →
      g'.edges = s.graph.edges := by
    intro id off data g' d' rc hw
    have hwritten := (fileWrite_written s.graph s.dev id off data).edges
    rwa [hw] at hwritten
  have hhint : ∀ (t : Fs) (id : ℤ), (t.applyPendingHint env id).graph.edges = t.graph.edges := by
    intro t id
    unfold Fs.applyPendingHint
    split_ifs
    · exact modifyInode_edges ..
    · rfl
  cases hd with
  | aside => rfl
  | contained i off sessions howner hiso hmine hw hs' =>
    rcases hs' with rfl | rfl
    · exact hwrite hw
    · exact (modifyInode_edges ..).trans (hwrite hw)
  | refused i hslot hiso hw => exact hwrite hw
  | logged i hslot hiso hw =>
    rw [hhint]
    exact (modifyInode_edges ..).trans (hwrite hw)

theorem uWrite_clean (h : Fin unionPool) {buf : List UInt8} :
    CleanStep u (uWrite env h buf cursor u).1 := by
  unfold uWrite
  rcases u.handles h with _ | uh
  · exact .refl u
  obtain ⟨layer, sub, path, dir, fits, names, idx⟩ := uh
  cases layer with
  | upper =>
    cases sub with
    | none => exact .refl u
    | some sub =>
      have hdone := opWrite_done env sub buf cursor u.fs
      exact cleanStep_fs (WriteDone.edges hdone) hdone.follows.rootId
  | _ => exact .refl u

theorem uTruncate_clean (h : Fin unionPool) {newlen : ℤ} :
    CleanStep u (uTruncate env h newlen u).1 := by
  unfold uTruncate
  rcases u.handles h with _ | uh
  · exact .refl u
  obtain ⟨layer, sub, path, dir, fits, names, idx⟩ := uh
  cases layer with
  | upper =>
    cases sub with
    | none => exact .refl u
    | some sub =>
      obtain ⟨cow, hcow⟩ := opTruncate_done env sub newlen u.fs
      refine cleanStep_fs ?_ ?_ <;> rw [hcow]
  | _ => exact .refl u

theorem uDupHandle_clean {src : Fin unionPool} : CleanStep u (uDupHandle src u).1 := by
  have hfs : ∀ sub, CleanStep u { u with fs := (opDupHandle sub u.fs).1 } := by
    intro sub
    unfold opDupHandle
    split_ifs
    · exact .refl u
    cases freeHandle u.fs with
    | none => exact .refl u
    | some i => exact cleanStep_fs (modifyInode_edges ..) (modifyInode_rootId ..)
  unfold uDupHandle
  cases u.handles src with
  | none => exact .refl u
  | some uh =>
    obtain ⟨layer, sub, path, dir, fits, names, idx⟩ := uh
    cases freeUHandle u with
    | none => exact .refl u
    | some i =>
      cases layer with
      | upper =>
        cases sub with
        | none => apply cleanStep_setHandle
        | some sub =>
          have hdup := hfs sub
          simp only
          generalize opDupHandle sub u.fs = out at hdup ⊢
          obtain ⟨fs, r⟩ := out
          cases r with
          | handle h => exact hdup.trans cleanStep_setHandle
          | _ => exact hdup
      | _ => apply cleanStep_setHandle

theorem drainUpper_dirty : (drainUpper cfg env dirpath u).1.upperDirty = u.upperDirty := by
  unfold drainUpper upperOpen
  generalize openResult (opOpen env u.root dirpath 0x10000 0 u.fs) = out
  obtain ⟨fs, _ | h⟩ := out <;> rfl

theorem uGetdents_clean (h : Fin unionPool) : CleanStep u (uGetdents cfg env h count u).1 := by
  have hmerge : ∀ dirpath, CleanStep u (mergeNames cfg env dirpath u).1 := by
    intro dirpath
    unfold mergeNames
    simp only
    split_ifs with hdirty
    · exact cleanStep_of_dirty ((drainUpper_dirty ..).trans hdirty)
    · exact .refl u
  unfold uGetdents
  cases u.handles h with
  | none => exact .refl u
  | some uh =>
    simp only
    cases uh.gdNames with
    | some names => apply cleanStep_setHandle
    | none => exact (hmerge uh.gdDirpath).trans cleanStep_setHandle

theorem splitPath_root (h : opensRoot path = true) : splitPath (stripTmpPrefix path) = none := by
  have hall : path ≠ [] ∧ ∀ c ∈ path, c = slash := by simpa [opensRoot] using h
  have hstrip : stripTmpPrefix path = path := by
    unfold stripTmpPrefix
    rw [if_neg]
    intro htmp
    have hmem : (116 : UInt8) ∈ path.take 4 := by rw [htmp]; decide
    exact absurd (hall.2 _ (mem_of_mem_take hmem)) (by decide)
  have hleaf : path.rtakeWhile (· != slash) = [] := by
    rw [rtakeWhile_eq_nil_iff]
    intro hne
    simp [hall.2 _ (getLast_mem hne)]
  rw [hstrip]
  unfold splitPath
  simp [hleaf]

theorem unlinkRoot_root (env : Env) (root : ℤ) (h : opensRoot path = true) (s : Fs) :
    (unlinkRoot env root path s).1 = s ∧ Reply.toCode (unlinkRoot env root path s).2 ≠ 0 := by
  unfold unlinkRoot
  rw [splitPath_root h]
  split_ifs <;> refine ⟨rfl, ?_⟩ <;> simp [Reply.toCode]

theorem rmdirRoot_root (env : Env) (root : ℤ) (h : opensRoot path = true) (s : Fs) :
    (rmdirRoot env root path s).1 = s ∧ Reply.toCode (rmdirRoot env root path s).2 ≠ 0 := by
  unfold rmdirRoot
  rw [splitPath_root h]
  split_ifs <;> refine ⟨rfl, ?_⟩ <;> simp [Reply.toCode]

theorem removeWith_clean (remove : List UInt8 → UnionState → UnionState × ℤ) (cfg : Cfg) (env : Env)
    (path : List UInt8) (h : u.upperDirty = false → UpperEmpty u)
    (hdirty : (remove path u).1.upperDirty = u.upperDirty)
    (hroot : opensRoot path = true → (remove path u).1 = u ∧ (remove path u).2 ≠ 0) :
    CleanStep u (removeWith remove cfg env path u).1 := by
  unfold removeWith
  split_ifs with hhas hbase
  · simp only
    split_ifs with hrc
    · exact cleanStep_of_dirty (writeWhiteout_dirty ..)
    · intro hclean
      rw [hdirty] at hclean
      have hpath : opensRoot path = true := by
        by_contra hpath
        rw [empty_upperHas (h hclean) env (by simpa using hpath)] at hhas
        cases hhas
      rw [(hroot hpath).1]
      exact ⟨hclean, rfl, rfl, rfl⟩
  · exact cleanStep_of_dirty (writeWhiteout_dirty ..)
  · exact .refl u

def RootKept (u : UnionState) : Env × UnionOp → Prop
  | (_, .rename oldp _) => u.upperDirty = true ∨ opensRoot oldp.bytes = false
  | _ => True

theorem uRename_clean {oldp newp : CStr} (h : u.upperDirty = false → UpperEmpty u)
    (hkept : RootKept u (env, .rename oldp newp)) :
    CleanStep u (uRename cfg env oldp.bytes newp.bytes u).1 := by
  unfold uRename
  split_ifs with hhas
  · have hset : u.upperDirty = true := by
      rcases hkept with hset | hpath
      · exact hset
      · by_contra hclean
        rw [empty_upperHas (h (by simpa using hclean)) env hpath] at hhas
        cases hhas
    apply cleanStep_of_dirty
    simp only
    split_ifs
    · exact writeWhiteout_dirty ..
    · exact ((clearWhiteout_dirty ..).trans (upperMkparents_dirty ..)).trans hset
  · exact .refl u
  · exact .refl u

theorem uStep_clean (h : u.upperDirty = false → UpperEmpty u) {call : Env × UnionOp}
    (hkept : RootKept u call) : CleanStep u (uStep cfg u call).1 := by
  obtain ⟨env, op⟩ := call
  cases op with
  | «open» path flags mode => exact uOpen_clean cfg env path.bytes flags mode u
  | close h => exact uClose_clean h
  | read h count cursor => exact uRead_clean h
  | write h buf cursor => exact uWrite_clean h
  | truncate h newlen => exact uTruncate_clean h
  | dupHandle src => exact uDupHandle_clean
  | stat path => exact .refl u
  | fstat h => exact .refl u
  | readlink path => exact .refl u
  | getdents h count => exact uGetdents_clean h
  | mkdir path mode =>
    exact cleanStep_of_dirty (upperMkparents_dirty env path.bytes { u with upperDirty := true })
  | unlink path =>
    refine removeWith_clean (upperUnlink env) cfg env path.bytes h rfl fun hpath => ?_
    obtain ⟨hsame, hrc⟩ := unlinkRoot_root env (backendRoot u.fs.graph u.root) hpath u.fs
    exact ⟨by simp only [upperUnlink, hsame], hrc⟩
  | rmdir path =>
    refine removeWith_clean (upperRmdir env) cfg env path.bytes h rfl fun hpath => ?_
    obtain ⟨hsame, hrc⟩ := rmdirRoot_root env (backendRoot u.fs.graph u.root) hpath u.fs
    exact ⟨by simp only [upperRmdir, hsame], hrc⟩
  | rename oldp newp => exact uRename_clean h hkept

inductive MountCall where
  | etc
  | usr (basedb : List UInt8)

def MountCall.start (cfg : Cfg) (env : Env) (s : Fs) : MountCall → UnionState
  | .etc => etcMount env s
  | .usr basedb => usrMount cfg env basedb s

/-- While the flag is clear, what is read past the upper layer is what asking it would give: over an
empty upper layer, in every run that does not rename the mount's root. -/
theorem fast_path_exact (cfg : Cfg) (hbase : cfg.base.free = true) (hstatic : cfg.static.free = true)
    (env : Env) (s : Fs) (m : MountCall)
    (hempty : (m.start cfg env s).upperDirty = false → UpperEmpty (m.start cfg env s))
    (calls : List (Env × UnionOp))
    (hcalls : ∀ e ∈ trace (uStep cfg) (m.start cfg env s) calls, RootKept e.pre e.input)
    (hclean : (exec (uStep cfg) (m.start cfg env s) calls).upperDirty = false) :
    FastExact cfg (exec (uStep cfg) (m.start cfg env s) calls) := by
  refine fastExact_of_empty hbase hstatic ?_ hclean
  refine exec_invariant_of (uStep cfg) (P := fun u => u.upperDirty = false → UpperEmpty u)
    (Q := fun e => RootKept e.pre e.input) ?_ hempty calls hcalls hclean
  intro u call hkept hu hnext
  obtain ⟨hbefore, hedges, hrootId, hroot⟩ := uStep_clean hu hkept hnext
  exact (hu hbefore).congr hedges hrootId hroot

def bareLayer : Layer where
  stat _ := none
  read _ _ _ := .error (-2)
  readlink _ := .error (-2)
  children _ := []
  free := true

def bareCfg : Cfg := ⟨bareLayer, bareLayer, none, [], fun _ => false⟩

def bareMount : UnionState := etcMount bootEnv (freshFs blankImage 0)

theorem bareMount_eq : MountCall.start bareCfg bootEnv (lazyInit blankImage 0) .etc = bareMount := by
  rw [boot_eq]
  rfl

theorem bareMount_empty : UpperEmpty bareMount := by
  have hedges : ∀ k, (bareMount.fs.graph.edges k).all
      (·.parentId != backendRoot bareMount.fs.graph bareMount.root) = true := by decide +kernel
  intro k e he
  have hk := hedges k
  rw [he] at hk
  exact bne_iff_ne.mp hk

def renameRootCall : Env × UnionOp := (bootEnv, .rename pathRoot pathAB)

def plainStat (mode : UInt32) (size : ℕ) : LxStat := ⟨0, 1, 1, mode, size, 4096, 0, 0, 0, 0⟩

def oneFileLayer (content : List UInt8) : Layer where
  stat path :=
    if path = pathA.bytes then some (plainStat 0o100644 content.length)
    else if path = pathRoot.bytes then some (plainStat 0o040755 0) else none
  read path count cursor :=
    if path = pathA.bytes then .ok ((content.drop cursor.toNat).take count) else .error (-2)
  readlink _ := .error (-22)
  children path := if path = pathRoot.bytes then [([97], 8)] else []
  free := true

def oneFileCfg : Cfg := ⟨oneFileLayer [104, 105], bareLayer, none, [], fun _ => false⟩

theorem unionPool_pos : 0 < unionPool := by
  decide

def lowerCalls : List (Env × UnionOp) :=
  [(bootEnv, .rename pathB pathA), (bootEnv, .open pathA 0 0), (bootEnv, .stat pathA)]

theorem fast_path_exact_oneFile : ∃ u, u = exec (uStep oneFileCfg)
      (MountCall.start oneFileCfg bootEnv (lazyInit blankImage 0) .etc) lowerCalls ∧
    FastExact oneFileCfg u ∧
    (uStat oneFileCfg bootEnv pathA.bytes u).toOption = some (plainStat 0o100644 2) ∧
    (uRead oneFileCfg bootEnv ⟨0, unionPool_pos⟩ 8 0 u).2.toOption = some [104, 105] := by
  have hstart : MountCall.start oneFileCfg bootEnv (lazyInit blankImage 0) .etc = bareMount :=
    bareMount_eq
  have hclean : (exec (uStep oneFileCfg) bareMount lowerCalls).upperDirty = false := by
    decide +kernel
  refine ⟨_, rfl, ?_, ?_⟩
  · refine fast_path_exact oneFileCfg rfl rfl bootEnv (lazyInit blankImage 0) .etc ?_ _ ?_ ?_
    · rw [hstart]
      exact fun _ => bareMount_empty
    · rw [hstart]
      simp only [lowerCalls, trace, List.forall_mem_cons]
      exact ⟨.inr rfl, trivial, trivial, List.forall_mem_nil _⟩
    · rw [hstart]
      exact hclean
  · rw [hstart]
    decide +kernel

theorem made_behind_flag :
    (exec (uStep bareCfg) (MountCall.start bareCfg bootEnv (lazyInit blankImage 0) .etc)
        [renameRootCall]).upperDirty = false ∧
      ¬FastExact bareCfg (exec (uStep bareCfg)
        (MountCall.start bareCfg bootEnv (lazyInit blankImage 0) .etc) [renameRootCall]) := by
  rw [bareMount_eq]
  refine ⟨by decide +kernel, fun h => ?_⟩
  have hstat := h.stat bootEnv [47, 97] (by decide)
  have hfast : (uStat bareCfg bootEnv [47, 97]
      (exec (uStep bareCfg) bareMount [renameRootCall])).isOk = false := by decide +kernel
  have hfull : (uStat bareCfg bootEnv [47, 97]
      (exec (uStep bareCfg) bareMount [renameRootCall]).dirtied).isOk = true := by
    decide +kernel
  rw [hstat, hfull] at hfast
  cases hfast

end SotOs.Lucas.Union
