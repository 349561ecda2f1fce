import SotOs.Lib.RefCount
import SotOs.Lucas.Reap

/-! The handles on an inode and its open count, through opens, duplicates, closes and removals. -/

namespace SotOs.Sotfs
open Slots Function Finset Option

variable {g g' : Graph} {path : List UInt8} {root : ℤ}

theorem blocks_kept (op : GraphOp) (d : Blkdev) (hg : (op.step (g, d)).1.1 = g')
    (hnone : (∀ f, ¬Frees g op f) → g'.blocks = g.blocks) {k : Fin maxBlocks} {b : Block}
    (hb : g.blocks k = some b) (hstay : ¬Frees g op b.fileId) : g'.blocks k = some b := by
  by_cases hfrees : ∃ f, Frees g op f
  · obtain ⟨f, hf⟩ := hfrees
    have hne : b.fileId ≠ f := by
      rintro rfl
      exact hstay hf
    rw [← hg, (hf.step_blocks d).1, dropBlocks]
    simp [hb, hne]
  · rw [hnone fun f hf => hfrees ⟨f, hf⟩, hb]

def Idle (g : Graph) : Prop := ∀ i n, g.inodes i = some n → n.openCount = 0

theorem GraphDrops.idle {freed : Fin maxInodes → Prop} (h : GraphDrops freed g g') (hg : Idle g) :
    Idle g' := by
  intro i n' hn'
  have hi : ¬freed i := by
    intro hi
    rw [h.gone i hi] at hn'
    cases hn'
  have hstays := h.stays i hi
  rw [hn', map_some] at hstays
  obtain ⟨n, hn, hcount⟩ := map_eq_some_iff.mp hstays.symm
  rw [← hcount, hg i n hn]

variable {p : ℤ} {name : Name} {mode : UInt32}

theorem createNode_idle {kind : Kind} (hg : Idle g) : Idle (createNode kind g p name mode).1 := by
  have hcreated := createNode_created kind g p name mode
  generalize createNode kind g p name mode = out at hcreated
  obtain ⟨g', rc⟩ := out
  cases hcreated with
  | failed _ _ hsame => exact (graphDrops_same hsame.inodes).idle hg
  | created i j =>
    intro k n hn
    by_cases hk : k = i
    · subst hk
      simp only [update_self, some.injEq] at hn
      rw [← hn]
      rfl
    · simp only [update_of_ne hk] at hn
      exact hg k n hn

def opensRoot (path : List UInt8) : Bool := path != [] && path.all (· == slash)

theorem components_ne_nil {cur : List UInt8} (hcur : cur ≠ []) : components cur path ≠ [] := by
  induction path generalizing cur with
  | nil => simp [components, hcur]
  | cons c rest ih =>
    rw [components]
    split_ifs
    · simp
    · simp
    · exact ih (by simp)

theorem components_eq_nil : components [] path = [] ↔ path.all (· == slash) = true := by
  induction path with
  | nil => simp [components]
  | cons c rest ih =>
    rw [components]
    by_cases hc : c = slash
    · simp [hc, ih]
    have hlong : ¬([] : List UInt8).length + 1 = maxName - 1 := by decide
    have hne : components [c] rest ≠ [] := components_ne_nil (by simp)
    simp only [hc, if_false, hlong, List.all_cons]
    simpa [hc] using hne

theorem walk_live (h : GraphInv g) {cur id : ℤ} {names : List Name} (hne : names ≠ [])
    (hwalk : walk g cur names = some id) : ∃ n, g.inode id = some n := by
  induction names generalizing cur with
  | nil => exact absurd rfl hne
  | cons name rest ih =>
    rw [walk] at hwalk
    rcases hfind : findEdge g cur name with _ | k
    · simp [hfind] at hwalk
    obtain ⟨e, he, -⟩ := findEdge_some hfind
    simp only [hfind, he] at hwalk
    cases rest with
    | nil =>
      obtain ⟨⟩ := hwalk
      exact h.child_live k e he
    | cons name' rest => exact ih (by simp) hwalk

variable {id' : ℤ}

theorem modifyInode_isSome {id : ℤ} {f : Inode → Inode} :
    ((g.modifyInode id f).inode id').isSome = (g.inode id').isSome := by
  rw [Graph.inode_modifyInode]
  split_ifs with h
  · rw [isSome_map, h]
  · rfl

theorem GraphInv.rootId_pos (h : GraphInv g) : 0 < g.rootId := by
  obtain ⟨n, hn, -⟩ := h.root_dir
  obtain ⟨i, hi, -⟩ := Graph.inode_eq_some.mp hn
  rw [hi]
  exact toId_pos

theorem resolve_live (h : GraphInv g) {id : ℤ} (hpath : opensRoot path = false)
    (hres : resolvePathFrom g root path = some id) : ∃ n, g.inode id = some n := by
  rcases path with _ | ⟨c, rest⟩
  · cases hres
  rw [resolvePathFrom] at hres
  by_cases hc : c = slash
  · rw [if_pos hc] at hres
    refine walk_live h ?_ hres
    rw [Ne, components_eq_nil]
    simpa [opensRoot, hc] using hpath
  · simp [hc] at hres

theorem resolve_root (hroot : 0 < root) (hpath : opensRoot path = true) :
    resolvePathFrom g root path = some root := by
  cases path with
  | nil => cases hpath
  | cons c rest =>
    have hall : c = slash ∧ rest.all (· == slash) = true := by simpa [opensRoot] using hpath
    rw [resolvePathFrom, if_pos hall.1, if_pos hroot, components_eq_nil.mpr hall.2, walk]

end SotOs.Sotfs

namespace SotOs.Lucas
open Sotfs Slots Function Finset Option

inductive HandleOp where
  | open (mountRoot : ℤ) (path : CStr) (flags mode : UInt32)
  | dupHandle (h : Fin handlePool)
  | close (h : Fin handlePool)
  | unlink (mountRoot : ℤ) (path : CStr)
  | rmdir (mountRoot : ℤ) (path : CStr)

def HandleOp.toFs : HandleOp → FsOp
  | .open mountRoot path flags mode => .open mountRoot path flags mode
  | .dupHandle h => .dupHandle h
  | .close h => .close h
  | .unlink mountRoot path => .unlink mountRoot path
  | .rmdir mountRoot path => .rmdir mountRoot path

def Fs.ref (s : Fs) (h : Fin handlePool) : Option ℤ :=
  if (s.handles h).inUse then some (s.handles h).inodeId else none

def Fs.holders (s : Fs) (i : Fin maxInodes) : Finset (Fin handlePool) :=
  RefCount.holders s.ref (Slots.toId i)

structure Tracked where
  fs : Fs
  born : Fin maxInodes → ℕ
  stamp : Fin handlePool → ℕ

def Tracked.bornIn (t : Tracked) (s : Fs) (i : Fin maxInodes) : ℕ :=
  if !t.fs.live i && s.live i then t.born i + 1 else t.born i

def bornAt (born : Fin maxInodes → ℕ) (id : ℤ) : ℕ := ((Slots.ofId maxInodes id).map born).getD 0

def trackStep (t : Tracked) (call : Env × HandleOp) : Tracked × Reply :=
  -- A duplicate is of the file its source was opened on.
  let (s, reply) := fsStep t.fs (call.1, call.2.toFs)
  let stamp := match call.2, reply with
    | .open .., .handle h => Function.update t.stamp h (bornAt (t.bornIn s) (s.handles h).inodeId)
    | .dupHandle src, .handle h => Function.update t.stamp h (t.stamp src)
    | _, _ => t.stamp
  (⟨s, t.bornIn s, stamp⟩, reply)

def Tracked.SameFile (t : Tracked) (h : Fin handlePool) : Prop :=
  ∃ i, (t.fs.handles h).inodeId = Slots.toId i ∧ t.fs.live i = true ∧ t.born i = t.stamp h

structure HandlesSound (t : Tracked) : Prop where
  file : ∀ h, (t.fs.handles h).inUse = true → t.SameFile h
  count : ∀ i n, t.fs.graph.inodes i = some n → n.openCount = (t.fs.holders i).card
  unlinked : ∀ i n, t.fs.graph.inodes i = some n → n.orphan = true → (t.fs.holders i).Nonempty

structure LastClose (op : HandleOp) (s s' : Fs) : Prop where
  freed : ∀ i n, s.graph.inodes i = some n → n.orphan = true →
    (s'.graph.inodes i = none ↔ ∃ h, op = .close h ∧ s.holders i = {h})
  gone : ∀ i, s'.graph.inodes i = none →
    ∀ k b, s'.graph.blocks k = some b → b.fileId ≠ Slots.toId i
  kept : ∀ i k b, s'.graph.inodes i ≠ none → s.graph.blocks k = some b →
    b.fileId = Slots.toId i → s'.graph.blocks k = some b

/-- A handle is duplicated while on its file, a directory removed while not open, and the root of a
mount opened while it is there. -/
def HandleSafe (t : Tracked) : Env × HandleOp → Prop
  | (_, .open mountRoot path _ _) => opensRoot path.bytes = true → (freeHandle t.fs).isSome = true →
    ∃ n, t.fs.graph.inode (backendRoot t.fs.graph mountRoot) = some n
  | (_, .dupHandle h) => 0 < (t.fs.handles h).inodeId → (freeHandle t.fs).isSome = true →
    t.SameFile h
  | (_, .close _) => True
  | (_, .unlink _ _) => True
  | (env, .rmdir mountRoot path) =>
    ∀ i, FreesInode t.fs (env, .rmdir mountRoot path) i → t.fs.holders i = ∅

variable {s s' : Fs} {t : Tracked} {freed : Fin maxInodes → Prop} {env : Env} {x : Handle}
  {root : ℤ} {path : List UInt8} {g : Graph} {op : HandleOp}

theorem mem_holders {h : Fin handlePool} {i : Fin maxInodes} :
    h ∈ s.holders i ↔ (s.handles h).inUse = true ∧ (s.handles h).inodeId = toId i := by
  rw [Fs.holders, RefCount.mem_holders, Fs.ref]
  split_ifs with huse <;> simp [huse]

theorem holders_congr (h : s'.handles = s.handles) : s'.holders = s.holders := by
  unfold Fs.holders Fs.ref
  rw [h]

theorem handlesSound_iff (h : GraphInv t.fs.graph) : HandlesSound t ↔
    (∀ h, (t.fs.handles h).inUse = true → t.SameFile h) ∧
      ∀ i n, t.fs.graph.inodes i = some n → n.openCount = (t.fs.holders i).card := by
  refine ⟨fun ht => ⟨ht.file, ht.count⟩, fun ht => ⟨ht.1, ht.2, fun i n hn horphan => ?_⟩⟩
  have hopen := (h.orphan_free (toId i) n (by rwa [Graph.inode_toId]) horphan).2
  rw [ht.2 i n hn] at hopen
  exact card_pos.mp hopen

theorem HandlesSound.holders_dead (ht : HandlesSound t) {i : Fin maxInodes}
    (hi : t.fs.graph.inodes i = none) : t.fs.holders i = ∅ := by
  rw [eq_empty_iff_forall_notMem]
  intro h hh
  obtain ⟨huse, hid⟩ := mem_holders.mp hh
  obtain ⟨k, hk, hlive, -⟩ := ht.file h huse
  obtain rfl := toId_injective (hk.symm.trans hid)
  rw [Fs.live, hi] at hlive
  cases hlive

structure Turn (freed : Fin maxInodes → Prop) (s s' : Fs) : Prop where
  handles : s'.handles = s.handles
  gone : ∀ i, freed i → s'.graph.inodes i = none
  stays : ∀ i n, s.graph.inodes i = some n → ¬freed i →
    ∃ n', s'.graph.inodes i = some n' ∧ n'.openCount = n.openCount
  fresh : ∀ i n', s.graph.inodes i = none → s'.graph.inodes i = some n' → n'.openCount = 0
  blocks : ∀ k b, s.graph.blocks k = some b → (∀ i, freed i → b.fileId ≠ Slots.toId i) →
    s'.graph.blocks k = some b

theorem Drops.turn (h : Drops freed s s')
    (hblocks : ∀ k b, s.graph.blocks k = some b → (∀ i, freed i → b.fileId ≠ toId i) →
      s'.graph.blocks k = some b) : Turn freed s s' := by
  refine ⟨h.handles, h.graph.gone, ?_, ?_, hblocks⟩
  · intro i n hn hi
    have hstays := h.graph.stays i hi
    rw [hn, map_some] at hstays
    exact map_eq_some_iff.mp hstays
  · intro i n' hn hn'
    have hi : ¬freed i := by
      intro hi
      rw [h.graph.gone i hi] at hn'
      cases hn'
    have hstays := h.graph.stays i hi
    rw [hn, hn'] at hstays
    cases hstays

abbrev Grows : Fs → Fs → Prop := Turn fun _ => False

theorem Grows.refl (s : Fs) : Grows s s :=
  ⟨rfl, fun _ h => h.elim, fun _ n hn _ => ⟨n, hn, rfl⟩, fun _ _ hn hn' => by simp [hn] at hn',
    fun _ _ hb _ => hb⟩

theorem Grows.trans {s'' : Fs} (h : Grows s s') (h' : Grows s' s'') : Grows s s'' := by
  refine ⟨h'.handles.trans h.handles, fun _ hi => hi.elim, ?_, ?_, ?_⟩
  · intro i n hn hi
    obtain ⟨n', hn', hcount⟩ := h.stays i n hn hi
    obtain ⟨n'', hn'', hcount'⟩ := h'.stays i n' hn' hi
    exact ⟨n'', hn'', hcount'.trans hcount⟩
  · intro i n'' hn hn''
    rcases hn' : s'.graph.inodes i with _ | n'
    · exact h'.fresh i n'' hn' hn''
    obtain ⟨m, hm, hcount⟩ := h'.stays i n' hn' id
    obtain rfl := some.inj (hn''.symm.trans hm)
    rw [hcount, h.fresh i n' hn hn']
  · exact fun k b hb hi => h'.blocks k b (h.blocks k b hb hi) hi

theorem NodeStep.blocks (h : NodeStep env s s') : s'.graph.blocks = s.graph.blocks := by
  cases h with
  | made kind p name mode g' id hkind hnul hcreate =>
    have hcreated := createNode_created kind s.graph p name mode
    rw [hcreate] at hcreated
    rw [addNode_graph, modifyInode_blocks]
    cases hcreated with
    | created => rfl
  | tried kind p name mode g' e hcreate =>
    have hcreated := createNode_created kind s.graph p name mode
    rw [hcreate] at hcreated
    cases hcreated with
    | failed _ _ hsame => exact hsame.blocks
  | hinted id =>
    unfold Fs.applyPendingHint
    split_ifs
    · exact modifyInode_blocks ..
    · rfl

theorem NodeStep.grows (h : NodeStep env s s') : Grows s s' := by
  have hblocks := h.blocks
  rcases h.quiet_or_made with hquiet | ⟨i, hmade⟩
  · exact hquiet.turn fun k b hb _ => hblocks ▸ hb
  refine ⟨hmade.handles, fun _ hi => hi.elim, ?_, ?_, fun k b hb _ => hblocks ▸ hb⟩
  · intro k n hn _
    have hki : k ≠ i := by
      rintro rfl
      cases hmade.dead.symm.trans hn
    exact ⟨n, (hmade.others k hki).trans hn, rfl⟩
  · intro k n' hn hn'
    by_cases hki : k = i
    · subst hki
      obtain ⟨m, hm, hcount, -⟩ := hmade.inode
      rwa [some.inj (hn'.symm.trans hm)]
    · rw [hmade.others k hki, hn] at hn'
      cases hn'

theorem NodeSteps.grows (h : NodeSteps env s s') : Grows s s' := by
  induction h with
  | refl => exact .refl s
  | tail _ hstep ih => exact ih.trans hstep.grows

theorem Turn.sound_iff (h : Turn freed t.fs s) (ht : HandlesSound t) (hs : GraphInv s.graph) :
    HandlesSound ⟨s, t.bornIn s, t.stamp⟩ ↔ ∀ i, freed i → t.fs.holders i = ∅ := by
  rw [handlesSound_iff hs]
  constructor
  · rintro ⟨hfile, -⟩ i hi
    rw [eq_empty_iff_forall_notMem]
    intro k hk
    obtain ⟨huse, hid⟩ := mem_holders.mp hk
    obtain ⟨j, hj, hlive, -⟩ := hfile k (by rwa [h.handles])
    simp only [h.handles] at hj
    obtain rfl := toId_injective (hj.symm.trans hid)
    simp only [Fs.live, h.gone j hi] at hlive
    cases hlive
  · intro hnone
    have hstay : ∀ i n, t.fs.graph.inodes i = some n → (t.fs.holders i).Nonempty →
        ∃ n', s.graph.inodes i = some n' ∧ n'.openCount = n.openCount := by
      intro i n hn hheld
      exact h.stays i n hn fun hi => hheld.ne_empty (hnone i hi)
    refine ⟨?_, ?_⟩
    · intro k huse
      simp only [h.handles] at huse
      obtain ⟨i, hid, hlive, hstamp⟩ := ht.file k huse
      obtain ⟨n, hn⟩ := isSome_iff_exists.mp hlive
      obtain ⟨n', hn', -⟩ := hstay i n hn ⟨k, mem_holders.mpr ⟨huse, hid⟩⟩
      refine ⟨i, by simpa only [h.handles] using hid, by simp [Fs.live, hn'], ?_⟩
      simpa [Tracked.bornIn, hlive] using hstamp
    · intro i n' hn'
      simp only [holders_congr h.handles]
      rcases hn : t.fs.graph.inodes i with _ | n
      · rw [ht.holders_dead hn, h.fresh i n' hn hn', card_empty]
      have hi : ¬freed i := by
        intro hi
        rw [h.gone i hi] at hn'
        cases hn'
      obtain ⟨m, hm, hcount⟩ := h.stays i n hn hi
      obtain rfl := some.inj (hn'.symm.trans hm)
      rw [hcount, ht.count i n hn]

def Fs.take (s : Fs) (i : Fin handlePool) (x : Handle) : Fs :=
  { s with
    handles := Function.update s.handles i x
    graph := inodeOpen s.graph x.inodeId }

theorem freeHandle_some {i : Fin handlePool} (h : freeHandle s = some i) :
    (s.handles i).inUse = false := by
  simpa using first_some h

theorem take_live {i : Fin handlePool} {k : Fin maxInodes} : (s.take i x).live k = s.live k := by
  unfold Fs.live Fs.take inodeOpen
  rw [modifyInode_inodes, isSome_map]

theorem take_bornIn (t : Tracked) (s : Fs) (i : Fin handlePool) (x : Handle) :
    t.bornIn (s.take i x) = t.bornIn s := by
  funext k
  rw [Tracked.bornIn, take_live, Tracked.bornIn]

theorem openAt_bornIn (t : Tracked) (s : Fs) (path : List UInt8) (id : ℤ) (i : Fin handlePool) :
    t.bornIn (s.openAt path id i) = t.bornIn s :=
  take_bornIn t s i ⟨true, id, path.take (handlePathBytes - 1)⟩

theorem take_holders {i : Fin handlePool} (hfree : (s.handles i).inUse = false)
    (huse : x.inUse = true) (k : Fin maxInodes) : ((s.take i x).holders k).card =
      (s.holders k).card + if toId k = x.inodeId then 1 else 0 := by
  have href : (s.take i x).ref = update s.ref i (some x.inodeId) := by
    funext h
    by_cases hi : h = i
    · subst hi
      simp [Fs.ref, Fs.take, huse]
    · simp [Fs.ref, Fs.take, hi]
  have hnone : s.ref i = none := by simp [Fs.ref, hfree]
  rw [Fs.holders, href, RefCount.card_take hnone, Fs.holders]

theorem sound_take_iff (ht : HandlesSound t) (hinv : GraphInv t.fs.graph) {i : Fin handlePool}
    (hfree : (t.fs.handles i).inUse = false) (huse : x.inUse = true) (stamp : ℕ) :
    HandlesSound ⟨t.fs.take i x, t.born, update t.stamp i stamp⟩ ↔
      ∃ k, x.inodeId = toId k ∧ t.fs.live k = true ∧ t.born k = stamp := by
  rw [handlesSound_iff (hinv.inodeOpen x.inodeId)]
  have hself : (t.fs.take i x).handles i = x := update_self ..
  have hother : ∀ h, h ≠ i → (t.fs.take i x).handles h = t.fs.handles h :=
    fun h hi => update_of_ne hi ..
  constructor
  · rintro ⟨hfile, -⟩
    obtain ⟨k, hid, hlive, hstamp⟩ := hfile i (by rw [hself, huse])
    simp only [hself, take_live, update_self] at hid hlive hstamp
    exact ⟨k, hid, hlive, hstamp⟩
  · rintro ⟨k, hid, hlive, hstamp⟩
    refine ⟨fun h hh => ?_, fun j n' hn' => ?_⟩
    · by_cases hi : h = i
      · subst hi
        exact ⟨k, by simp only [hself, hid], by simp only [take_live, hlive], by simp [hstamp]⟩
      simp only [hother h hi] at hh
      obtain ⟨j, hj, hjlive, hjstamp⟩ := ht.file h hh
      exact ⟨j, by simp only [hother h hi, hj], by simp only [take_live, hjlive],
        by simp [hi, hjstamp]⟩
    · rw [take_holders hfree huse]
      simp only [Fs.take, Sotfs.inodeOpen, modifyInode_inodes] at hn'
      obtain ⟨n, hn, rfl⟩ := map_eq_some_iff.mp hn'
      have hcount := ht.count j n hn
      have hroom : n.openCount < 255 := by
        rw [hcount]
        refine lt_of_le_of_lt (RefCount.card_holders_le ..) ?_
        rw [Fintype.card_fin]
        decide
      by_cases hj : x.inodeId = toId j
      · rw [if_pos hj, if_pos hroom, if_pos hj.symm, hcount]
      · rw [if_neg hj, if_neg (Ne.symm hj), hcount, Nat.add_zero]

inductive Opened (env : Env) (root : ℤ) (path : List UInt8) (s : Fs) : Fs × Reply → Prop
  | refused {s₁ rc} (hsteps : NodeSteps env s s₁)
      (hroot : opensRoot path = true → freeHandle s = none) : Opened env root path s (s₁, .code rc)
  | root {i} (hpath : opensRoot path = true) (hfree : freeHandle s = some i) :
      Opened env root path s (s.openAt path root i, .handle i)
  | file {s₁ i id n} (hpath : opensRoot path = false) (hsteps : NodeSteps env s s₁)
      (hfree : freeHandle s₁ = some i) (hlive : s₁.graph.inode id = some n) :
      Opened env root path s (s₁.openAt path id i, .handle i)

theorem openHandle_opened {s₁ : Fs} (hpath : opensRoot path = false) (hsteps : NodeSteps env s s₁)
    {id : ℤ} {n : Inode} (hlive : s₁.graph.inode id = some n) :
    Opened env root path s (openHandle path s₁ id) := by
  unfold openHandle
  cases hfree : freeHandle s₁ with
  | none => exact .refused hsteps (by simp [hpath])
  | some i => exact .file hpath hsteps hfree hlive

theorem applyPendingHint_isSome {id : ℤ} :
    ((s.applyPendingHint env id).graph.inode id').isSome = (s.graph.inode id').isSome := by
  unfold Fs.applyPendingHint
  split_ifs
  · exact modifyInode_isSome ..
  · rfl

theorem openCreate_live {mode : UInt32} {id : ℤ} (hinv : GraphInv s.graph) (hnul : 0 ∉ path)
    (hpath : opensRoot path = false) (h : openCreate env root path mode s = (s', .ok id)) :
    ∃ n, s'.graph.inode id = some n := by
  unfold openCreate at h
  split at h
  · cases h
  rcases hsplit : splitPath path with _ | pl
  · simp [hsplit] at h
  obtain ⟨parentPath, leaf⟩ := pl
  obtain ⟨-, -, rest, q, -, hq, -⟩ := splitPath_some hsplit
  have hparent := (openParent_steps env root hq (splitPath_noNul hsplit hnul).1 s).1
  simp only [hsplit] at h
  generalize openParent env root parentPath s = out at hparent h
  obtain ⟨s₁, _ | parentId⟩ := out
  · cases h
  simp only at h
  have hmade := createNode_follows .file s₁.graph parentId leaf (if mode = 0 then 0o644 else mode)
  have hinv₁ := hmade.inv (hparent.follows.inv hinv)
  change GraphInv (createFile s₁.graph parentId leaf (if mode = 0 then 0o644 else mode)).1 at hinv₁
  generalize createFile s₁.graph parentId leaf (if mode = 0 then 0o644 else mode) = out at hinv₁ h
  obtain ⟨g, _ | made⟩ := out
  · cases h
  simp only [logUnlessSession_graph] at h
  cases hres : resolvePathFrom g root path with
  | none => simp [hres] at h
  | some id' =>
    simp only [hres, Prod.mk.injEq, Except.ok.injEq] at h
    obtain ⟨rfl, rfl⟩ := h
    have hlive := isSome_iff_exists.mpr (resolve_live hinv₁ hpath hres)
    rw [← isSome_iff_exists]
    rw [applyPendingHint_isSome, tag_graph, Fs.stampCreate, modifyInode_isSome]
    simpa using hlive

theorem opOpen_opened (env : Env) (mountRoot : ℤ) (hnul : 0 ∉ path) (flags mode : UInt32)
    (hinv : GraphInv s.graph) :
    Opened env (backendRoot s.graph mountRoot) path s (opOpen env mountRoot path flags mode s) := by
  have hpos : 0 < backendRoot s.graph mountRoot := by
    unfold backendRoot
    split_ifs with h
    · exact h
    · exact hinv.rootId_pos
  unfold opOpen
  simp only
  generalize backendRoot s.graph mountRoot = root at hpos ⊢
  cases hpath : opensRoot path with
  | true =>
    rw [resolve_root hpos hpath]
    simp only
    unfold openHandle
    cases hfree : freeHandle s with
    | none => exact .refused .refl fun _ => hfree
    | some i => exact .root hpath hfree
  | false =>
    cases hres : resolvePathFrom s.graph root path with
    | some id =>
      obtain ⟨n, hn⟩ := resolve_live hinv hpath hres
      exact openHandle_opened hpath .refl hn
    | none =>
      simp only
      split_ifs
      · exact .refused .refl (by simp [hpath])
      have hsteps := openCreate_steps env root hnul mode s
      cases hcreate : openCreate env root path mode s with
      | mk s₁ out =>
        rw [hcreate] at hsteps
        cases out with
        | error rc => exact .refused hsteps (by simp [hpath])
        | ok id =>
          obtain ⟨n, hn⟩ := openCreate_live hinv hnul hpath hcreate
          exact openHandle_opened hpath hsteps hn

theorem close_frees_iff (ht : HandlesSound t) {h : Fin handlePool}
    (huse : (t.fs.handles h).inUse = true) (i : Fin maxInodes) :
    Frees t.fs.graph (.inodeClose (t.fs.handles h).inodeId) (toId i) ↔
      (∃ n, t.fs.graph.inodes i = some n ∧ n.orphan = true) ∧ t.fs.holders i = {h} := by
  constructor
  · intro hfrees
    generalize hf : toId i = f at hfrees
    generalize hid : (t.fs.handles h).inodeId = id at hfrees
    cases hfrees with
    | inodeClose _ n hn horphan hlast =>
      subst hf
      rw [Graph.inode_toId] at hn
      have hh : h ∈ t.fs.holders i := mem_holders.mpr ⟨huse, hid⟩
      have hone : (t.fs.holders i).card ≤ 1 := by rwa [← ht.count i n hn]
      refine ⟨⟨n, hn, horphan⟩, eq_singleton_iff_unique_mem.mpr ⟨hh, fun x hx => ?_⟩⟩
      exact card_le_one.mp hone x hx h hh
  · rintro ⟨⟨n, hn, horphan⟩, hholders⟩
    have hh : h ∈ t.fs.holders i := by rw [hholders, mem_singleton]
    have hlast : n.openCount ≤ 1 := by rw [ht.count i n hn, hholders, card_singleton]
    rw [(mem_holders.mp hh).2]
    exact .inodeClose _ n (by rwa [Graph.inode_toId]) horphan hlast

theorem close_holders {h : Fin handlePool} (huse : (s.handles h).inUse = true) {i : Fin maxInodes} :
    ((opClose h s).1.holders i).card =
      (s.holders i).card - if toId i = (s.handles h).inodeId then 1 else 0 := by
  have href : (opClose h s).1.ref = update s.ref h none := by
    funext k
    rw [opClose, if_pos huse]
    by_cases hk : k = h
    · subst hk
      simp [Fs.ref]
    · simp [Fs.ref, hk]
  have hsome : s.ref h = some (s.handles h).inodeId := by simp [Fs.ref, huse]
  rw [Fs.holders, href, RefCount.card_release hsome, Fs.holders]

theorem close_sound (ht : HandlesSound t) (hinv : GraphInv t.fs.graph) (h : Fin handlePool) :
    HandlesSound ⟨(opClose h t.fs).1, t.bornIn (opClose h t.fs).1, t.stamp⟩ := by
  by_cases huse : (t.fs.handles h).inUse = true
  swap
  · have hsame : (opClose h t.fs).1 = t.fs := by rw [opClose, if_neg huse]
    rw [hsame]
    exact ((Grows.refl t.fs).sound_iff ht hinv).mpr fun _ hi => hi.elim
  have hgraph : (opClose h t.fs).1.graph = inodeClose t.fs.graph (t.fs.handles h).inodeId := by
    rw [opClose, if_pos huse]
  have hhandles : ∀ k, ((opClose h t.fs).1.handles k).inUse = true →
      k ≠ h ∧ (opClose h t.fs).1.handles k = t.fs.handles k := by
    intro k hk
    rw [opClose, if_pos huse] at hk ⊢
    by_cases hkh : k = h
    · subst hkh
      simp at hk
    · exact ⟨hkh, update_of_ne hkh ..⟩
  refine (handlesSound_iff (hgraph ▸ hinv.inodeClose _)).mpr ⟨?_, ?_⟩
  · intro k hk
    obtain ⟨hkh, hsame⟩ := hhandles k hk
    simp only [hsame] at hk
    obtain ⟨i, hid, hlive, hstamp⟩ := ht.file k hk
    have hstay : ¬Frees t.fs.graph (.inodeClose (t.fs.handles h).inodeId) (toId i) := by
      intro hfrees
      have hmem : k ∈ t.fs.holders i := mem_holders.mpr ⟨hk, hid⟩
      rw [((close_frees_iff ht huse i).mp hfrees).2, mem_singleton] at hmem
      exact hkh hmem
    have hlive' : (opClose h t.fs).1.live i = true := by
      rw [Fs.live, hgraph, (inodeClose_inodes _ _ i).2 hstay, isSome_map]
      exact hlive
    refine ⟨i, by simp only [hsame, hid], hlive', ?_⟩
    simpa [Tracked.bornIn, hlive] using hstamp
  · intro i n' hn'
    simp only [close_holders huse]
    simp only [hgraph] at hn'
    have hstay : ¬Frees t.fs.graph (.inodeClose (t.fs.handles h).inodeId) (toId i) := by
      intro hfrees
      rw [(inodeClose_inodes _ _ i).1 hfrees] at hn'
      cases hn'
    rw [(inodeClose_inodes _ _ i).2 hstay] at hn'
    obtain ⟨n, hn, rfl⟩ := map_eq_some_iff.mp hn'
    rw [← ht.count i n hn]
    by_cases hid : (t.fs.handles h).inodeId = toId i
    · rw [if_pos hid, if_pos hid.symm]
    · rw [if_neg hid, if_neg (Ne.symm hid), Nat.sub_zero]

theorem rmdir_blocks : (rmdir g p name).1.blocks = g.blocks := by
  have hremoved := rmdir_removed g p name
  generalize rmdir g p name = out at hremoved
  obtain ⟨g', rc⟩ := out
  cases hremoved <;> rfl

theorem unlinkRoot_turn : Turn (fun i => ∃ pl, unlinkPlace env root path s = some pl ∧
      Frees s.graph (.unlink pl.1 pl.2) (toId i)) s (unlinkRoot env root path s).1 := by
  refine (unlinkRoot_drops env root path s).turn fun k b hb hstay => ?_
  rw [unlinkRoot_graph]
  rcases hplace : unlinkPlace env root path s with _ | pl
  · exact hb
  refine blocks_kept (.unlink pl.1 pl.2) s.dev rfl unlink_blocks hb fun hfrees => ?_
  obtain ⟨i, hi⟩ : ∃ i : Fin maxInodes, b.fileId = toId i := by
    generalize b.fileId = f at hfrees
    cases hfrees with
    | unlink _ _ j c => exact ⟨c, rfl⟩
  exact hstay i ⟨pl, hplace, hi ▸ hfrees⟩ hi

theorem rmdirRoot_turn :
    Turn (fun i => ∃ pl, rmdirPlace env root path s = some pl ∧ FreesDir s.graph pl.1 pl.2 i) s
      (rmdirRoot env root path s).1 := by
  refine (rmdirRoot_drops env root path s).turn fun k b hb _ => ?_
  rw [rmdirRoot_graph]
  cases rmdirPlace env root path s with
  | none => exact hb
  | some pl => exact (congrFun rmdir_blocks k).trans hb

theorem bornIn_self (t : Tracked) : t.bornIn t.fs = t.born := by
  funext i
  cases hlive : t.fs.live i <;> simp [Tracked.bornIn, hlive]

theorem bornAt_toId (born : Fin maxInodes → ℕ) (i : Fin maxInodes) :
    bornAt born (toId i) = born i := by
  rw [bornAt, ofId_toId]
  rfl

theorem live_iff {i : Fin maxInodes} :
    s.live i = true ↔ ∃ n, s.graph.inode (toId i) = some n := by
  rw [Fs.live, Graph.inode_toId, isSome_iff_exists]

theorem sound_open_iff (ht : HandlesSound t) (hinv : GraphInv t.fs.graph) {i : Fin handlePool}
    (hfree : freeHandle t.fs = some i) (path : List UInt8) (id : ℤ) :
    HandlesSound ⟨t.fs.openAt path id i, t.born, update t.stamp i
      (bornAt t.born ((t.fs.openAt path id i).handles i).inodeId)⟩ ↔
        ∃ n, t.fs.graph.inode id = some n := by
  have hid : ((t.fs.openAt path id i).handles i).inodeId = id := by
    simp only [Fs.openAt, update_self]
  rw [hid]
  refine (sound_take_iff ht hinv (freeHandle_some hfree)
    (x := ⟨true, id, path.take (handlePathBytes - 1)⟩) rfl _).trans ?_
  constructor
  · rintro ⟨k, rfl, hlive, -⟩
    exact live_iff.mp hlive
  · rintro ⟨n, hn⟩
    obtain ⟨k, rfl, -⟩ := Graph.inode_eq_some.mp hn
    exact ⟨k, rfl, live_iff.mpr ⟨n, hn⟩, (bornAt_toId t.born k).symm⟩

variable {mountRoot : ℤ} {flags : UInt32}

theorem opOpen_sound_iff (ht : HandlesSound t) (hinv : GraphInv t.fs.graph) {path : CStr} :
    HandlesSound (trackStep t (env, .open mountRoot path flags mode)).1 ↔
      HandleSafe t (env, .open mountRoot path flags mode) := by
  have hopened := opOpen_opened env mountRoot path.noNul flags mode hinv
  unfold trackStep HandleSafe
  simp only [HandleOp.toFs, fsStep]
  generalize opOpen env mountRoot path.bytes flags mode t.fs = out at hopened
  cases hopened with
  | refused hsteps hroot =>
    have hsound := (hsteps.grows.sound_iff ht (hsteps.follows.inv hinv)).mpr fun _ hi => hi.elim
    refine iff_of_true hsound fun hpath hfree => ?_
    rw [hroot hpath] at hfree
    cases hfree
  | @root i hpath hfree =>
    have hborn : t.bornIn (t.fs.openAt path.bytes (backendRoot t.fs.graph mountRoot) i) = t.born :=
      (openAt_bornIn t t.fs ..).trans (bornIn_self t)
    simp only [hborn]
    rw [sound_open_iff ht hinv hfree]
    simp [hpath, hfree]
  | @file s₁ i id n hpath hsteps hfree hlive =>
    have hborn : t.bornIn (s₁.openAt path.bytes id i) = t.bornIn s₁ := openAt_bornIn ..
    have hinv₁ := hsteps.follows.inv hinv
    have hsound := (hsteps.grows.sound_iff ht hinv₁).mpr fun _ hi => hi.elim
    simp only [hborn]
    refine iff_of_true ?_ (by simp [hpath])
    exact (sound_open_iff hsound hinv₁ hfree path.bytes id).mpr ⟨n, hlive⟩

theorem opDupHandle_sound_iff (ht : HandlesSound t) (hinv : GraphInv t.fs.graph)
    (h : Fin handlePool) : HandlesSound (trackStep t (env, .dupHandle h)).1 ↔
      HandleSafe t (env, .dupHandle h) := by
  have hsame : HandlesSound ⟨t.fs, t.bornIn t.fs, t.stamp⟩ := by rwa [bornIn_self]
  unfold trackStep HandleSafe
  simp only [HandleOp.toFs, fsStep]
  unfold opDupHandle
  by_cases hid : (t.fs.handles h).inodeId ≤ 0
  · rw [if_pos hid]
    exact iff_of_true hsame fun hpos => absurd hpos (by omega)
  rw [if_neg hid]
  rcases hfree : freeHandle t.fs with _ | i
  · exact iff_of_true hsame (by simp)
  have hborn : t.bornIn (t.fs.take i { t.fs.handles h with inUse := true }) = t.born :=
    (take_bornIn ..).trans (bornIn_self t)
  have htake := sound_take_iff ht hinv (freeHandle_some hfree)
    (x := { t.fs.handles h with inUse := true }) rfl (t.stamp h)
  rw [← hborn] at htake
  refine htake.trans ?_
  rw [hborn]
  have hpos : 0 < (t.fs.handles h).inodeId := by omega
  simp [hpos, Tracked.SameFile]

theorem trackStep_inv (hinv : GraphInv t.fs.graph) (call : Env × HandleOp) :
    GraphInv (trackStep t call).1.fs.graph := by
  refine (fsStep_follows t.fs (call.1, call.2.toFs) fun session => ?_).1.inv hinv
  cases call.2 <;> simp [HandleOp.toFs]

theorem trackStep_sound_iff (ht : HandlesSound t) (hinv : GraphInv t.fs.graph)
    (call : Env × HandleOp) : HandlesSound (trackStep t call).1 ↔ HandleSafe t call := by
  have hnext := trackStep_inv hinv call
  obtain ⟨env, op⟩ := call
  cases op with
  | «open» mountRoot path flags mode => exact opOpen_sound_iff ht hinv
  | dupHandle h => exact opDupHandle_sound_iff ht hinv h
  | close h => exact iff_of_true (close_sound ht hinv h) trivial
  | unlink mountRoot path =>
    refine iff_of_true (((unlinkRoot_turn ..).sound_iff ht hnext).mpr ?_) trivial
    rintro i ⟨pl, -, hfrees⟩
    -- an unlink frees only a file that is not open
    generalize hf : toId i = f at hfrees
    cases hfrees with
    | unlink _ _ j c n _ _ hn _ _ hclosed =>
      obtain rfl := toId_injective hf
      rw [← card_eq_zero, ← ht.count i n hn, hclosed]
  | rmdir mountRoot path =>
    refine ((rmdirRoot_turn ..).sound_iff ht hnext).trans (forall_congr' fun i => ?_)
    rw [freesInode_rmdir]

theorem blocks_gone (h : GraphInv g) {i : Fin maxInodes} (hi : g.inodes i = none)
    {k : Fin maxBlocks} {b : Block} (hb : g.blocks k = some b) : b.fileId ≠ toId i := by
  intro hfile
  obtain ⟨n, hn, -⟩ := h.block_file k b hb
  rw [hfile, Graph.inode_toId, hi] at hn
  cases hn

theorem Turn.lastClose (h : Turn freed s s') (hs' : GraphInv s'.graph) (hop : ∀ k, op ≠ .close k)
    (hnamed : ∀ i n, s.graph.inodes i = some n → n.orphan = true → ¬freed i) :
    LastClose op s s' := by
  refine ⟨?_, fun i hi k b hb => blocks_gone hs' hi hb, ?_⟩
  · intro i n hn horphan
    obtain ⟨n', hn', -⟩ := h.stays i n hn (hnamed i n hn horphan)
    refine iff_of_false (by simp [hn']) ?_
    rintro ⟨k, rfl, -⟩
    exact hop k rfl
  · intro i k b hi hb hfile
    refine h.blocks k b hb fun j hj hfile' => ?_
    obtain rfl := toId_injective (hfile.symm.trans hfile')
    exact hi (h.gone i hj)

theorem LastClose.take (h : LastClose op s s') (i : Fin handlePool) (x : Handle) :
    LastClose op s (s'.take i x) := by
  have hnone : ∀ k, (s'.take i x).graph.inodes k = none ↔ s'.graph.inodes k = none := by
    intro k
    rw [Fs.take, Sotfs.inodeOpen, modifyInode_inodes, map_eq_none_iff]
  have hblocks : (s'.take i x).graph.blocks = s'.graph.blocks := modifyInode_blocks ..
  refine ⟨?_, ?_, ?_⟩
  · intro k n hn horphan
    rw [hnone]
    exact h.freed k n hn horphan
  · intro k hk
    rw [hblocks]
    exact h.gone k ((hnone k).mp hk)
  · intro k j b hk
    rw [hblocks]
    exact h.kept k j b fun hk' => hk ((hnone k).mpr hk')

theorem close_lastClose (ht : HandlesSound t) (hinv : GraphInv t.fs.graph) (h : Fin handlePool) :
    LastClose (.close h) t.fs (opClose h t.fs).1 := by
  by_cases huse : (t.fs.handles h).inUse = true
  · have hgraph : (opClose h t.fs).1.graph = inodeClose t.fs.graph (t.fs.handles h).inodeId := by
      rw [opClose, if_pos huse]
    have hclose := fun i => inodeClose_inodes t.fs.graph (t.fs.handles h).inodeId i
    refine ⟨?_, ?_, ?_⟩
    · intro i n hn horphan
      have hfrees := close_frees_iff ht huse i
      have hheld : (∃ k, HandleOp.close h = .close k ∧ t.fs.holders i = {k}) ↔
          t.fs.holders i = {h} := by simp
      rw [hgraph, hheld]
      refine ⟨fun hnone => ?_, fun hone => (hclose i).1 (hfrees.mpr ⟨⟨n, hn, horphan⟩, hone⟩)⟩
      by_contra hmore
      rw [(hclose i).2 fun hf => hmore (hfrees.mp hf).2, hn] at hnone
      cases hnone
    · intro i hi k b hb
      rw [hgraph] at hi hb
      exact blocks_gone (hinv.inodeClose _) hi hb
    · intro i k b hi hb hfile
      rw [hgraph] at hi ⊢
      refine blocks_kept (.inodeClose (t.fs.handles h).inodeId) t.fs.dev rfl inodeClose_blocks hb ?_
      rw [hfile]
      exact fun hfrees => hi ((hclose i).1 hfrees)
  · have hsame : (opClose h t.fs).1 = t.fs := by rw [opClose, if_neg huse]
    rw [hsame]
    refine ⟨fun i n hn _ => ?_, fun i hi k b hb => blocks_gone hinv hi hb, fun _ _ _ _ hb _ => hb⟩
    refine iff_of_false (by simp [hn]) ?_
    rintro ⟨k, hk, hheld⟩
    obtain rfl := HandleOp.close.inj hk
    have hmem : h ∈ t.fs.holders i := by rw [hheld, mem_singleton]
    exact huse (mem_holders.mp hmem).1

theorem fsStep_lastClose (ht : HandlesSound t) (hinv : GraphInv t.fs.graph) (call : Env × HandleOp) :
    LastClose call.2 t.fs (fsStep t.fs (call.1, call.2.toFs)).1 := by
  have hnext := trackStep_inv hinv call
  have hsteps : ∀ op env {s}, (∀ k, op ≠ HandleOp.close k) → NodeSteps env t.fs s →
      LastClose op t.fs s := by
    intro op env s hop h
    exact h.grows.lastClose (h.follows.inv hinv) hop fun _ _ _ _ => id
  obtain ⟨env, op⟩ := call
  cases op with
  | «open» mountRoot path flags mode =>
    have hopened := opOpen_opened env mountRoot path.noNul flags mode hinv
    simp only [HandleOp.toFs, fsStep]
    generalize opOpen env mountRoot path.bytes flags mode t.fs = out at hopened
    cases hopened with
    | refused h hroot => exact hsteps _ env (by simp) h
    | @root i hpath hfree =>
      have hself := hsteps (.open mountRoot path flags mode) env (by simp) .refl
      exact hself.take i ⟨true, _, _⟩
    | @file s₁ i id n hpath h hfree hlive =>
      have hmade := hsteps (.open mountRoot path flags mode) env (by simp) h
      exact hmade.take i ⟨true, id, _⟩
  | dupHandle h =>
    simp only [HandleOp.toFs, fsStep]
    have hself := hsteps (.dupHandle h) env (by simp) .refl
    unfold opDupHandle
    split_ifs
    · exact hself
    cases freeHandle t.fs with
    | none => exact hself
    | some i => exact hself.take i { t.fs.handles h with inUse := true }
  | close h => exact close_lastClose ht hinv h
  | unlink mountRoot path =>
    refine (unlinkRoot_turn ..).lastClose hnext (by simp) ?_
    rintro i n hn horphan ⟨pl, -, hfrees⟩
    -- what has no name is not what a name leads to
    generalize hf : toId i = f at hfrees
    cases hfrees with
    | unlink _ _ j c m _ hlookup =>
      obtain rfl := toId_injective hf
      have hfree := (hinv.orphan_free (toId i) n (by rwa [Graph.inode_toId]) horphan).1
      exact hfree j _ (lookupChild_ok hlookup).2.2 rfl
  | rmdir mountRoot path =>
    refine (rmdirRoot_turn ..).lastClose hnext (by simp) ?_
    rintro i n hn horphan ⟨pl, -, -, -, hdir, -⟩
    rw [hn, map_some, some.injEq] at hdir
    exact hinv.orphan_kind (toId i) n (by rwa [Graph.inode_toId]) horphan hdir

theorem fileWrite_idle (hg : Idle g) {d : Blkdev} {id : ℤ} {off : ℕ} {buf : List UInt8} :
    Idle (fileWrite g d id off buf).1 :=
  GraphDrops.idle (fileWrite_quiet rfl) hg

theorem stampCreate_idle (hs : Idle s.graph) (env : Env) (id : ℤ) :
    Idle (s.stampCreate env id).graph := by
  have hdrops : GraphDrops (fun _ => False) s.graph (s.stampCreate env id).graph :=
    graphDrops_modifyInode fun _ => ⟨rfl, rfl⟩
  exact hdrops.idle hs

theorem applyRecord_idle {s : Graph × Blkdev} (hs : Idle s.1) {r : Record} :
    Idle (applyRecord s r).1.1 := by
  unfold applyRecord
  cases r.kind with
  | createFile => exact createNode_idle hs
  | mkdir => exact createNode_idle hs
  | unlink => exact (unlink_drops ..).idle hs
  | rmdir => exact (rmdir_drops ..).idle hs
  | rename => exact (graphDrops_same (rename_inodes ..)).idle hs
  | write =>
    simp only
    split_ifs
    · exact fileWrite_idle hs
    · split
      · exact hs
      · exact fileWrite_idle hs
  | install =>
    simp only
    generalize (if (fieldName r.name).head? = some slash then (fieldName r.name).tail
      else fieldName r.name) = leaf
    have hcreate : Idle (createFile s.1 s.1.rootId leaf 0o644).1 := createNode_idle hs
    split
    · exact hcreate
    · exact fileWrite_idle hcreate
  | none => exact hs

theorem install_idle {content : List UInt8} (hs : Idle s.graph) :
    Idle (install env path content s).1.graph ∧
      (install env path content s).1.handles = s.handles := by
  obtain ⟨g, d, hgd, hfs | ⟨id, record, hfs⟩⟩ := install_rule (J := fun g _ => Idle g) env path content
    hs (fun _ _ _ _ h => (unlink_drops ..).idle h) (fun _ _ _ _ h => createNode_idle h)
    fun _ _ _ _ h => fileWrite_idle h
  · rw [hfs]
    exact ⟨hgd, rfl⟩
  · rw [hfs]
    exact ⟨stampCreate_idle (s := { s with graph := g, dev := d }) hgd env id, rfl⟩

structure Booted where
  fs : Fs
  graph : GraphInv fs.graph
  shut : ∀ h, (fs.handles h).inUse = false
  idle : Idle fs.graph

def Booted.lazyInit (st : Storage) (now : ℤ) : Booted where
  fs := Lucas.lazyInit st now
  graph := (lazyInit_reapInv st now).graph
  shut := by
    intro h
    unfold Lucas.lazyInit
    simp only
    split <;> rfl
  idle := by
    have hfresh : Idle (freshFs st now).graph := by
      unfold freshFs
      refine stampCreate_idle ?_ _ _
      intro i n hn
      rw [← Graph.inode_toId] at hn
      rw [(graphInit_inode hn).2]
      rfl
    have hinit : (freshFs st now).wal.initialised = true := rfl
    unfold Lucas.lazyInit walReplayFiles replayWith
    simp only [hinit, if_true]
    exact scanLoop_invariant (P := fun s : Graph × Blkdev => Idle s.1)
      (fun s r h => applyRecord_idle h) _ _ _ hfresh

def Booted.install (env : Env) (path content : List UInt8) (b : Booted) : Booted where
  fs := (Lucas.install env path content b.fs).1
  graph := (install_follows env path content b.fs).1.inv b.graph
  shut := fun h => by rw [(install_idle b.idle).2, b.shut]
  idle := (install_idle b.idle).1

def Booted.tracked (b : Booted) : Tracked := ⟨b.fs, fun _ => 0, fun _ => 0⟩

theorem Booted.sound (b : Booted) : HandlesSound b.tracked := by
  refine (handlesSound_iff b.graph).mpr ⟨fun h huse => ?_, fun i n hn => ?_⟩
  · cases (b.shut h).symm.trans huse
  · have hnone : b.fs.holders i = ∅ := by
      rw [eq_empty_iff_forall_notMem]
      intro h hh
      cases (b.shut h).symm.trans (mem_holders.mp hh).1
    exact (b.idle i n hn).trans (by rw [Booted.tracked, hnone, card_empty])

/-- Handles are on their files, open counts right and unnamed files freed by their last close in
every state of a run exactly if every call of it is safe. -/
theorem handles_sound_iff (b : Booted) (calls : List (Env × HandleOp)) :
    ((∀ k, HandlesSound (Machine.exec trackStep b.tracked (calls.take k))) ∧
      ∀ e ∈ Machine.trace trackStep b.tracked calls,
        LastClose e.input.2 e.pre.fs (trackStep e.pre e.input).1.fs) ↔
      ∀ e ∈ Machine.trace trackStep b.tracked calls, HandleSafe e.pre e.input := by
  have hrun := Machine.always_iff trackStep
    (P := fun t => HandlesSound t ∧ GraphInv t.fs.graph) (Q := fun e => HandleSafe e.pre e.input)
    (fun t call ht => by
      rw [trackStep_sound_iff ht.1 ht.2]
      exact and_iff_left (trackStep_inv ht.2 call))
    ⟨b.sound, b.graph⟩ calls
  constructor
  · rintro ⟨hsound, -⟩
    refine hrun.mp fun k => ⟨hsound k, ?_⟩
    exact Machine.exec_invariant trackStep (P := fun t => GraphInv t.fs.graph)
      (fun t call ht => trackStep_inv ht call) b.graph _
  · intro hsafe
    have hall := hrun.mpr hsafe
    refine ⟨fun k => (hall k).1, fun e he => ?_⟩
    obtain ⟨k, hk⟩ := List.mem_iff_getElem?.mp he
    obtain ⟨call, -, rfl⟩ := Machine.trace_getElem trackStep hk
    exact fsStep_lastClose (hall k).1 (hall k).2 call

theorem exec_tracked (t : Tracked) (calls : List (Env × HandleOp)) :
    (Machine.exec trackStep t calls).fs =
      Machine.exec fsStep t.fs (calls.map fun call => (call.1, call.2.toFs)) := by
  induction calls generalizing t with
  | nil => rfl
  | cons call calls ih =>
    rw [Machine.exec, ih]
    rfl

def handle0 : Fin handlePool := ⟨0, handlePool_pos⟩

def staleDup : List (Env × HandleOp) :=
  [(bootEnv, .open 0 pathA oCreat 0), (bootEnv, .close handle0), (bootEnv, .unlink 0 pathA),
    (bootEnv, .dupHandle handle0)]

theorem dup_of_freed_inode :
    ¬HandlesSound (Machine.exec trackStep (Booted.lazyInit blankImage 0).tracked staleDup) := by
  intro hsound
  let s := Machine.exec fsStep (freshFs blankImage 0)
    (staleDup.map fun call => (call.1, call.2.toFs))
  have hfs : (Machine.exec trackStep (Booted.lazyInit blankImage 0).tracked staleDup).fs = s := by
    rw [exec_tracked]
    exact congrArg (Machine.exec fsStep · _) boot_eq
  have huse : (s.handles handle0).inUse = true := by decide +kernel
  have hid : (s.handles handle0).inodeId = 2 := by decide +kernel
  have hdead : s.live 1 = false := by decide +kernel
  obtain ⟨i, hi, hlive, -⟩ := hsound.file handle0 (by rw [hfs]; exact huse)
  rw [hfs] at hi hlive
  obtain rfl : i = 1 := by
    apply Slots.toId_injective
    exact (hi.symm.trans hid).trans (by decide)
  cases hdead.symm.trans hlive

end SotOs.Lucas
