import SotOs.Lucas.Owners

/-! What the reap of a session leaves of the graph. It frees the session's inodes one by one and
does not follow the tree, so it is sound where everything in a directory of the session is the
session's. -/

namespace SotOs.Sotfs

structure Follows (g g' : Graph) : Prop where
  inv : GraphInv g → GraphInv g'
  rootId : g'.rootId = g.rootId

theorem Follows.refl (g : Graph) : Follows g g := ⟨id, rfl⟩

theorem Follows.trans {g g' g'' : Graph} (h : Follows g g') (h' : Follows g' g'') : Follows g g'' :=
  ⟨fun hg => h'.inv (h.inv hg), h'.rootId.trans h.rootId⟩

theorem createNode_follows (kind : Kind) (g : Graph) (p : ℤ) (name : Name) (mode : UInt32) :
    Follows g (createNode kind g p name mode).1 :=
  ⟨(createNode_created kind g p name mode).inv, (createNode_created kind g p name mode).rootId⟩

theorem unlink_follows (g : Graph) (p : ℤ) (name : Name) : Follows g (unlink g p name).1 :=
  ⟨(unlink_unlinked g p name).inv, (unlink_unlinked g p name).rootId⟩

theorem rmdir_follows (g : Graph) (p : ℤ) (name : Name) : Follows g (rmdir g p name).1 :=
  ⟨(rmdir_removed g p name).inv, (rmdir_removed g p name).rootId⟩

theorem rename_follows (g : Graph) (pSrc : ℤ) (old : Name) (pDst : ℤ) (new : Name) :
    Follows g (rename g pSrc old pDst new).1 :=
  ⟨(rename_renamed g pSrc old pDst new).inv, (rename_renamed g pSrc old pDst new).rootId⟩

theorem fileWrite_follows (g : Graph) (d : Blkdev) (id : ℤ) (off : ℕ) (buf : List UInt8) :
    Follows g (fileWrite g d id off buf).1 :=
  ⟨(fileWrite_written g d id off buf).inv, (fileWrite_written g d id off buf).rootId⟩

variable {g : Graph}

theorem inodeOpen_follows {id : ℤ} : Follows g (inodeOpen g id) :=
  ⟨fun h => h.inodeOpen id, modifyInode_rootId ..⟩

theorem inodeClose_follows {id : ℤ} : Follows g (inodeClose g id) :=
  ⟨fun h => h.inodeClose id, inodeClose_rootId⟩

theorem modifyInode_follows {id : ℤ} {f : Inode → Inode}
    (hf : ∀ n, (f n).core = n.core ∧ (f n).openCount = n.openCount) :
    Follows g (g.modifyInode id f) :=
  ⟨fun h => h.modifyInode id hf, modifyInode_rootId ..⟩

theorem applyRecord_follows {s : Graph × Blkdev} {r : Record} :
    Follows s.1 (applyRecord s r).1.1 := by
  unfold applyRecord
  cases r.kind with
  | createFile => exact createNode_follows ..
  | mkdir => exact createNode_follows ..
  | unlink => exact unlink_follows ..
  | rmdir => exact rmdir_follows ..
  | rename => exact rename_follows ..
  | write =>
    simp only
    split_ifs
    · exact fileWrite_follows ..
    · split
      · exact .refl s.1
      · exact fileWrite_follows ..
  | install =>
    simp only
    generalize (if (fieldName r.name).head? = some slash then (fieldName r.name).tail
      else fieldName r.name) = leaf
    have hcreate : Follows s.1 (createFile s.1 s.1.rootId leaf 0o644).1 := createNode_follows ..
    split
    · exact hcreate
    · exact hcreate.trans (fileWrite_follows ..)
  | none => exact .refl s.1

end SotOs.Sotfs

namespace SotOs.Lucas
open Sotfs

variable {env : Env}

variable {s : Fs}

theorem stampCreate_follows {id : ℤ} : Follows s.graph (s.stampCreate env id).graph :=
  modifyInode_follows fun _ => ⟨rfl, rfl⟩

theorem stampWrite_follows {id : ℤ} : Follows s.graph (s.stampWrite env id).graph :=
  modifyInode_follows fun _ => ⟨rfl, rfl⟩

theorem applyPendingHint_follows {id : ℤ} :
    Follows s.graph (s.applyPendingHint env id).graph := by
  unfold Fs.applyPendingHint
  split_ifs
  · exact modifyInode_follows fun _ => ⟨rfl, rfl⟩
  · exact .refl s.graph

variable {env : Env} {s' : Fs} {freed : ℤ → Prop} {d : Blkdev} {mine : Block → Prop} {g : Graph}

theorem NodeStep.follows (h : NodeStep env s s') : Follows s.graph s'.graph := by
  cases h with
  | made kind p name mode g' id hkind hnul hcreate =>
    have hmade := createNode_follows kind s.graph p name mode
    rw [hcreate] at hmade
    rw [addNode_graph]
    exact hmade.trans (modifyInode_follows fun _ => ⟨rfl, rfl⟩)
  | tried kind p name mode g' e hcreate =>
    have htried := createNode_follows kind s.graph p name mode
    rw [hcreate] at htried
    exact htried
  | hinted id => exact applyPendingHint_follows

theorem NodeSteps.follows (h : NodeSteps env s s') : Follows s.graph s'.graph := by
  induction h with
  | refl => exact .refl s.graph
  | tail _ hstep ih => exact ih.trans hstep.follows

theorem OpenDone.follows {path : List UInt8} {s : Fs} (hd : OpenDone env path s s') :
    Follows s.graph s'.graph := by
  cases hd with
  | steps h => exact h.follows
  | handle h id i => exact h.follows.trans (inodeOpen_follows ..)

theorem removedAt_follows {rule : Graph → ℤ → Name → Graph × Except Err Unit}
    (hrule : ∀ g p name, Follows g (rule g p name).1) (g : Graph) (place : Option (ℤ × Name)) :
    Follows g (removedAt rule g place) := by
  cases place with
  | none => exact .refl g
  | some pl => exact hrule g pl.1 pl.2

theorem RenameDone.follows {root : ℤ} {oldpath newpath : List UInt8} {s : Fs}
    (hd : RenameDone env root oldpath newpath s s') : Follows s.graph s'.graph := by
  have hrename : ∀ {g g' : Graph} {pSrc sleaf pDst dleaf rc},
      rename g pSrc sleaf pDst dleaf = (g', rc) → Follows g g' := by
    intro g g' pSrc sleaf pDst dleaf rc h
    have := rename_follows g pSrc sleaf pDst dleaf
    rwa [h] at this
  have hcleared : ∀ {g' : Graph} {p leaf rc}, unlink s.graph p leaf = (g', rc) →
      Follows s.graph g' := by
    intro g' p leaf rc h
    have := unlink_follows s.graph p leaf
    rwa [h] at this
  cases hd with
  | same => exact .refl _
  | moved hpaths hfree h => exact hrename h
  | lost hpaths hunlink h => exact hcleared hunlink
  | replaced hpaths hunlink h howner => exact (hcleared hunlink).trans (hrename h)

theorem WriteDone.follows {h : Fin handlePool} {buf : List UInt8} {cursor : ℤ} {s : Fs}
    (hd : WriteDone env h buf cursor s s') : Follows s.graph s'.graph := by
  have hwrite : ∀ {g' : Graph} {d' id off data rc},
      fileWrite s.graph s.dev id off data = (g', d', rc) → Follows s.graph g' := by
    intro g' d' id off data rc h
    have := fileWrite_follows s.graph s.dev id off data
    rwa [h] at this
  cases hd with
  | aside => exact .refl s.graph
  | @contained i off sessions howner hiso hmine g' d' rc hw s' hs' =>
    have hfile : Follows s.graph ({ s with sessions, graph := g', dev := d' } : Fs).graph := hwrite hw
    rcases hs' with rfl | rfl
    · exact hfile
    · exact hfile.trans (stampWrite_follows ..)
  | refused i hslot hiso hw => exact hwrite hw
  | @logged i hslot hiso g' d' n hw =>
    refine Follows.trans ?_ (applyPendingHint_follows ..)
    refine Follows.trans ?_ (stampWrite_follows ..)
    exact hwrite hw

theorem install_follows (env : Env) (path content : List UInt8) (s : Fs) :
    Follows s.graph (install env path content s).1.graph ∧
      (install env path content s).1.sessions = s.sessions := by
  obtain ⟨g, d, hgd, hfs | ⟨id, record, hfs⟩⟩ := install_rule (s := s) (J := fun g _ =>
    Follows s.graph g) env path content (.refl s.graph) (fun _ _ _ _ h => h.trans (unlink_follows ..))
    (fun _ _ _ _ h => h.trans (createNode_follows ..)) fun _ _ _ _ h => h.trans (fileWrite_follows ..)
  · rw [hfs]
    exact ⟨hgd, rfl⟩
  · have hfile : Follows s.graph ({ s with graph := g, dev := d } : Fs).graph := hgd
    rw [hfs]
    exact ⟨hfile.trans (stampCreate_follows ..), rfl⟩

theorem fsStep_follows (s : Fs) (call : Env × FsOp) (hcall : ∀ session, call.2 ≠ .reap session) :
    Follows s.graph (fsStep s call).1.graph ∧
      ∀ i, s.live i = true → (fsStep s call).1.sessions.owner i = s.sessions.owner i := by
  have hgrown : ∀ {session s'}, Grown session s s' → ∀ i, s.live i = true →
      s'.sessions.owner i = s.sessions.owner i := by
    intro session s' h i hi
    rw [h.owner, if_neg]
    rw [hi]
    simp
  obtain ⟨env, op⟩ := call
  cases op with
  | «open» mountRoot path flags mode =>
    have hdone := opOpen_done env mountRoot path.noNul flags mode s
    exact ⟨hdone.follows, hgrown hdone.grown⟩
  | close h =>
    refine ⟨?_, fun i _ => congrFun (opClose_owner h s) i⟩
    simp only [fsStep, opClose]
    split_ifs
    · exact inodeClose_follows ..
    · exact .refl s.graph
  | dupHandle h =>
    refine ⟨?_, hgrown (opDupHandle_grown h s 0)⟩
    simp only [fsStep, opDupHandle]
    split
    · exact .refl s.graph
    split
    · exact .refl s.graph
    · exact inodeOpen_follows ..
  | read h count cursor =>
    obtain ⟨dev, hdev⟩ := opRead_dev env h count cursor s
    simp only [fsStep, hdev]
    exact ⟨.refl s.graph, fun _ _ => trivial⟩
  | write h buf cursor =>
    have hdone := opWrite_done env h buf cursor s
    exact ⟨hdone.follows, fun i _ => congrFun hdone.quiet.owner i⟩
  | truncate h newlen =>
    obtain ⟨cow, hcow⟩ := opTruncate_done env h newlen s
    simp only [fsStep, hcow]
    exact ⟨.refl s.graph, fun _ _ => trivial⟩
  | mkdir mountRoot path mode =>
    have hsteps := mkdirRoot_steps env (backendRoot s.graph mountRoot) path.noNul mode s
    exact ⟨hsteps.follows, hgrown hsteps.grown⟩
  | unlink mountRoot path =>
    have hdrops := unlinkRoot_drops env (backendRoot s.graph mountRoot) path.bytes s
    refine ⟨?_, fun i _ => congrFun hdrops.owner i⟩
    simp only [fsStep, unlinkRoot_graph]
    exact removedAt_follows unlink_follows ..
  | rmdir mountRoot path =>
    have hdrops := rmdirRoot_drops env (backendRoot s.graph mountRoot) path.bytes s
    refine ⟨?_, fun i _ => congrFun hdrops.owner i⟩
    simp only [fsStep, rmdirRoot_graph]
    exact removedAt_follows rmdir_follows ..
  | rename mountRoot oldpath newpath =>
    have hdrops := renameRoot_drops env (backendRoot s.graph mountRoot) oldpath.bytes newpath.bytes s
    exact ⟨(renameRoot_done env _ oldpath.bytes newpath.bytes s).follows,
      fun i _ => congrFun hdrops.owner i⟩
  | install path content =>
    obtain ⟨hfollows, hsessions⟩ := install_follows env path.bytes content s
    exact ⟨hfollows, fun i _ => congrArg (fun t : Sessions => t.owner i) hsessions⟩
  | reap session => exact absurd rfl (hcall session)

structure ReapInv (s : Fs) : Prop where
  graph : GraphInv s.graph
  root : sessionOwner s.sessions s.graph.rootId = 0

theorem ReapInv.root_slot (h : ReapInv s) :
    ∃ i, s.graph.rootId = Slots.toId i ∧ s.live i = true ∧ s.sessions.owner i = 0 := by
  obtain ⟨n, hn, -⟩ := h.graph.root_dir
  obtain ⟨i, hi, hlive⟩ := Graph.inode_eq_some.mp hn
  have hroot := h.root
  rw [hi, sessionOwner_toId] at hroot
  exact ⟨i, hi, by rw [Fs.live, hlive]; rfl, hroot⟩

theorem ReapInv.step (h : ReapInv s) (call : Env × FsOp)
    (hcall : ∀ session, call.2 ≠ .reap session) : ReapInv (fsStep s call).1 := by
  obtain ⟨hfollows, howner⟩ := fsStep_follows s call hcall
  obtain ⟨i, hi, hlive, hroot⟩ := h.root_slot
  refine ⟨hfollows.inv h.graph, ?_⟩
  rw [hfollows.rootId, hi, sessionOwner_toId, howner i hlive, hroot]

theorem lazyInit_reapInv (st : Storage) (now : ℤ) : ReapInv (lazyInit st now) := by
  have hfresh : GraphInv (freshFs st now).graph := by
    unfold freshFs
    exact (stampCreate_follows ..).inv graphInv_init
  have hsessions : (lazyInit st now).sessions = sessionInit := by
    unfold lazyInit
    simp only
    split <;> rfl
  refine ⟨?_, ?_⟩
  · have hinit : (freshFs st now).wal.initialised = true := rfl
    unfold lazyInit walReplayFiles replayWith
    simp only [hinit, if_true]
    exact scanLoop_invariant (P := fun s : Graph × Blkdev => GraphInv s.1)
      (fun s r h => applyRecord_follows.inv h) _ _ _ hfresh
  · rw [hsessions, sessionOwner]
    split <;> rfl

structure DiskKept (freed : ℤ → Prop) (d d' : Blkdev) : Prop where
  st : d'.st = d.st
  bitmap : ∀ n : ℕ, ¬ freed (n + 1) → d'.bitmap n = d.bitmap n
  cache : ∀ i, ¬ freed (d.cache i).id → d'.cache i = d.cache i

theorem DiskKept.refl (freed : ℤ → Prop) (d : Blkdev) : DiskKept freed d d :=
  ⟨rfl, fun _ _ => rfl, fun _ _ => rfl⟩

theorem DiskKept.trans {d' d'' : Blkdev} (h : DiskKept freed d d') (h' : DiskKept freed d' d'') :
    DiskKept freed d d'' := by
  refine ⟨h'.st.trans h.st, fun n hn => (h'.bitmap n hn).trans (h.bitmap n hn), fun i hi => ?_⟩
  have hcache := h.cache i hi
  rw [← hcache] at hi ⊢
  exact h'.cache i hi

theorem blkFree_kept {blk : ℤ} (hfreed : freed blk) : DiskKept freed d (blkFree d blk) := by
  unfold blkFree
  split_ifs with hv hbit
  · exact .refl freed d
  · exact .refl freed d
  have hpos : 0 < blk := (validBlk_iff.mp (by simpa using hv)).1
  have hbitmap : ∀ n : ℕ, ¬ freed (n + 1) →
      Function.update d.bitmap (blk.toNat - 1) false n = d.bitmap n := by
    intro n hn
    refine Function.update_of_ne ?_ ..
    rintro rfl
    refine hn ?_
    rwa [show ((blk.toNat - 1 : ℕ) : ℤ) + 1 = blk by omega]
  simp only
  split
  · exact ⟨rfl, hbitmap, fun _ _ => rfl⟩
  · next i hfind =>
    refine ⟨rfl, hbitmap, fun j hj => ?_⟩
    refine Function.update_of_ne ?_ ..
    rintro rfl
    have hid : (d.cache j).id = blk := by simpa using Slots.first_some hfind
    exact hj (hid ▸ hfreed)

structure Reaping (mine : Block → Prop) (g : Graph) (d : Blkdev) (s : Graph × Blkdev) : Prop where
  blocks : ∀ k b, s.1.blocks k = some b → g.blocks k = some b
  disk : DiskKept (fun blk => ∃ k b, g.blocks k = some b ∧ mine b ∧ b.diskBlk = blk) d s.2

theorem Reaping.reapBlock {s : Graph × Blkdev} {id : ℤ} (h : Reaping mine g d s)
    (hid : ∀ b : Block, b.fileId = id → mine b) (i : Fin maxBlocks) :
    Reaping mine g d (reapBlock id s i) := by
  unfold Lucas.reapBlock
  rcases hb : s.1.blocks i with _ | b
  · exact h
  simp only
  split_ifs with hmine
  · refine ⟨fun k b' hk => ?_, h.disk.trans (blkFree_kept ⟨i, b, h.blocks i b hb, ?_, rfl⟩)⟩
    · by_cases hki : k = i
      · subst hki
        simp [Graph.setBlock] at hk
      · have hsame : (s.1.setBlock i none).blocks k = s.1.blocks k := Function.update_of_ne hki ..
        exact h.blocks k b' (hsame ▸ hk)
    · exact hid b hmine
  · exact h

theorem Reaping.foldl {α : Type} {f : Graph × Blkdev → α → Graph × Blkdev} {s : Graph × Blkdev}
    (h : Reaping mine g d s) (l : List α)
    (hf : ∀ t, ∀ a ∈ l, Reaping mine g d t → Reaping mine g d (f t a)) :
    Reaping mine g d (l.foldl f s) :=
  List.foldlRecOn (motive := Reaping mine g d) l f h fun t ht a ha => hf t a ha ht

theorem Reaping.reapEdges {s : Graph × Blkdev} (h : Reaping mine g d s) (inode : ℤ) :
    Reaping mine g d (s.map (Lucas.reapEdges inode) id) := by
  have hblocks : (Lucas.reapEdges inode s.1).blocks = s.1.blocks := freeInode_blocks ..
  refine ⟨fun k b hk => ?_, h.disk⟩
  rw [Prod.map_fst, hblocks] at hk
  exact h.blocks k b hk

theorem Reaping.reapInode {s : Graph × Blkdev} (h : Reaping mine g d s) {i : Fin maxInodes}
    (hi : ∀ b : Block, b.fileId = Slots.toId i → mine b) : Reaping mine g d (reapInode s i) := by
  have hblocks := h.foldl (f := Lucas.reapBlock (Slots.toId i)) (List.finRange maxBlocks)
    fun t k _ ht => ht.reapBlock hi k
  have hedges := hblocks.reapEdges (Slots.toId i)
  rwa [← Lucas.reapInode] at hedges

def SessionBlk (s : Fs) (session : UInt32) (blk : ℤ) : Prop :=
  ∃ k b, s.graph.blocks k = some b ∧ sessionOwner s.sessions b.fileId = session ∧ b.diskBlk = blk

theorem sessionReap_disk {session : UInt32} (hsession : session ≠ 0) :
    DiskKept (SessionBlk s session) s.dev (sessionReap session s).dev := by
  have hall (owned : List (Fin maxInodes)) (howned : ∀ i ∈ owned, s.sessions.owner i = session) :
      Reaping (fun b => sessionOwner s.sessions b.fileId = session) s.graph s.dev
        (owned.foldl reapInode (s.graph, s.dev)) := by
    have hstart : Reaping (fun b => sessionOwner s.sessions b.fileId = session) s.graph s.dev
      (s.graph, s.dev) := ⟨fun _ _ => id, .refl _ s.dev⟩
    refine hstart.foldl owned fun t i hi ht => ht.reapInode fun b hb => ?_
    rw [hb, sessionOwner_toId]
    exact howned i hi
  have howned := hall (ownedSlots s session) fun i => mem_ownedSlots.mp
  unfold sessionReap
  rw [if_neg hsession]
  unfold ownedSlots at howned
  simp only
  generalize (List.finRange maxInodes).filter (fun i => s.sessions.owner i == session) = owned
    at howned ⊢
  exact howned.disk

structure ReapSound (session : UInt32) (s s' : Fs) : Prop where
  owned : ∀ i, s'.live i = true → s'.sessions.owner i ≠ session
  bytes : sessionBytes s'.sessions session = 0
  edges : ∀ k e, s'.graph.edges k = some e →
    (∃ n, s'.graph.inode e.parentId = some n ∧ n.kind = .dir) ∧ ∃ n, s'.graph.inode e.childId = some n
  inodesKept : ∀ i, s.sessions.owner i ≠ session → s'.graph.inodes i = s.graph.inodes i ∧
    s'.sessions.owner i = s.sessions.owner i
  edgesKept : ∀ k e, s.graph.edges k = some e → sessionOwner s.sessions e.childId ≠ session →
    s'.graph.edges k = some e
  blocksKept : ∀ k b, s.graph.blocks k = some b → sessionOwner s.sessions b.fileId ≠ session →
    s'.graph.blocks k = some b
  diskKept : DiskKept (SessionBlk s session) s.dev s'.dev
  bytesKept : ∀ t, t ≠ session → sessionBytes s'.sessions t = sessionBytes s.sessions t

/-- Everything in a directory of the session is the session's. -/
def ReapClosed (s : Fs) (session : UInt32) : Prop :=
  ∀ k e, s.graph.edges k = some e → sessionOwner s.sessions e.parentId = session →
    sessionOwner s.sessions e.childId = session

section
variable {s : Fs} {session : UInt32}

theorem not_owned_iff {id : ℤ} (hsession : session ≠ 0) :
    (∀ i ∈ ownedSlots s session, id ≠ Slots.toId i) ↔ sessionOwner s.sessions id ≠ session := by
  constructor
  · intro h howner
    unfold sessionOwner at howner
    cases hslot : Slots.ofId maxInodes id with
    | none =>
      rw [hslot] at howner
      exact hsession howner.symm
    | some i =>
      rw [hslot] at howner
      exact h i (mem_ownedSlots.mpr howner) (Slots.ofId_eq_some hslot)
  · rintro h i hi rfl
    rw [sessionOwner_toId] at h
    exact h (mem_ownedSlots.mp hi)

theorem reaped_inode (hsession : session ≠ 0) {id : ℤ} : (sessionReap session s).graph.inode id =
      if sessionOwner s.sessions id = session then none else s.graph.inode id := by
  have hreaped := sessionReap_reaped s hsession
  unfold Graph.inode sessionOwner
  cases hslot : Slots.ofId maxInodes id with
  | none => simp [Ne.symm hsession]
  | some i => simp [hreaped.inodes i, mem_ownedSlots]

theorem reaped_edge (hsession : session ≠ 0) {k : Fin maxEdges} {e : Edge} :
    (sessionReap session s).graph.edges k = some e ↔
      s.graph.edges k = some e ∧ sessionOwner s.sessions e.childId ≠ session := by
  rw [(sessionReap_reaped s hsession).edges, not_owned_iff hsession]

theorem reaped_block (hsession : session ≠ 0) {k : Fin maxBlocks} {b : Block} :
    (sessionReap session s).graph.blocks k = some b ↔
      s.graph.blocks k = some b ∧ sessionOwner s.sessions b.fileId ≠ session := by
  rw [(sessionReap_reaped s hsession).blocks, not_owned_iff hsession]

theorem sessionReap_bytes (hsession : session ≠ 0) {t : UInt32} :
    sessionBytes (sessionReap session s).sessions t =
      if t = session then 0 else sessionBytes s.sessions t := by
  rw [← sessionBytes_clear hsession]
  unfold sessionReap
  rw [if_neg hsession]

theorem reapSound_iff (h : ReapInv s) (hsession : session ≠ 0) :
    ReapSound session s (sessionReap session s) ↔ ReapClosed s session := by
  constructor
  · intro hsound k e he hparent
    by_contra hchild
    obtain ⟨⟨n, hn, -⟩, -⟩ := hsound.edges k e (hsound.edgesKept k e he hchild)
    rw [reaped_inode hsession, if_pos hparent] at hn
    cases hn
  · intro hclosed
    refine
      { owned := ?_, bytes := ?_, edges := ?_, inodesKept := ?_, edgesKept := ?_, blocksKept := ?_,
        diskKept := sessionReap_disk hsession, bytesKept := ?_ }
    · intro i _
      rw [sessionReap_owner hsession]
      split_ifs with howner
      · exact Ne.symm hsession
      · exact howner
    · rw [sessionReap_bytes hsession, if_pos rfl]
    · intro k e he
      obtain ⟨he, hchild⟩ := (reaped_edge hsession).mp he
      have hparent := mt (hclosed k e he) hchild
      rw [reaped_inode hsession, reaped_inode hsession, if_neg hparent, if_neg hchild]
      exact ⟨h.graph.parent_dir k e he, h.graph.child_live k e he⟩
    · intro i hi
      rw [sessionReap_owner hsession, if_neg hi, (sessionReap_reaped s hsession).inodes,
        if_neg (mt mem_ownedSlots.mp hi)]
      exact ⟨rfl, rfl⟩
    · exact fun k e he hchild => (reaped_edge hsession).mpr ⟨he, hchild⟩
    · exact fun k b hb hfile => (reaped_block hsession).mpr ⟨hb, hfile⟩
    · intro t ht
      rw [sessionReap_bytes hsession, if_neg ht]

theorem ReapInv.reap (h : ReapInv s) (hsession : session ≠ 0) (hclosed : ReapClosed s session) :
    ReapInv (sessionReap session s) := by
  have hsound := (reapSound_iff h hsession).mpr hclosed
  have hreaped := sessionReap_reaped s hsession
  have hinode : ∀ {id n}, (sessionReap session s).graph.inode id = some n →
      s.graph.inode id = some n ∧ sessionOwner s.sessions id ≠ session := by
    intro id n hn
    rw [reaped_inode hsession] at hn
    split_ifs at hn with howner
    exact ⟨hn, howner⟩
  have hedge : ∀ {k e}, (sessionReap session s).graph.edges k = some e →
      s.graph.edges k = some e := fun he => ((reaped_edge hsession).mp he).1
  have hrootOwner : sessionOwner s.sessions s.graph.rootId ≠ session := by
    rw [h.root]
    exact Ne.symm hsession
  refine ⟨?_, ?_⟩
  · refine
      { parent_dir := fun k e he => (hsound.edges k e he).1
        child_live := fun k e he => (hsound.edges k e he).2
        edge_unique := ?_, root_free := ?_, one_edge := ?_, orphan_free := ?_, block_file := ?_
        root_dir := ?_, nlink_one := ?_, orphan_kind := ?_ }
    · exact fun i j e e' hi hj => h.graph.edge_unique i j e e' (hedge hi) (hedge hj)
    · intro k e he
      rw [hreaped.rootId]
      exact h.graph.root_free k e (hedge he)
    · intro id n hn hroot horphan
      rw [hreaped.rootId] at hroot
      obtain ⟨hn, howner⟩ := hinode hn
      obtain ⟨k, ⟨e, he, hchild⟩, hunique⟩ := h.graph.one_edge id n hn hroot horphan
      refine ⟨k, ⟨e, (reaped_edge hsession).mpr ⟨he, hchild ▸ howner⟩, hchild⟩, ?_⟩
      rintro k' ⟨e', he', hchild'⟩
      exact hunique k' ⟨e', hedge he', hchild'⟩
    · intro id n hn horphan
      obtain ⟨hnone, hopen⟩ := h.graph.orphan_free id n (hinode hn).1 horphan
      exact ⟨fun k e he => hnone k e (hedge he), hopen⟩
    · intro k b hb
      obtain ⟨hb, hfile⟩ := (reaped_block hsession).mp hb
      rw [reaped_inode hsession, if_neg hfile]
      exact h.graph.block_file k b hb
    · rw [hreaped.rootId, reaped_inode hsession, if_neg hrootOwner]
      exact h.graph.root_dir
    · exact fun id n hn => h.graph.nlink_one id n (hinode hn).1
    · exact fun id n hn => h.graph.orphan_kind id n (hinode hn).1
  · obtain ⟨i, hi, -, howner⟩ := h.root_slot
    rw [hreaped.rootId, hi, sessionOwner_toId, sessionReap_owner hsession, howner,
      if_neg (Ne.symm hsession)]

end

def ClosedCall (s : Fs) (call : Env × FsOp) : Prop :=
  ∀ session, call.2 = .reap session → session ≠ 0 → ReapClosed s session

def SoundCall (s : Fs) (call : Env × FsOp) : Prop :=
  ∀ session, call.2 = .reap session → session ≠ 0 → ReapSound session s (fsStep s call).1

theorem fsStep_reap {call : Env × FsOp} {session : UInt32} (h : call.2 = .reap session) :
    (fsStep s call).1 = sessionReap session s := by
  obtain ⟨env, op⟩ := call
  cases h
  rfl

theorem ReapInv.next (h : ReapInv s) (call : Env × FsOp) (hcall : ClosedCall s call) :
    ReapInv (fsStep s call).1 := by
  by_cases hreap : ∃ session, call.2 = .reap session
  · obtain ⟨session, hreap⟩ := hreap
    rw [fsStep_reap hreap]
    by_cases hsession : session = 0
    · unfold sessionReap
      rwa [if_pos hsession]
    · exact h.reap hsession (hcall session hreap hsession)
  · exact h.step call (not_exists.mp hreap)

theorem soundCall_iff (h : ReapInv s) {call : Env × FsOp} :
    SoundCall s call ↔ ClosedCall s call := by
  refine forall_congr' fun session => ⟨fun hs hreap hne => ?_, fun hc hreap hne => ?_⟩
  · have hsound := hs hreap hne
    rw [fsStep_reap hreap] at hsound
    exact (reapSound_iff h hne).mp hsound
  · rw [fsStep_reap hreap]
    exact (reapSound_iff h hne).mpr (hc hreap hne)

/-- Every reap is sound exactly if the reaped session has nobody else's nodes in its directories. -/
theorem reaps_sound_iff (st : Storage) (now : ℤ) (calls : List (Env × FsOp)) :
    (∀ e ∈ Machine.trace fsStep (lazyInit st now) calls, SoundCall e.pre e.input) ↔
      ∀ e ∈ Machine.trace fsStep (lazyInit st now) calls, ClosedCall e.pre e.input := by
  exact Machine.trace_iff_of fsStep (P := ReapInv) (D := fun _ => True)
    (fun s call _ hs => soundCall_iff hs) (fun s call _ hs hclosed => hs.next call hclosed)
    (lazyInit_reapInv st now) calls fun _ _ => trivial

def sharedDir : List (Env × FsOp) :=
  [(sshEnv, .mkdir 0 pathA 0), (bootEnv, .open 0 pathAB oCreat 0)]

theorem reap_strands_edge : ¬ ReapSound 7 (Machine.exec fsStep (lazyInit blankImage 0) sharedDir)
      (sessionReap 7 (Machine.exec fsStep (lazyInit blankImage 0) sharedDir)) := by
  rw [boot_eq]
  intro hsound
  have hedge : (Machine.exec fsStep (freshFs blankImage 0) sharedDir).graph.edges 1 =
      some ⟨2, 3, [98]⟩ := by
    decide +kernel
  have hparent : sessionOwner (Machine.exec fsStep (freshFs blankImage 0) sharedDir).sessions 2 = 7 := by
    decide +kernel
  have hchild : sessionOwner (Machine.exec fsStep (freshFs blankImage 0) sharedDir).sessions 3 = 0 := by
    decide +kernel
  have hkept := hsound.edgesKept 1 _ hedge (by rw [hchild]; decide)
  obtain ⟨⟨n, hn, -⟩, -⟩ := hsound.edges 1 _ hkept
  rw [reaped_inode (by decide), if_pos hparent] at hn
  cases hn

end SotOs.Lucas
