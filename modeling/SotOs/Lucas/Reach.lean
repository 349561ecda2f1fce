import SotOs.Sotfs.Attach
import SotOs.Sotfs.WalScan
import SotOs.Lucas.Nodes

/-! Every state the backend reaches from boot has its store in order, as long as the device fails no
write and the log stays in its region. -/

namespace SotOs.Sotfs

theorem scanLoop_invariant {σ : Type*} {storage : σ → Storage} {apply : σ → Record → σ × Bool}
    {P : σ → Prop} (happly : ∀ s r, P s → P (apply s r).1) (s : σ) (off lastSeq : ℕ) (h : P s) :
    P (scanLoop storage apply s off lastSeq).state := by
  fun_induction scanLoop storage apply s off lastSeq with
  | case1 s off lastSeq hnone => exact h
  | case2 s off lastSeq hdr hnext s' visit hvisit out ih =>
    apply ih
    have hs' : s' = (visitFrame storage apply s off hdr).1 := by rw [hvisit]
    rw [hs']
    unfold visitFrame
    split_ifs
    · exact h
    · rcases (storage s).readBlock (off + headerBytes) recordBytes with _ | raw
      · exact h
      simp only
      split_ifs
      · exact happly s _ h
      · exact h
    · exact h

theorem createNode_within (kind : Kind) (g : Graph) (p : ℤ) (name : Name) (mode : UInt32) :
    Within g (createNode kind g p name mode).1 := by
  have hcreated := createNode_created kind g p name mode
  generalize createNode kind g p name mode = out at hcreated ⊢
  obtain ⟨g', rc⟩ := out
  intro i b hb
  cases hcreated with
  | failed g' e hsame => rwa [← hsame.blocks]
  | created k j _ _ _ _ _ _ => exact hb

variable {g : Graph} {p : ℤ} {name : Name}

theorem unlink_within : Within g (unlink g p name).1 := by
  cases h : unlink g p name with
  | mk g' out =>
    cases out with
    | error e =>
      rw [SotOs.Sotfs.unlink_failed h]
      exact fun _ _ hb => hb
    | ok u =>
      obtain ⟨_, _, _, _, _, hlocal⟩ := local_unlinked h
      exact hlocal.within

theorem rmdir_within : Within g (rmdir g p name).1 := by
  cases h : rmdir g p name with
  | mk g' out =>
    cases out with
    | error e =>
      rw [SotOs.Sotfs.rmdir_failed h]
      exact fun _ _ hb => hb
    | ok u =>
      obtain ⟨_, _, _, _, _, _, hlocal⟩ := local_removed h
      exact hlocal.within

theorem rename_within {pSrc : ℤ} {old : Name} {pDst : ℤ} {new : Name} :
    Within g (rename g pSrc old pDst new).1 := by
  cases h : rename g pSrc old pDst new with
  | mk g' out =>
    cases out with
    | error e =>
      rw [SotOs.Sotfs.rename_failed h]
      exact fun _ _ hb => hb
    | ok u =>
      obtain ⟨_, _, _, _, _, _, hlocal⟩ := local_renamed h
      exact hlocal.within

variable {id : ℤ}

theorem inodeClose_within : Within g (inodeClose g id) := by
  unfold inodeClose
  rcases hn : g.inode id with _ | n
  · exact fun _ _ hb => hb
  obtain ⟨c, rfl, -⟩ := Graph.inode_eq_some.mp hn
  have hdrop := local_modifyInode g (Slots.toId c) fun n => { n with openCount := n.openCount - 1 }
  simp only
  split_ifs
  · exact (hdrop.trans (local_freeFileStorage _ c)).within
  · exact hdrop.within

end SotOs.Sotfs

namespace SotOs.Lucas
open Sotfs

variable {g : Graph} {d : Blkdev} {s s' : Fs} {st : Storage} {env : Env} {path buf : List UInt8}
  {hd : Fin handlePool} {root : ℤ}

theorem InOrder.within {g' : Graph} (h : InOrder g d) (hsub : Within g g') : InOrder g' d :=
  ⟨h.store.of_subset hsub, h.heap, h.image⟩

theorem InOrder.written (h : InOrder g d) (id : ℤ) (off : ℕ) (buf : List UInt8) :
    InOrder (fileWrite g d id off buf).1 (fileWrite g d id off buf).2.1 := by
  have hsame := fileWrite_same g d id off buf
  exact ⟨(fileWrite_kept h.store id off buf).inv, hsame.heapOff ▸ h.heap, hsame.capacity ▸ h.image⟩

theorem applyRecord_inOrder {s : Graph × Blkdev} (h : InOrder s.1 s.2) {r : Record} :
    InOrder (applyRecord s r).1.1 (applyRecord s r).1.2 := by
  unfold applyRecord
  cases r.kind with
  | createFile => exact h.within (createNode_within _ _ _ _ _)
  | mkdir => exact h.within (createNode_within _ _ _ _ _)
  | unlink => exact h.within unlink_within
  | rmdir => exact h.within rmdir_within
  | rename => exact h.within rename_within
  | write =>
    simp only
    split_ifs
    · exact h.written ..
    · split
      · exact h
      · exact h.written ..
  | install =>
    have hcreate := h.within (createNode_within .file s.1 s.1.rootId
      (if (fieldName r.name).head? = some slash then (fieldName r.name).tail else fieldName r.name)
      0o644)
    simp only
    split
    · exact hcreate
    · exact hcreate.written ..
  | none => exact h

theorem graphInit_blocks {i : Fin maxBlocks} : graphInit.blocks i = none := by
  unfold graphInit allocInode
  simp only
  cases Slots.firstFrom 0 fun i : Fin maxInodes => (none : Option Inode).isNone <;> rfl

theorem freshFs_inv (hs : st.Sound) (hcap : imgTotalBytes ≤ st.capacity) (now : ℤ) :
    FsInv (freshFs st now) := by
  have hattached := blkdevInit_attached (d := bssBlkdev st) (fun _ => rfl) hs dataOffset
    dataRegionBytes false
  have hdata : dataOffset + dataRegionBytes ≤ imgTotalBytes := by decide
  have hbefore : walEnd ≤ dataOffset := by decide
  have hgraph : ∀ i, (freshFs st now).graph.blocks i = none := by
    intro i
    simp only [freshFs, Fs.stampCreate, modifyInode_blocks]
    exact graphInit_blocks
  refine ⟨⟨hattached.healthy (by decide) (hdata.trans hcap), ⟨?_, ?_, ?_⟩⟩, ?_, ?_⟩
  · intro i b hb
    rw [hgraph] at hb
    cases hb
  · intro i b hb
    rw [hgraph] at hb
    cases hb
  · intro i j b b' hb
    rw [hgraph] at hb
    cases hb
  · exact hbefore.trans hattached.heap
  · exact (hbefore.trans ((Nat.le_add_right _ _).trans (hdata.trans hcap))).trans_eq
      hattached.capacity.symm

theorem lazyInit_inv (hs : st.Sound) (hcap : imgTotalBytes ≤ st.capacity) (now : ℤ) :
    FsInv (lazyInit st now) := by
  have hfresh := freshFs_inv hs hcap now
  have hinit : (freshFs st now).wal.initialised = true := rfl
  unfold lazyInit walReplayFiles replayWith
  simp only [hinit, if_true]
  exact scanLoop_invariant (P := fun s : Graph × Blkdev => InOrder s.1 s.2)
    (fun s r h => applyRecord_inOrder h) _ _ _ hfresh

theorem freshFs_sameLog (hs : st.Sound) (now : ℤ) : SameLog (freshFs st now).dev.st st := by
  have hattached := blkdevInit_attached (d := bssBlkdev st) (fun _ => rfl) hs dataOffset
    dataRegionBytes false
  have hbefore : walEnd ≤ dataOffset := by decide
  exact ⟨hattached.capacity, fun a _ ha => hattached.below a (ha.trans_le hbefore)⟩

theorem lazyInit_blank (hs : st.Sound) (now : ℤ) (hblank : nextHeader st walOffset = none) :
    lazyInit st now = freshFs st now := by
  have hinit : (freshFs st now).wal.initialised = true := rfl
  have hnext : nextHeader (freshFs st now).dev.st walOffset = none :=
    ((freshFs_sameLog hs now).nextHeader (Nat.le_refl _)).trans hblank
  have hscan : scanLoop (fun s : Graph × Blkdev => s.2.st) applyRecord
      ((freshFs st now).graph, (freshFs st now).dev) walOffset 0 =
        ⟨((freshFs st now).graph, (freshFs st now).dev), walOffset, 0, []⟩ := by
    rw [scanLoop]
    split
    · rfl
    · rename_i hdr hsome
      rw [hnext] at hsome
      cases hsome
  unfold lazyInit walReplayFiles replayWith
  simp only [hinit, if_true, hscan]
  rfl

theorem NodeStep.inv (hstep : NodeStep env s s') (hroom : s'.wal.cursor ≤ walEnd) (h : FsInv s) :
    FsInv s' := by
  cases hstep with
  | made kind p name mode g' id _ _ hcreate => exact (h.addNode hcreate hroom).inv
  | tried kind p name mode g' e hcreate => exact (h.tried hcreate).inv
  | hinted id => exact (h.hinted env id).inv

theorem NodeSteps.inv (hsteps : NodeSteps env s s') (hroom : s'.wal.cursor ≤ walEnd) (h : FsInv s) :
    FsInv s' :=
  hsteps.induction hroom h fun _ _ hstep => hstep.inv

theorem local_inodeOpen (g : Graph) (id : ℤ) : Local ∅ g (inodeOpen g id) := by
  apply local_modifyInode_face
  intro n
  split <;> rfl

theorem FsInv.opened (h : FsInv s) (path : List UInt8) (id : ℤ) (i : Fin handlePool) :
    Kept ∅ s (s.openAt path id i) :=
  h.graph rfl (local_inodeOpen s.graph id)

theorem OpenDone.inv (hd : OpenDone env path s s') (hroom : s'.wal.cursor ≤ walEnd) (h : FsInv s) :
    FsInv s' := by
  cases hd with
  | steps hsteps => exact NodeSteps.inv hsteps hroom h
  | handle hsteps id i => exact ((NodeSteps.inv hsteps hroom h).opened path id i).inv

theorem WriteDone.inv {cursor : ℤ} (hdone : WriteDone env hd buf cursor s s')
    (hroom : s'.wal.cursor ≤ walEnd) (h : FsInv s) : FsInv s' := by
  cases hdone with
  | aside sessions cow _ => exact h
  | @contained i off sessions _ _ _ g' d' rc hw s' hs' =>
    have hwritten : FsInv { s with sessions, graph := g', dev := d' } :=
      (h.written (by rw [hw]) (by rw [hw])).inv
    rcases hs' with rfl | rfl
    · exact hwritten
    · exact (hwritten.stampedWrite env _).inv
  | refused i _ _ hw => exact (h.written (by rw [hw]) (by rw [hw])).inv
  | @logged i _ _ g' d' n hw =>
    have hwritten : FsInv { s with graph := g', dev := d' } :=
      (h.written (by rw [hw]) (by rw [hw])).inv
    have hlog := hwritten.logged env (fun tx now =>
      writeRecord tx now (Slots.toId i) (low32 cursor) (buf.take n)) (by
        unfold Fs.applyPendingHint at hroom
        split_ifs at hroom <;> exact hroom)
    exact ((hlog.inv.stampedWrite env _).inv.hinted env _).inv

theorem opRead_inv (h : FsInv s) (env : Env) (hd : Fin handlePool) (count : ℕ) (cursor : ℤ) :
    Kept ∅ s (opRead env hd count cursor s).1 := by
  unfold opRead
  split
  · exact .refl h
  rename_i i _
  have hread := fileRead_stored h.store.healthy s.graph (Slots.toId i) (low32 cursor)
    (count % 2 ^ 32)
  simp only
  split
  · exact .refl h
  split
  · exact .refl h
  split
  · exact .refl h
  generalize fileRead s.graph s.dev (Slots.toId i) (low32 cursor) (count % 2 ^ 32) = out at hread ⊢
  obtain ⟨d, rc⟩ := out
  cases rc with
  | error e => exact h.moved hread rfl
  | ok bytes => exact h.moved hread rfl

theorem install_rule {J : Graph → Blkdev → Prop} (env : Env) (path content : List UInt8)
    (h : J s.graph s.dev) (hunlink : ∀ g d p name, J g d → J (unlink g p name).1 d)
    (hcreate : ∀ g d p name, J g d → J (createFile g p name 0o644).1 d)
    (hwrite : ∀ g d id data, J g d → J (fileWrite g d id 0 data).1 (fileWrite g d id 0 data).2.1) :
    ∃ g d, J g d ∧ ((install env path content s).1 = { s with graph := g, dev := d } ∨
      ∃ id record, (install env path content s).1 =
        (({ s with graph := g, dev := d } : Fs).stampCreate env id).log env record) := by
  unfold install
  split
  · exact ⟨s.graph, s.dev, h, .inl rfl⟩
  simp only
  generalize (if path.head? = some slash then path.tail else path) = leaf
  have hcleared : J (if (findEdge s.graph s.graph.rootId leaf).isSome then
      (unlink s.graph s.graph.rootId leaf).1 else s.graph) s.dev := by
    split_ifs
    · exact hunlink _ _ _ _ h
    · exact h
  generalize (if (findEdge s.graph s.graph.rootId leaf).isSome then
    (unlink s.graph s.graph.rootId leaf).1 else s.graph) = g at hcleared ⊢
  have hmade := hcreate g s.dev s.graph.rootId leaf hcleared
  generalize createFile g s.graph.rootId leaf 0o644 = out at hmade ⊢
  obtain ⟨g₁, _ | id₁⟩ := out
  · exact ⟨g₁, s.dev, hmade, .inl rfl⟩
  simp only
  rcases resolvePath g₁ path with _ | id
  · exact ⟨g₁, s.dev, hmade, .inl rfl⟩
  generalize content.take (content.length % 2 ^ 32) = data
  have hwritten := hwrite g₁ s.dev id data hmade
  simp only
  generalize fileWrite g₁ s.dev id 0 data = out at hwritten ⊢
  obtain ⟨g₂, d₂, _ | n⟩ := out
  · exact ⟨_, d₂, hunlink _ _ _ _ hwritten, .inl rfl⟩
  · exact ⟨g₂, d₂, hwritten, .inr ⟨id, fun tx now => installRecord tx now path data, rfl⟩⟩

theorem install_inv (h : FsInv s) (env : Env) (path content : List UInt8)
    (hroom : (install env path content s).1.wal.cursor ≤ walEnd) :
    FsInv (install env path content s).1 := by
  obtain ⟨g, d, hgd, hfs | ⟨id, record, hfs⟩⟩ := install_rule (J := InOrder) env path content h
    (fun g d p name hgd => hgd.within unlink_within)
    (fun g d p name hgd => hgd.within (createNode_within .file g p name 0o644))
    fun g d id data hgd => hgd.written id 0 data
  · rw [hfs]
    exact hgd
  · have hfs' : FsInv { s with graph := g, dev := d } := hgd
    rw [hfs] at hroom ⊢
    exact ((hfs'.stampedCreate env id).inv.logged env record hroom).inv

theorem reapBlock_inOrder (id : ℤ) {s : Graph × Blkdev} (h : InOrder s.1 s.2) (i : Fin maxBlocks) :
    InOrder (reapBlock id s i).1 (reapBlock id s i).2 := by
  unfold reapBlock
  rcases hb : s.1.blocks i with _ | b
  · exact h
  simp only
  split_ifs
  swap
  · exact h
  have hsub : ∀ k c, (s.1.setBlock i none).blocks k = some c → k ≠ i ∧ s.1.blocks k = some c := by
    intro k c hc
    have hk : k ≠ i := by
      rintro rfl
      simp [Graph.setBlock] at hc
    simp only [Graph.setBlock, Function.update_of_ne hk] at hc
    exact ⟨hk, hc⟩
  have hfreed := blkFree_freed h.store.healthy b.diskBlk
  have hmapped := h.store.mapped
  refine ⟨⟨hfreed.healthy, ⟨fun k c hc hne => ?_, fun k c hc hne => ?_, ?_⟩⟩, ?_, ?_⟩
  · rw [hfreed.device.validBlk]
    exact hmapped.valid k c (hsub k c hc).2 hne
  · obtain ⟨hk, hc'⟩ := hsub k c hc
    have hpos := (validBlk_iff.mp (hmapped.valid k c hc' hne)).1
    -- no other mapping has the block that is given back
    have hother : c.diskBlk ≠ b.diskBlk := fun heq => hk (hmapped.distinct k i c b hc' hb hne heq)
    by_cases hzero : 0 < b.diskBlk
    · rw [hfreed.bitmap _ (by omega)]
      exact hmapped.taken k c hc' hne
    · have hinvalid : validBlk s.2 b.diskBlk = false := by
        rw [Bool.eq_false_iff]
        exact fun hv => hzero (validBlk_iff.mp hv).1
      rw [blkFree_invalid hinvalid]
      exact hmapped.taken k c hc' hne
  · exact fun k j c c' hc hc' =>
      hmapped.distinct k j c c' (hsub k c hc).2 (hsub j c' hc').2
  · rw [hfreed.device.heapOff]
    exact h.heap
  · rw [hfreed.device.capacity]
    exact h.image

theorem foldl_inOrder {α : Type*} {f : Graph × Blkdev → α → Graph × Blkdev}
    (hf : ∀ s a, InOrder s.1 s.2 → InOrder (f s a).1 (f s a).2) (l : List α) {s : Graph × Blkdev}
    (h : InOrder s.1 s.2) : InOrder (l.foldl f s).1 (l.foldl f s).2 := by
  induction l generalizing s with
  | nil => exact h
  | cons a l ih => exact ih (hf s a h)

theorem freeInode_blocks (g : Graph) (id : ℤ) : (freeInode g id).blocks = g.blocks := by
  unfold freeInode
  split <;> rfl

theorem reapEdges_inOrder (inode : ℤ) {s : Graph × Blkdev} (h : InOrder s.1 s.2) :
    InOrder (s.map (reapEdges inode) id).1 (s.map (reapEdges inode) id).2 := by
  refine InOrder.within h ?_
  intro k b hb
  rwa [Prod.map_fst, reapEdges, freeInode_blocks] at hb

theorem reapInode_inOrder {s : Graph × Blkdev} (h : InOrder s.1 s.2) (i : Fin maxInodes) :
    InOrder (reapInode s i).1 (reapInode s i).2 := by
  have hblocks := foldl_inOrder (f := reapBlock (Slots.toId i))
    (fun t k ht => reapBlock_inOrder _ ht k) (List.finRange maxBlocks) h
  have hedges := reapEdges_inOrder (Slots.toId i) hblocks
  rwa [← reapInode] at hedges

theorem sessionReap_inv (h : FsInv s) (session : UInt32) : FsInv (sessionReap session s) := by
  unfold sessionReap
  split_ifs
  · exact h
  simp only
  generalize (List.finRange maxInodes).filter (fun i => s.sessions.owner i == session) = owned
  exact foldl_inOrder (fun t k ht => reapInode_inOrder ht k) owned h

theorem fsStep_inv (h : FsInv s) {call : Env × FsOp} (hroom : (fsStep s call).1.wal.cursor ≤ walEnd) :
    FsInv (fsStep s call).1 := by
  obtain ⟨env, op⟩ := call
  cases op with
  | «open» mountRoot path flags mode =>
    exact (opOpen_done env mountRoot path.noNul flags mode s).inv hroom h
  | close hd =>
    change FsInv (opClose hd s).1
    unfold opClose
    split_ifs
    · exact InOrder.within h inodeClose_within
    · exact h
  | dupHandle hd =>
    change FsInv (opDupHandle hd s).1
    unfold opDupHandle
    split_ifs
    · exact h
    · split
      · exact h
      · exact InOrder.within h (local_inodeOpen s.graph _).within
  | read hd count cursor => exact (opRead_inv h env hd count cursor).inv
  | write hd buf cursor => exact (opWrite_done env hd buf cursor s).inv hroom h
  | truncate hd newlen =>
    obtain ⟨cow, heq⟩ := opTruncate_done env hd newlen s
    change FsInv (opTruncate env hd newlen s).1
    rw [heq]
    exact h
  | mkdir mountRoot path mode =>
    exact NodeSteps.inv (mkdirRoot_steps env _ path.noNul mode s) hroom h
  | unlink mountRoot path => exact ((unlinkRoot_done env _ path.bytes s).kept h hroom).1.inv
  | rmdir mountRoot path => exact ((rmdirRoot_done env _ path.bytes s).kept h hroom).1.inv
  | rename mountRoot oldpath newpath =>
    exact ((renameRoot_done env _ oldpath.bytes newpath.bytes s).kept h hroom).1.inv
  | install path content => exact install_inv h env path.bytes content hroom
  | reap session => exact sessionReap_inv h session

variable {id : ℤ}

@[simp] theorem applyPendingHint_wal : (s.applyPendingHint env id).wal = s.wal := by
  unfold Fs.applyPendingHint
  split_ifs <;> rfl

theorem NodeSteps.cursor_le (h : NodeSteps env s s') : s.wal.cursor ≤ s'.wal.cursor := by
  induction h with
  | refl => exact Nat.le_refl _
  | tail _ hlast ih => exact ih.trans hlast.cursor_le

theorem OpenDone.cursor_le (hd : OpenDone env path s s') : s.wal.cursor ≤ s'.wal.cursor := by
  cases hd with
  | steps hsteps => exact NodeSteps.cursor_le hsteps
  | @handle s₁ hsteps id i =>
    have hle : s.wal.cursor ≤ s₁.wal.cursor := NodeSteps.cursor_le hsteps
    exact hle

theorem UnlinkDone.cursor_le (hd : UnlinkDone env root path s s') :
    s.wal.cursor ≤ s'.wal.cursor := by
  cases hd with
  | same => exact Nat.le_refl _
  | @unlinked p leaf g' sessions _ _ _ _ =>
    exact logUnlessSession_cursor_le { s with graph := g', sessions } env _

theorem RmdirDone.cursor_le (hd : RmdirDone env root path s s') : s.wal.cursor ≤ s'.wal.cursor := by
  cases hd with
  | same => exact Nat.le_refl _
  | @removed p leaf g' _ _ => exact log_cursor_le { s with graph := g' } env _

theorem RenameDone.cursor_le {oldpath newpath : List UInt8}
    (hd : RenameDone env root oldpath newpath s s') : s.wal.cursor ≤ s'.wal.cursor := by
  cases hd with
  | same => exact Nat.le_refl _
  | @moved _ _ _ _ g' _ _ _ => exact log_cursor_le { s with graph := g' } env _
  | lost => exact Nat.le_refl _
  | @replaced pSrc sleaf pDst dleaf _ g'' sessions _ _ _ _ =>
    let s₁ : Fs := { s with graph := g'' }
    let s₂ : Fs := s₁.log env fun tx now => unlinkRecord tx now pDst dleaf
    let s₃ : Fs := s₂.log env fun tx now => renameRecord tx now pSrc sleaf pDst dleaf
    have hfirst : s₁.wal.cursor ≤ s₂.wal.cursor := log_cursor_le s₁ env _
    have hsecond : s₂.wal.cursor ≤ s₃.wal.cursor := log_cursor_le s₂ env _
    exact hfirst.trans hsecond

theorem WriteDone.cursor_le {cursor : ℤ} (hdone : WriteDone env hd buf cursor s s') :
    s.wal.cursor ≤ s'.wal.cursor := by
  cases hdone with
  | aside => exact Nat.le_refl _
  | contained _ _ _ _ _ _ _ hs' => rcases hs' with rfl | rfl <;> exact Nat.le_refl _
  | refused => exact Nat.le_refl _
  | @logged i _ _ g' d' n _ =>
    rw [applyPendingHint_wal]
    let s₁ : Fs := { s with graph := g', dev := d' }
    let s₂ : Fs := s₁.log env fun tx now =>
      writeRecord tx now (Slots.toId i) (low32 cursor) (buf.take n)
    have hle : s₁.wal.cursor ≤ s₂.wal.cursor := log_cursor_le s₁ env _
    exact hle

variable {content : List UInt8}

theorem install_cursor_le : s.wal.cursor ≤ (install env path content s).1.wal.cursor := by
  obtain ⟨g, d, -, hfs | ⟨id, record, hfs⟩⟩ := install_rule (J := fun _ _ => True) (s := s) env path
    content trivial (fun _ _ _ _ _ => trivial) (fun _ _ _ _ _ => trivial) fun _ _ _ _ _ => trivial
  · rw [hfs]
  · rw [hfs]
    exact log_cursor_le (({ s with graph := g, dev := d } : Fs).stampCreate env id) env record

variable {session : UInt32}

theorem sessionReap_wal : (sessionReap session s).wal = s.wal := by
  rw [sessionReap]
  split <;> rfl

theorem fsStep_cursor_le (s : Fs) (call : Env × FsOp) :
    s.wal.cursor ≤ (fsStep s call).1.wal.cursor := by
  obtain ⟨env, op⟩ := call
  cases op with
  | «open» mountRoot path flags mode =>
    exact (opOpen_done env mountRoot path.noNul flags mode s).cursor_le
  | close hd =>
    change _ ≤ (opClose hd s).1.wal.cursor
    unfold opClose
    split_ifs <;> exact Nat.le_refl _
  | dupHandle hd =>
    change _ ≤ (opDupHandle hd s).1.wal.cursor
    unfold opDupHandle
    split_ifs
    · exact Nat.le_refl _
    · split <;> exact Nat.le_refl _
  | read hd count cursor =>
    change _ ≤ (opRead env hd count cursor s).1.wal.cursor
    unfold opRead
    simp only
    repeat' split
    all_goals exact Nat.le_refl _
  | write hd buf cursor => exact (opWrite_done env hd buf cursor s).cursor_le
  | truncate hd newlen =>
    obtain ⟨cow, heq⟩ := opTruncate_done env hd newlen s
    change _ ≤ (opTruncate env hd newlen s).1.wal.cursor
    rw [heq]
  | mkdir mountRoot path mode => exact NodeSteps.cursor_le (mkdirRoot_steps env _ path.noNul mode s)
  | unlink mountRoot path => exact (unlinkRoot_done env _ path.bytes s).cursor_le
  | rmdir mountRoot path => exact (rmdirRoot_done env _ path.bytes s).cursor_le
  | rename mountRoot oldpath newpath =>
    exact (renameRoot_done env _ oldpath.bytes newpath.bytes s).cursor_le
  | install path content => exact install_cursor_le
  | reap session =>
    change _ ≤ (sessionReap session s).wal.cursor
    rw [sessionReap_wal]

theorem exec_cursor_le (s : Fs) (calls : List (Env × FsOp)) :
    s.wal.cursor ≤ (Machine.exec fsStep s calls).wal.cursor := by
  induction calls generalizing s with
  | nil => exact Nat.le_refl _
  | cons call calls ih => exact (fsStep_cursor_le s call).trans (ih _)

theorem exec_inv (h : FsInv s) (calls : List (Env × FsOp))
    (hroom : (Machine.exec fsStep s calls).wal.cursor ≤ walEnd) :
    FsInv (Machine.exec fsStep s calls) := by
  induction calls generalizing s with
  | nil => exact h
  | cons call calls ih =>
    have hstep := fsStep_inv h ((exec_cursor_le (fsStep s call).1 calls).trans hroom)
    exact ih hstep hroom

def bootEnv : Env := ⟨none, 0, fun _ => (0, 0)⟩

def sshEnv : Env := ⟨some ⟨true, 7, false⟩, 0, fun _ => (0, 0)⟩

def pathRoot : CStr := ⟨[47], by decide⟩

def pathA : CStr := ⟨[47, 97], by decide⟩

def pathB : CStr := ⟨[47, 98], by decide⟩

def pathAB : CStr := ⟨[47, 97, 47, 98], by decide⟩

def blankFs : Fs where
  graph := (freshFs blankImage 0).graph
  dev := bssBlkdev blankImage
  wal := bootWal
  handles := fun _ => ⟨false, 0, []⟩
  sessions := sessionInit
  cow := fun _ => none

theorem boot_eq : lazyInit blankImage 0 = freshFs blankImage 0 := by
  have hsound : blankImage.Sound := rfl
  exact lazyInit_blank hsound 0 (by decide +kernel)

theorem boot_cursor : (lazyInit blankImage 0).wal.cursor = walOffset := by
  rw [boot_eq]
  rfl

end SotOs.Lucas
