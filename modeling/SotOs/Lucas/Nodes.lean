import SotOs.Lucas.BackendSpec

/-! What the operations leave alone, node by node. A change of the graph or of the whole file system
is described by the set of inode numbers it may touch. -/

namespace SotOs.Sotfs

open Function Slots

def Inode.face (n : Inode) : Kind × UInt32 × ℕ := (n.kind, n.mode, n.size)

structure NodeSame (g g' : Graph) (id : ℤ) : Prop where
  inode : (g'.inode id).map Inode.face = (g.inode id).map Inode.face
  edges : ∀ i e, e.childId = id → (g'.edges i = some e ↔ g.edges i = some e)
  blocks : ∀ i b, b.fileId = id → (g'.blocks i = some b ↔ g.blocks i = some b)

def Within (g g' : Graph) : Prop := ∀ i b, g'.blocks i = some b → g.blocks i = some b

structure Local (T : Set ℤ) (g g' : Graph) : Prop where
  within : Within g g'
  others : ∀ id, id ∉ T → NodeSame g g' id

variable {g₁ g₂ g₃ g g' : Graph} {T T' : Set ℤ} {mode : UInt32} {i j : Fin maxEdges} {p : ℤ}
  {name oldName newName : Name} {e : Edge} {pSrc pDst : ℤ}

theorem NodeSame.trans {id : ℤ} (h : NodeSame g₁ g₂ id) (h' : NodeSame g₂ g₃ id) :
    NodeSame g₁ g₃ id :=
  ⟨h'.inode.trans h.inode, fun i e he => (h'.edges i e he).trans (h.edges i e he),
    fun i b hb => (h'.blocks i b hb).trans (h.blocks i b hb)⟩

theorem Local.trans (h : Local T g₁ g₂) (h' : Local T' g₂ g₃) : Local (T ∪ T') g₁ g₃ := by
  refine ⟨fun i b hb => h.within i b (h'.within i b hb), fun id hid => ?_⟩
  rw [Set.mem_union, not_or] at hid
  exact (h.others id hid.1).trans (h'.others id hid.2)

theorem Local.mono (h : Local T g g') (hT : T ⊆ T') : Local T' g g' :=
  ⟨h.within, fun id hid => h.others id fun hmem => hid (hT hmem)⟩

theorem local_same (h : g.Same g') : Local ∅ g g' := by
  refine ⟨fun i b hb => h.blocks ▸ hb, fun id _ => ⟨?_, ?_, ?_⟩⟩
  · rw [Graph.inode_congr h.inodes]
  · intro i e _
    rw [h.edges]
  · intro i b _
    rw [h.blocks]

theorem local_modifyInode (g : Graph) (id : ℤ) (f : Inode → Inode) :
    Local {id} g (g.modifyInode id f) := by
  refine ⟨fun i b hb => by rwa [modifyInode_blocks] at hb, fun id' hid => ⟨?_, ?_, ?_⟩⟩
  · have hne : id' ≠ id := hid
    rw [Graph.inode_modifyInode, if_neg hne]
  · intro i e _
    rw [modifyInode_edges]
  · intro i b _
    rw [modifyInode_blocks]

theorem local_modifyInode_face (g : Graph) (id : ℤ) {f : Inode → Inode}
    (hf : ∀ n, (f n).face = n.face) : Local ∅ g (g.modifyInode id f) := by
  have h := local_modifyInode g id f
  refine ⟨h.within, fun id' _ => ?_⟩
  by_cases hid : id' = id
  · refine ⟨?_, fun i e _ => by rw [modifyInode_edges], fun i b _ => by rw [modifyInode_blocks]⟩
    rw [Graph.inode_modifyInode, if_pos hid, Option.map_map]
    congr 1
    funext n
    exact hf n
  · exact h.others id' hid

theorem local_createdAt {kind : Kind} {i : Fin maxInodes} (hj : g.edges j = none) :
    Local {toId i} g (createdAt g kind mode i p j name) := by
  refine ⟨fun _ _ hb => hb, fun id hid => ⟨?_, ?_, fun _ _ _ => Iff.rfl⟩⟩
  · have hne : id ≠ toId i := hid
    have hupdate : (createdAt g kind mode i p j name).inodes =
        update g.inodes i (some (.fresh kind mode)) := rfl
    rw [Graph.inode_update hupdate, if_neg hne]
  · intro k e he
    by_cases hk : k = j
    · rw [hk, createdAt_edges_self, hj, Option.some.injEq]
      constructor
      · rintro rfl
        exact absurd he.symm hid
      · intro hnone
        cases hnone
    · rw [createdAt_edges_ne hk]

theorem local_created {kind : Kind} {id : ℤ} (h : createNode kind g p name mode = (g', .ok id)) :
    Local {id} g g' ∧ g.inode id = none ∧ ∃ i : Fin maxInodes, id = toId i := by
  have hcreated := createNode_created kind g p name mode
  rw [h] at hcreated
  cases hcreated with
  | created i j _ _ _ _ hi hj =>
    exact ⟨local_createdAt hj, by rw [Graph.inode_toId, hi], i, rfl⟩

theorem local_setEdge_none (he : g.edges i = some e) : Local {e.childId} g (g.setEdge i none) := by
  refine ⟨fun _ _ hb => hb, fun id hid => ⟨rfl, ?_, fun _ _ _ => Iff.rfl⟩⟩
  intro k e' he'
  by_cases hk : k = i
  · subst hk
    rw [he, Option.some.injEq]
    simp only [Graph.setEdge, update_self]
    constructor
    · intro hnone
      cases hnone
    · rintro rfl
      exact absurd he'.symm hid
  · simp only [Graph.setEdge, update_of_ne hk]

theorem local_setInode (g : Graph) (c : Fin maxInodes) (x : Option Inode) :
    Local {toId c} g (g.setInode c x) := by
  refine ⟨fun _ _ hb => hb, fun id hid => ⟨?_, fun _ _ _ => Iff.rfl, fun _ _ _ => Iff.rfl⟩⟩
  have hne : id ≠ toId c := hid
  rw [Graph.inode_setInode, if_neg hne]

theorem local_freeFileStorage (g : Graph) (c : Fin maxInodes) :
    Local {toId c} g (freeFileStorage g (toId c)) := by
  have hrefl : Local {toId c} g g := (local_same (.refl g)).mono (Set.empty_subset _)
  unfold freeFileStorage
  cases g.inode (toId c) with
  | none => exact hrefl
  | some n =>
    simp only [freeInode, ofId_toId]
    have hdrop : Local {toId c} g (dropBlocks g (toId c)) := by
      refine ⟨fun i b hb => (dropBlocks_blocks.mp hb).1, fun id hid => ⟨rfl, fun _ _ _ => Iff.rfl, ?_⟩⟩
      intro i b hb
      rw [dropBlocks_blocks]
      exact and_iff_left fun hc => hid (hb.symm.trans hc)
    have hboth := hdrop.trans (local_setInode (dropBlocks g (toId c)) c none)
    rwa [Set.union_self] at hboth

theorem local_dropLink (g : Graph) (c : Fin maxInodes) : Local {toId c} g (dropLink g c) := by
  unfold dropLink
  rcases g.inodes c with _ | n
  · exact (local_same (.refl g)).mono (Set.empty_subset _)
  simp only
  split_ifs
  · exact local_setInode ..
  · exact local_setInode ..
  · have hboth := (local_setInode g c (some { n with nlink := n.nlink - 1 })).trans
      (local_freeFileStorage _ c)
    rwa [Set.union_self] at hboth

theorem unlink_ok (h : unlink g p name = (g', .ok ())) :
    ∃ i c, checkDir g p = none ∧ findEdge g p name = some i ∧
      g.edges i = some ⟨p, toId c, name⟩ ∧ (g.inodes c).map (·.kind) ≠ some .dir ∧
      g' = dropLink (g.setEdge i none) c := by
  have hu := unlink_unlinked g p name
  rw [h] at hu
  cases hu with
  | unlinked i c hdir hfind hedge hkind =>
    obtain ⟨n, hn, hk⟩ := hdir
    have hcheck : checkDir g p = none := by simp [checkDir, hn, hk]
    exact ⟨i, c, hcheck, hfind, hedge, hkind, rfl⟩

theorem local_unlinked (h : unlink g p name = (g', .ok ())) :
    ∃ i c, findEdge g p name = some i ∧ g.edges i = some ⟨p, c, name⟩ ∧
      (g.inode c).map (·.kind) ≠ some .dir ∧ Local {c} g g' := by
  obtain ⟨i, c, -, hfind, hedge, hkind, rfl⟩ := unlink_ok h
  have hboth := (local_setEdge_none hedge).trans (local_dropLink (g.setEdge i none) c)
  rw [Set.union_self] at hboth
  exact ⟨i, toId c, hfind, hedge, by rwa [Graph.inode_toId], hboth⟩

theorem unlink_edges (h : unlink g p name = (g', .ok ())) {tgt : Fin maxEdges}
    (hfind : findEdge g p name = some tgt) (he : g'.edges i = some e) :
    g.edges i = some e ∧ i ≠ tgt := by
  obtain ⟨k, c, -, hk, -, -, rfl⟩ := unlink_ok h
  rw [hfind, Option.some.injEq] at hk
  subst hk
  rw [dropLink_edges] at he
  change update g.edges tgt none i = some e at he
  have hne : i ≠ tgt := by
    rintro rfl
    rw [update_self] at he
    cases he
  rw [update_of_ne hne] at he
  exact ⟨he, hne⟩

theorem local_removed (h : rmdir g p name = (g', .ok ())) :
    ∃ i c, findEdge g p name = some i ∧ g.edges i = some ⟨p, c, name⟩ ∧
      (g.inode c).map (·.kind) = some .dir ∧ dirHasChildren g c = false ∧ Local {c} g g' := by
  have hr := rmdir_removed g p name
  rw [h] at hr
  cases hr with
  | removed i c _ hfind hedge hkind hempty =>
    have hboth := (local_setEdge_none hedge).trans (local_setInode (g.setEdge i none) c none)
    rw [Set.union_self] at hboth
    exact ⟨i, toId c, hfind, hedge, by rwa [Graph.inode_toId], hempty, hboth⟩

theorem local_renamedAt {old : Fin maxEdges} {c : ℤ} (hold : g.edges old = some ⟨pSrc, c, oldName⟩)
    (hj : g.edges j = none) : Local {c} g (renamedAt g old j ⟨pDst, c, newName⟩) := by
  have hedges : (renamedAt g old j ⟨pDst, c, newName⟩).edges =
      update (update g.edges j (some ⟨pDst, c, newName⟩)) old none := rfl
  refine ⟨fun _ _ hb => hb, fun id hid => ⟨rfl, ?_, fun _ _ _ => Iff.rfl⟩⟩
  intro k e he
  have hne : ∀ p name, e ≠ ⟨p, c, name⟩ := by
    rintro p name rfl
    exact hid he.symm
  rw [hedges]
  by_cases hk : k = old
  · rw [hk, update_self, hold, Option.some.injEq]
    exact ⟨nofun, fun heq => absurd heq.symm (hne _ _)⟩
  rw [update_of_ne hk]
  by_cases hkj : k = j
  · rw [hkj, update_self, hj, Option.some.injEq]
    exact ⟨fun heq => absurd heq.symm (hne _ _), nofun⟩
  · rw [update_of_ne hkj]

theorem local_renamed (h : rename g pSrc oldName pDst newName = (g', .ok ())) :
    ∃ old c, findEdge g pSrc oldName = some old ∧ g.edges old = some ⟨pSrc, c, oldName⟩ ∧
      checkDir g pDst = none ∧ checkNames oldName newName = none ∧ Local {c} g g' := by
  have hguards : checkDir g pDst = none ∧ checkNames oldName newName = none := by
    unfold rename at h
    split at h
    · cases h
    rename_i hnames
    split at h
    · cases h
    split at h
    · cases h
    rename_i hdst
    exact ⟨hdst, hnames⟩
  have hr := rename_renamed g pSrc oldName pDst newName
  rw [h] at hr
  cases hr with
  | renamed old j c _ _ _ hfind hedge _ hj =>
    exact ⟨old, c, hfind, hedge, hguards.1, hguards.2, local_renamedAt hedge hj⟩

end SotOs.Sotfs

namespace SotOs.Lucas
open Sotfs

structure NodeKept (s s' : Fs) (id : ℤ) : Prop where
  inode : (s'.graph.inode id).map Inode.face = (s.graph.inode id).map Inode.face
  edges : ∀ i e, e.childId = id → (s'.graph.edges i = some e ↔ s.graph.edges i = some e)
  pages : ∀ off, pageAt s'.graph s'.dev id off = pageAt s.graph s.dev id off

structure Kept (T : Set ℤ) (s s' : Fs) : Prop where
  inv : FsInv s'
  nodes : ∀ id, id ∉ T → NodeKept s s' id

theorem NodeKept.refl (s : Fs) (id : ℤ) : NodeKept s s id :=
  ⟨rfl, fun _ _ _ => Iff.rfl, fun _ => rfl⟩

variable {s₁ s₂ s₃ s' : Fs} {T T' : Set ℤ} {env : Env} {p : ℤ} {name : Name} {mode : UInt32}
  {g' : Graph} {path : List UInt8}

theorem NodeKept.trans {id : ℤ} (h : NodeKept s₁ s₂ id) (h' : NodeKept s₂ s₃ id) :
    NodeKept s₁ s₃ id :=
  ⟨h'.inode.trans h.inode, fun i e he => (h'.edges i e he).trans (h.edges i e he),
    fun off => (h'.pages off).trans (h.pages off)⟩

variable {s : Fs}

theorem Kept.refl (h : FsInv s) : Kept ∅ s s := ⟨h, fun id _ => .refl s id⟩

theorem Kept.trans (h : Kept T s₁ s₂) (h' : Kept T' s₂ s₃) : Kept (T ∪ T') s₁ s₃ := by
  refine ⟨h'.inv, fun id hid => ?_⟩
  rw [Set.mem_union, not_or] at hid
  exact (h.nodes id hid.1).trans (h'.nodes id hid.2)

theorem Kept.mono (h : Kept T s s') (hT : T ⊆ T') : Kept T' s s' :=
  ⟨h.inv, fun id hid => h.nodes id fun hmem => hid (hT hmem)⟩

theorem Kept.then (h : Kept T s₁ s₂) (h' : Kept ∅ s₂ s₃) : Kept T s₁ s₃ := by
  have hboth := h.trans h'
  rwa [Set.union_empty] at hboth

theorem FsInv.graph (h : FsInv s) (hdev : s'.dev = s.dev) (hg : Local T s.graph s'.graph) :
    Kept T s s' := by
  refine ⟨⟨?_, ?_, ?_⟩, fun id hid => ?_⟩
  · rw [hdev]
    exact h.store.of_subset hg.within
  · rw [hdev]
    exact h.heap
  · rw [hdev]
    exact h.image
  · have hsame := hg.others id hid
    refine ⟨hsame.inode, hsame.edges, fun off => ?_⟩
    rw [hdev]
    exact pageAt_congr hsame.blocks (.refl _) (fun _ _ _ _ _ => rfl) off

theorem FsInv.tables (h : FsInv s) (hdev : s'.dev = s.dev) (hg : s'.graph = s.graph) :
    Kept ∅ s s' := by
  apply h.graph hdev
  rw [hg]
  exact local_same (.refl s.graph)

theorem FsInv.moved (h : FsInv s) (hdev : Stored s.dev s'.dev s.dev.view)
    (hg : s'.graph = s.graph) : Kept ∅ s s' := by
  have hstore := h.store.stored hdev
  refine ⟨⟨hg ▸ hstore, ?_, ?_⟩, fun id _ => ?_⟩
  · rw [hdev.device.heapOff]
    exact h.heap
  · rw [hdev.device.capacity]
    exact h.image
  · refine ⟨by rw [hg], fun i e _ => by rw [hg], fun off => ?_⟩
    rw [hg]
    exact pageAt_stored hdev

theorem FsInv.logged (h : FsInv s) (env : Env) (record : UInt64 → UInt64 → Record)
    (hroom : (s.log env record).wal.cursor ≤ walEnd) : Kept ∅ s (s.log env record) :=
  h.moved (h.log_stored env record hroom) rfl

theorem FsInv.loggedUnlessSession (h : FsInv s) {record : UInt64 → UInt64 → Record}
    (hroom : (s.logUnlessSession env record).wal.cursor ≤ walEnd) :
    Kept ∅ s (s.logUnlessSession env record) := by
  unfold Fs.logUnlessSession at hroom ⊢
  split_ifs at hroom ⊢
  · exact h.logged env record hroom
  · exact .refl h

theorem FsInv.stampedCreate (h : FsInv s) (env : Env) (id : ℤ) :
    Kept ∅ s (s.stampCreate env id) :=
  h.graph rfl (local_modifyInode_face _ _ fun _ => rfl)

theorem FsInv.stampedWrite (h : FsInv s) (env : Env) (id : ℤ) :
    Kept ∅ s (s.stampWrite env id) :=
  h.graph rfl (local_modifyInode_face _ _ fun _ => rfl)

theorem FsInv.hinted (h : FsInv s) (env : Env) (id : ℤ) :
    Kept ∅ s (s.applyPendingHint env id) := by
  unfold Fs.applyPendingHint
  split_ifs
  · exact h.graph rfl (local_modifyInode_face _ _ fun _ => rfl)
  · exact .refl h

theorem FsInv.written (h : FsInv s) {id : ℤ} {off : ℕ} {buf : List UInt8}
    (hg : s'.graph = (fileWrite s.graph s.dev id off buf).1)
    (hdev : s'.dev = (fileWrite s.graph s.dev id off buf).2.1) : Kept {id} s s' := by
  have hkept := fileWrite_kept h.store id off buf
  have hsame := fileWrite_same s.graph s.dev id off buf
  have hwritten := fileWrite_written s.graph s.dev id off buf
  rw [← hg, ← hdev] at hkept
  rw [← hdev] at hsame
  refine ⟨⟨hkept.inv, ?_, ?_⟩, fun id' hid => ?_⟩
  · rw [hsame.heapOff]
    exact h.heap
  · rw [hsame.capacity]
    exact h.image
  have hne : id' ≠ id := hid
  have htables : s'.graph.inode id' = s.graph.inode id' ∧ s'.graph.edges = s.graph.edges := by
    rw [hg]
    generalize fileWrite s.graph s.dev id off buf = out at hwritten ⊢
    cases hwritten with
    | nothing rc => exact ⟨rfl, rfl⟩
    | cut n _ _ g' d' hrounds rc =>
      have hframe := rounds_frame hrounds
      exact ⟨Graph.inode_congr hframe.inodes id', hframe.edges⟩
    | whole n _ _ g' d' hrounds size written =>
      have hframe := rounds_frame hrounds
      refine ⟨?_, (modifyInode_edges ..).trans hframe.edges⟩
      rw [Graph.inode_modifyInode, if_neg hne]
      exact Graph.inode_congr hframe.inodes id'
  exact ⟨by rw [htables.1], fun i e _ => by rw [htables.2], hkept.pages id' hne⟩

theorem FsInv.addNode (h : FsInv s) {kind : Kind} {id : ℤ}
    (hcreate : createNode kind s.graph p name mode = (g', .ok id))
    (hroom : (s.addNode env kind p name mode g' id).wal.cursor ≤ walEnd) :
    Kept {id} s (s.addNode env kind p name mode g' id) := by
  have hgraph : Kept {id} s { s with graph := g' } := h.graph rfl (local_created hcreate).1
  have hlog := hgraph.inv.loggedUnlessSession (by
    unfold Fs.addNode at hroom
    rwa [tag_wal] at hroom)
  have hstamp := hlog.inv.stampedCreate env id
  have htag : Kept ∅ _ (s.addNode env kind p name mode g' id) :=
    hstamp.inv.tables (tag_dev ..) (tag_graph ..)
  exact ((hgraph.then hlog).then hstamp).then htag

theorem FsInv.tried (h : FsInv s) {kind : Kind} {e : Err}
    (hcreate : createNode kind s.graph p name mode = (g', .error e)) :
    Kept ∅ s { s with graph := g' } := by
  have hcreated := createNode_created kind s.graph p name mode
  rw [hcreate] at hcreated
  cases hcreated with
  | failed _ _ hsame => exact h.graph rfl (local_same hsame)

theorem NodeStep.cursor_le (h : NodeStep env s s') : s.wal.cursor ≤ s'.wal.cursor := by
  cases h with
  | made kind p name mode g' id _ _ _ =>
    unfold Fs.addNode
    rw [tag_wal]
    exact logUnlessSession_cursor_le { s with graph := g' } env _
  | tried => exact Nat.le_refl _
  | hinted id =>
    unfold Fs.applyPendingHint
    split_ifs <;> exact Nat.le_refl _

theorem NodeSteps.induction {P : Fs → Prop} {s : Fs} (h : NodeSteps env s s')
    (hroom : s'.wal.cursor ≤ walEnd) (hs : P s)
    (hstep : ∀ s₁ s₂, NodeStep env s₁ s₂ → s₂.wal.cursor ≤ walEnd → P s₁ → P s₂) : P s' := by
  induction h with
  | refl => exact hs
  | tail _ hlast ih => exact hstep _ _ hlast hroom (ih (hlast.cursor_le.trans hroom))

def unlinkTargets (env : Env) (root : ℤ) (path : List UInt8) (s : Fs) : Set ℤ :=
  {c | ∃ p leaf tgt, named s.graph root path = some (p, leaf) ∧
    findEdge s.graph p leaf = some tgt ∧ s.graph.edges tgt = some ⟨p, c, leaf⟩ ∧
    (s.graph.inode c).map (·.kind) ≠ some .dir ∧
    (env.isolated = true → env.session ≠ 0 →
      sessionOwner s.sessions (Slots.toId tgt) = env.session)}

variable (root : ℤ)

def rmdirTargets (path : List UInt8) (s : Fs) : Set ℤ :=
  {c | ∃ p leaf tgt, named s.graph root path = some (p, leaf) ∧
    findEdge s.graph p leaf = some tgt ∧ s.graph.edges tgt = some ⟨p, c, leaf⟩ ∧
    (s.graph.inode c).map (·.kind) = some .dir ∧ dirHasChildren s.graph c = false}

def ontoDir (g : Graph) (pDst : ℤ) (dleaf : Name) : Prop :=
  ∃ tgt e, findEdge g pDst dleaf = some tgt ∧ g.edges tgt = some e ∧
    (g.inode e.childId).map (·.kind) = some .dir

def renameDstTargets (oldpath newpath : List UInt8) (s : Fs) : Set ℤ :=
  {c | ∃ pSrc sleaf pDst dleaf tgt,
    RenamePaths s.graph root oldpath newpath pSrc sleaf pDst dleaf ∧
    findEdge s.graph pDst dleaf = some tgt ∧ s.graph.edges tgt = some ⟨pDst, c, dleaf⟩ ∧
    (s.graph.inode c).map (·.kind) ≠ some .dir}

def renameSrcTargets (oldpath newpath : List UInt8) (s : Fs) : Set ℤ :=
  {c | ∃ pSrc sleaf pDst dleaf old,
    RenamePaths s.graph root oldpath newpath pSrc sleaf pDst dleaf ∧
    s.graph.edges old = some ⟨pSrc, c, sleaf⟩ ∧ findEdge s.graph pDst dleaf ≠ some old ∧
    checkDir s.graph pDst = none ∧ checkNames sleaf dleaf = none ∧ ¬ontoDir s.graph pDst dleaf}

theorem UnlinkDone.kept {root : ℤ} {s : Fs} (hd : UnlinkDone env root path s s') (h : FsInv s)
    (hroom : s'.wal.cursor ≤ walEnd) :
    Kept (unlinkTargets env root path s) s s' ∧
      ∀ id, sessionOwner s'.sessions id = sessionOwner s.sessions id := by
  cases hd with
  | same => exact ⟨(Kept.refl h).mono (Set.empty_subset _), fun _ => rfl⟩
  | @unlinked p leaf g' sessions hnamed hunlink howner hcheck =>
    obtain ⟨tgt, c, hfind, hedge, hkind, hlocal⟩ := local_unlinked hunlink
    have hgraph : Kept {c} s { s with graph := g', sessions } := h.graph rfl hlocal
    have hlog := hgraph.inv.loggedUnlessSession hroom
    refine ⟨(hgraph.then hlog).mono ?_, fun id => ?_⟩
    · rintro c' rfl
      refine ⟨p, leaf, tgt, hnamed, hfind, hedge, hkind, fun hiso hsess => ?_⟩
      obtain ⟨tgt', hfind', hmine⟩ := hcheck hiso hsess
      rw [hfind, Option.some.injEq] at hfind'
      rw [hfind', hmine]
    · rw [logUnlessSession_sessions]
      exact howner id

theorem rmdir_target {root : ℤ} {s : Fs} {leaf : Name}
    (hnamed : named s.graph root path = some (p, leaf))
    (hrmdir : rmdir s.graph p leaf = (g', .ok ())) :
    ∃ c ∈ rmdirTargets root path s, Local {c} s.graph g' := by
  obtain ⟨tgt, c, hfind, hedge, hkind, hempty, hlocal⟩ := local_removed hrmdir
  exact ⟨c, ⟨p, leaf, tgt, hnamed, hfind, hedge, hkind, hempty⟩, hlocal⟩

theorem RmdirDone.kept {root : ℤ} {s : Fs} (hd : RmdirDone env root path s s') (h : FsInv s)
    (hroom : s'.wal.cursor ≤ walEnd) :
    Kept (rmdirTargets root path s) s s' ∧ s'.sessions = s.sessions := by
  cases hd with
  | same => exact ⟨(Kept.refl h).mono (Set.empty_subset _), rfl⟩
  | @removed p leaf g' hnamed hrmdir =>
    obtain ⟨c, hc, hlocal⟩ := rmdir_target hnamed hrmdir
    have hgraph : Kept {c} s { s with graph := g' } := h.graph rfl hlocal
    have hlog := hgraph.inv.logged env _ hroom
    exact ⟨(hgraph.then hlog).mono (Set.singleton_subset_iff.mpr hc), log_sessions ..⟩

section
variable {root : ℤ} {oldpath newpath : List UInt8} {s : Fs} {pSrc pDst : ℤ} {sleaf dleaf : Name}

theorem rename_dst_target (hpaths : RenamePaths s.graph root oldpath newpath pSrc sleaf pDst dleaf)
    (hunlink : unlink s.graph pDst dleaf = (g', .ok ())) :
    ∃ c ∈ renameDstTargets root oldpath newpath s, Local {c} s.graph g' := by
  obtain ⟨tgt, c, hfind, hedge, hkind, hlocal⟩ := local_unlinked hunlink
  exact ⟨c, ⟨pSrc, sleaf, pDst, dleaf, tgt, hpaths, hfind, hedge, hkind⟩, hlocal⟩

theorem rename_src_target (hpaths : RenamePaths s.graph root oldpath newpath pSrc sleaf pDst dleaf)
    (hfree : findEdge s.graph pDst dleaf = none)
    (hren : rename s.graph pSrc sleaf pDst dleaf = (g', .ok ())) :
    ∃ c ∈ renameSrcTargets root oldpath newpath s, Local {c} s.graph g' := by
  obtain ⟨old, c, hfind, hedge, hdir, hnames, hlocal⟩ := local_renamed hren
  refine ⟨c, ⟨pSrc, sleaf, pDst, dleaf, old, hpaths, hedge, ?_, hdir, hnames, ?_⟩, hlocal⟩
  · rw [hfree]
    exact nofun
  · rintro ⟨tgt, e, htgt, -⟩
    rw [hfree] at htgt
    cases htgt

theorem rename_over_target {g'' : Graph}
    (hpaths : RenamePaths s.graph root oldpath newpath pSrc sleaf pDst dleaf)
    (hunlink : unlink s.graph pDst dleaf = (g', .ok ()))
    (hren : rename g' pSrc sleaf pDst dleaf = (g'', .ok ())) :
    ∃ c ∈ renameSrcTargets root oldpath newpath s, Local {c} g' g'' := by
  obtain ⟨old, c, -, hedge, -, hnames, hlocal⟩ := local_renamed hren
  obtain ⟨tgt, c₀, hfind, hedge₀, hkind, -⟩ := local_unlinked hunlink
  obtain ⟨-, -, hdir, -⟩ := unlink_ok hunlink
  obtain ⟨hold, hne⟩ := unlink_edges hunlink hfind hedge
  refine ⟨c, ⟨pSrc, sleaf, pDst, dleaf, old, hpaths, hold, ?_, hdir, hnames, ?_⟩, hlocal⟩
  · rw [hfind]
    exact fun heq => hne (Option.some.inj heq).symm
  · rintro ⟨tgt', e, htgt', he, hedir⟩
    rw [hfind, Option.some.injEq] at htgt'
    rw [← htgt', hedge₀, Option.some.injEq] at he
    rw [← he] at hedir
    exact hkind hedir

end

theorem RenameDone.kept {root : ℤ} {oldpath newpath : List UInt8} {s : Fs}
    (hd : RenameDone env root oldpath newpath s s') (h : FsInv s) (hroom : s'.wal.cursor ≤ walEnd) :
    Kept (renameDstTargets root oldpath newpath s ∪ renameSrcTargets root oldpath newpath s) s s' ∧
      ∀ id, sessionOwner s'.sessions id = sessionOwner s.sessions id := by
  cases hd with
  | same => exact ⟨(Kept.refl h).mono (Set.empty_subset _), fun _ => rfl⟩
  | @moved pSrc sleaf pDst dleaf g' hpaths hfree hren =>
    obtain ⟨c, hc, hlocal⟩ := rename_src_target hpaths hfree hren
    have hgraph : Kept {c} s { s with graph := g' } := h.graph rfl hlocal
    have hlog := hgraph.inv.logged env _ hroom
    refine ⟨(hgraph.then hlog).mono ?_, fun _ => by rw [log_sessions]⟩
    exact Set.singleton_subset_iff.mpr (.inr hc)
  | @lost pSrc sleaf pDst dleaf g' e hpaths hunlink hren =>
    obtain ⟨c, hc, hlocal⟩ := rename_dst_target hpaths hunlink
    have hgraph : Kept {c} s { s with graph := g' } := h.graph rfl hlocal
    exact ⟨hgraph.mono (Set.singleton_subset_iff.mpr (.inl hc)), fun _ => rfl⟩
  | @replaced pSrc sleaf pDst dleaf g' g'' sessions hpaths hunlink hren howner =>
    obtain ⟨c, hc, hlocal⟩ := rename_dst_target hpaths hunlink
    obtain ⟨c', hc', hlocal'⟩ := rename_over_target hpaths hunlink hren
    let s₁ : Fs := { s with graph := g'' }
    let s₂ : Fs := s₁.log env fun tx now => unlinkRecord tx now pDst dleaf
    let s₃ : Fs := s₂.log env fun tx now => renameRecord tx now pSrc sleaf pDst dleaf
    have hgraph : Kept ({c} ∪ {c'}) s s₁ := h.graph rfl (hlocal.trans hlocal')
    have hroom₃ : s₃.wal.cursor ≤ walEnd := hroom
    have hroom₂ : s₂.wal.cursor ≤ walEnd := (log_cursor_le s₂ env _).trans hroom₃
    have hlog : Kept ∅ s₁ s₂ := hgraph.inv.logged env _ hroom₂
    have hlog' : Kept ∅ s₂ s₃ := hlog.inv.logged env _ hroom₃
    have htables : Kept ∅ s₃ { s₃ with sessions } := hlog'.inv.tables rfl rfl
    refine ⟨(((hgraph.then hlog).then hlog').then htables).mono ?_, howner⟩
    exact Set.union_subset_union (Set.singleton_subset_iff.mpr hc) (Set.singleton_subset_iff.mpr hc')

end SotOs.Lucas
