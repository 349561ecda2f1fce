import SotOs.Lib.Rooted
import SotOs.Sotfs.WellFormed

/-! The shape of the file graph: a tree below its root, through every rule except a rename that
hangs a directory below itself. -/

namespace SotOs.Sotfs
open Relation Machine Function
variable {g g' : Graph}

def Graph.Child (g : Graph) (p c : ℤ) : Prop :=
  ∃ i e, g.edges i = some e ∧ e.parentId = p ∧ e.childId = c

structure TreeShaped (g : Graph) : Prop where
  acyclic : ∀ id, ¬TransGen g.Child id id
  reachable : ∀ id n, g.inode id = some n → n.orphan = false → ReflTransGen g.Child g.rootId id

structure TreeInv (g : Graph) : Prop extends GraphInv g where
  grounded : Rooted.Grounded g.Child g.rootId

theorem GraphInv.single_parent (h : GraphInv g) (p q c : ℤ) (hp : g.Child p c) (hq : g.Child q c) :
    p = q := by
  obtain ⟨i, e, he, rfl, hc⟩ := hp
  obtain ⟨j, e', he', rfl, hc'⟩ := hq
  obtain rfl := h.child_inj he he' (hc.trans hc'.symm)
  rw [Option.some.inj (he.symm.trans he')]

theorem GraphInv.root_no_parent (h : GraphInv g) (p : ℤ) : ¬g.Child p g.rootId := by
  rintro ⟨i, e, he, -, hc⟩
  exact h.root_free i e he hc

theorem TreeInv.below (h : TreeInv g) {id : ℤ} {n : Inode} (hn : g.inode id = some n)
    (horphan : n.orphan = false) : ReflTransGen g.Child g.rootId id := by
  by_cases hid : id = g.rootId
  · rw [hid]
  · obtain ⟨i, ⟨e, he, hc⟩, -⟩ := h.one_edge id n hn hid horphan
    exact h.grounded e.parentId id ⟨i, e, he, rfl, hc⟩

theorem TreeInv.treeShaped (h : TreeInv g) : TreeShaped g :=
  ⟨h.grounded.acyclic h.single_parent h.root_no_parent, fun _ _ => h.below⟩

theorem TreeShaped.treeInv (ht : TreeShaped g) (h : GraphInv g) : TreeInv g := by
  refine ⟨h, ?_⟩
  rintro p c ⟨i, e, he, -, rfl⟩
  obtain ⟨n, hn⟩ := h.child_live i e he
  exact ht.reachable _ n hn (h.child_not_orphan he hn)

theorem TreeInv.dir_below (h : TreeInv g) {id : ℤ} (hdir : ∃ n, g.inode id = some n ∧ n.kind = .dir) :
    ReflTransGen g.Child g.rootId id := by
  obtain ⟨n, hn, hk⟩ := hdir
  apply h.below hn
  by_contra horphan
  exact h.orphan_kind id n hn (by simpa using horphan) hk

theorem child_congr (hedges : g'.edges = g.edges) (x y : ℤ) : g'.Child x y ↔ g.Child x y := by
  unfold Graph.Child
  rw [hedges]

variable {mode : UInt32} {p c pSrc pDst : ℤ} {j : Fin maxEdges} {name oldName newName : Name}
  {rc : Except Err Unit} {s : Graph × Blkdev}

theorem child_createdAt {kind : Kind} {i : Fin maxInodes} (hj : g.edges j = none) (x y : ℤ) :
    (createdAt g kind mode i p j name).Child x y ↔ g.Child x y ∨ x = p ∧ y = Slots.toId i := by
  constructor
  · rintro ⟨k, e, he, rfl, rfl⟩
    by_cases hkj : k = j
    · obtain rfl : (⟨p, Slots.toId i, name⟩ : Edge) = e := by
        rw [hkj] at he
        simpa [createdAt] using he
      exact .inr ⟨rfl, rfl⟩
    · exact .inl ⟨k, e, by simpa [createdAt, update_of_ne hkj] using he, rfl, rfl⟩
  · rintro (⟨k, e, he, rfl, rfl⟩ | ⟨rfl, rfl⟩)
    · have hkj : k ≠ j := by
        rintro rfl
        rw [hj] at he
        cases he
      exact ⟨k, e, by simpa [createdAt, update_of_ne hkj] using he, rfl, rfl⟩
    · exact ⟨j, _, update_self .., rfl, rfl⟩

theorem child_without (hedges : ∀ i e, g'.edges i = some e ↔ g.edges i = some e ∧ e.childId ≠ c)
    (x y : ℤ) : g'.Child x y ↔ g.Child x y ∧ y ≠ c := by
  constructor
  · rintro ⟨i, e, he, rfl, rfl⟩
    obtain ⟨he, hc⟩ := (hedges i e).mp he
    exact ⟨⟨i, e, he, rfl, rfl⟩, hc⟩
  · rintro ⟨⟨i, e, he, rfl, rfl⟩, hc⟩
    exact ⟨i, e, (hedges i e).mpr ⟨he, hc⟩, rfl, rfl⟩

theorem GraphInv.child_renamedAt (h : GraphInv g) {old : Fin maxEdges}
    (hold : g.edges old = some ⟨pSrc, c, oldName⟩) (hj : g.edges j = none) :
    Rooted.Moved g.Child (renamedAt g old j ⟨pDst, c, newName⟩).Child c pDst := by
  have hne : j ≠ old := by
    rintro rfl
    rw [hj] at hold
    cases hold
  intro x y
  constructor
  · rintro ⟨k, e, he, rfl, rfl⟩
    by_cases hko : k = old
    · simp [renamedAt, hko] at he
    simp only [renamedAt, update_of_ne hko] at he
    by_cases hkj : k = j
    · rw [hkj, update_self] at he
      obtain ⟨⟩ := he
      exact .inr ⟨rfl, rfl⟩
    · rw [update_of_ne hkj] at he
      exact .inl ⟨⟨k, e, he, rfl, rfl⟩, fun hc => hko (h.child_inj he hold hc)⟩
  · rintro (⟨⟨k, e, he, rfl, rfl⟩, hc⟩ | ⟨rfl, rfl⟩)
    · have hko : k ≠ old := by
        rintro rfl
        rw [hold] at he
        obtain ⟨⟩ := he
        exact hc rfl
      have hkj : k ≠ j := by
        rintro rfl
        rw [hj] at he
        cases he
      refine ⟨k, e, ?_, rfl, rfl⟩
      simp only [renamedAt, update_of_ne hko, update_of_ne hkj, he]
    · refine ⟨j, ⟨x, y, newName⟩, ?_, rfl, rfl⟩
      simp only [renamedAt, update_of_ne hne, update_self]

theorem TreeInv.same (h : TreeInv g) (hinv : GraphInv g') (hedges : g'.edges = g.edges)
    (hroot : g'.rootId = g.rootId) : TreeInv g' := by
  refine ⟨hinv, ?_⟩
  rw [hroot]
  exact h.grounded.congr (child_congr hedges)

theorem Created.treeInv {kind : Kind} {rc : Except Err ℤ} (hc : Created kind g p name mode g' rc)
    (h : TreeInv g) : TreeInv g' := by
  have hinv := hc.inv h.toGraphInv
  cases hc with
  | failed _ _ hsame => exact h.same hinv hsame.edges hsame.rootId
  | created i j _ _ hdir _ _ hj =>
    refine ⟨hinv, h.grounded.grow ?_ ?_⟩
    · exact fun x y hxy => (child_createdAt hj x y).mpr (.inl hxy)
    · intro x y hxy
      rcases (child_createdAt hj x y).mp hxy with hold | ⟨rfl, -⟩
      · exact .inl hold
      · exact .inr (h.dir_below hdir)

theorem TreeInv.removed (h : TreeInv g) (hinv : GraphInv g') {i : Fin maxEdges} {e : Edge}
    (he : g.edges i = some e) (hleaf : ∀ y, ¬g.Child e.childId y)
    (hedges : g'.edges = (g.setEdge i none).edges) (hroot : g'.rootId = g.rootId) : TreeInv g' := by
  refine ⟨hinv, ?_⟩
  rw [hroot]
  apply h.grounded.prune hleaf
  apply child_without
  intro k e'
  rw [hedges]
  exact h.edges_without he k e'

theorem Unlinked.treeInv (hu : Unlinked g p name g' rc) (h : TreeInv g) : TreeInv g' := by
  have hinv := hu.inv h.toGraphInv
  cases hu with
  | failed => exact h
  | unlinked i c _ _ hedge hkind =>
    refine h.removed hinv hedge ?_ (dropLink_edges ..) (dropLink_rootId ..)
    -- a parent is a directory, the child is none
    rintro y ⟨k, e, he, hp, -⟩
    obtain ⟨n, hn, hk⟩ := h.parent_dir k e he
    rw [hp, Graph.inode_toId] at hn
    simp [hn, hk] at hkind

theorem RemovedDir.treeInv (hr : RemovedDir g p name g' rc) (h : TreeInv g) : TreeInv g' := by
  have hinv := hr.inv h.toGraphInv
  cases hr with
  | failed => exact h
  | removed i c _ _ hedge _ hempty =>
    refine h.removed hinv hedge ?_ rfl rfl
    rintro y ⟨k, e, he, hp, -⟩
    exact dirHasChildren_false hempty he hp

def HangsBelowItself (g : Graph) (pSrc : ℤ) (oldName : Name) (pDst : ℤ) (newName : Name) : Prop :=
  checkNames oldName newName = none ∧ checkDir g pDst = none ∧ findEdge g pDst newName = none ∧
    ∃ i e, findEdge g pSrc oldName = some i ∧ g.edges i = some e ∧
      ReflTransGen g.Child e.childId pDst

theorem GraphInv.rename_ok_of (h : GraphInv g)
    (hhang : HangsBelowItself g pSrc oldName pDst newName) :
    (rename g pSrc oldName pDst newName).2 = .ok () := by
  obtain ⟨hnames, hdst, hfree, i, e, hfind, he, -⟩ := hhang
  rw [rename_ok_iff h.free_edge, hfind]
  refine ⟨hnames, ?_, hdst, rfl, hfree⟩
  obtain ⟨e', he', hp, -⟩ := findEdge_some hfind
  obtain ⟨n, hn, hk⟩ := h.parent_dir i e' he'
  rw [hp] at hn
  simp [checkDir, hn, hk]

theorem Renamed.treeInv (hr : Renamed g pSrc oldName pDst newName g' rc) (h : TreeInv g)
    (hrc : rc = (rename g pSrc oldName pDst newName).2)
    (hsafe : ¬HangsBelowItself g pSrc oldName pDst newName) : TreeInv g' := by
  have hinv := hr.inv h.toGraphInv
  cases hr with
  | failed => exact h
  | renamed old j c hsrc hdst hnew hfind hedge hfree hj =>
    refine ⟨hinv, h.grounded.move (h.child_renamedAt hedge hj) (h.dir_below hdst) ?_⟩
    intro hbelow
    obtain ⟨hnames, -, hdir, -⟩ := (rename_ok_iff ⟨j, hj⟩ ..).mp hrc.symm
    exact hsafe ⟨hnames, hdir, hfree, old, _, hfind, hedge, hbelow⟩

theorem Renamed.not_treeShaped (hr : Renamed g pSrc oldName pDst newName g' rc) (h : TreeInv g)
    (hrc : rc = (rename g pSrc oldName pDst newName).2)
    (hhang : HangsBelowItself g pSrc oldName pDst newName) : ¬TreeShaped g' := by
  have hok := h.rename_ok_of hhang
  obtain ⟨-, -, -, i, e, hfind', he, hbelow⟩ := hhang
  cases hr with
  | failed =>
    rw [hok] at hrc
    cases hrc
  | renamed old j c hsrc hdst hnew hfind hedge hfree hj =>
    obtain rfl := Option.some.inj (hfind'.symm.trans hfind)
    rw [hedge] at he
    obtain ⟨⟩ := he
    intro htree
    exact htree.acyclic c ((h.child_renamedAt hedge hj).cycle h.treeShaped.acyclic hbelow)

def GraphOp.hangsBelowItself (g : Graph) : GraphOp → Prop
  | .rename pSrc oldName pDst newName => HangsBelowItself g pSrc oldName pDst newName
  | _ => False

theorem GraphOp.step_treeInv (op : GraphOp) (h : TreeInv s.1) (hsafe : ¬op.hangsBelowItself s.1) :
    TreeInv (op.step s).1.1 := by
  have hinv := op.step_inv h.toGraphInv
  cases op with
  | createFile p name mode => exact (createNode_created .file s.1 p name mode).treeInv h
  | mkdir p name mode => exact (createNode_created .dir s.1 p name mode).treeInv h
  | unlink p name => exact (unlink_unlinked s.1 p name).treeInv h
  | rmdir p name => exact (rmdir_removed s.1 p name).treeInv h
  | rename pSrc oldName pDst newName =>
    exact (rename_renamed s.1 pSrc oldName pDst newName).treeInv h rfl hsafe
  | inodeOpen id => exact h.same hinv (modifyInode_edges ..) (modifyInode_rootId ..)
  | inodeClose id => exact h.same hinv (inodeClose_edges ..) (inodeClose_rootId ..)
  | fileWrite id offset buf =>
    have hwritten := fileWrite_written s.1 s.2 id offset buf
    exact h.same hinv hwritten.edges hwritten.rootId

theorem GraphOp.step_treeShaped_iff (op : GraphOp) (h : TreeInv s.1) :
    TreeShaped (op.step s).1.1 ↔ ¬op.hangsBelowItself s.1 := by
  constructor
  · intro htree hhang
    cases op with
    | rename pSrc oldName pDst newName =>
      exact (rename_renamed s.1 pSrc oldName pDst newName).not_treeShaped h rfl hhang htree
    | _ => exact hhang
  · exact fun hsafe => (op.step_treeInv h hsafe).treeShaped

theorem treeInv_init : TreeInv graphInit := by
  refine ⟨graphInv_init, ?_⟩
  rintro p c ⟨i, e, he, -⟩
  rw [graphInit_eq] at he
  cases he

/-- A run keeps the tree exactly as long as no rename hangs a directory below itself. -/
theorem tree_run_iff (d : Blkdev) (ops : List GraphOp) :
    (∀ k, TreeShaped (exec GraphOp.step (graphInit, d) (ops.take k)).1) ↔
      ∀ e ∈ trace GraphOp.step (graphInit, d) ops, ¬e.input.hangsBelowItself e.pre.1 := by
  have hinv : ∀ k, GraphInv (exec GraphOp.step (graphInit, d) (ops.take k)).1 := by
    intro k
    apply exec_invariant GraphOp.step (P := fun s : Graph × Blkdev => GraphInv s.1)
    · exact fun s op => op.step_inv
    · exact graphInv_init
  have hshape : ∀ k, TreeShaped (exec GraphOp.step (graphInit, d) (ops.take k)).1 ↔
      TreeInv (exec GraphOp.step (graphInit, d) (ops.take k)).1 :=
    fun k => ⟨fun htree => htree.treeInv (hinv k), TreeInv.treeShaped⟩
  simp only [hshape]
  apply always_iff GraphOp.step (P := fun s : Graph × Blkdev => TreeInv s.1)
  · intro s op h
    rw [entry, ← op.step_treeShaped_iff h]
    exact ⟨TreeInv.treeShaped, fun htree => htree.treeInv (op.step_inv h.toGraphInv)⟩
  · exact treeInv_init

theorem rename_detaches : ¬TreeShaped (exec GraphOp.step (graphInit, bssBlkdev ⟨fun _ => 0, 0, []⟩)
      [.mkdir 1 [97] 0, .mkdir 2 [98] 0, .rename 1 [97] 3 [99]]).1 := by
  set g := (exec GraphOp.step (graphInit, bssBlkdev ⟨fun _ => 0, 0, []⟩)
    [.mkdir 1 [97] 0, .mkdir 2 [98] 0, .rename 1 [97] 3 [99]]).1
  have hedges : g.edges 1 = some ⟨2, 3, [98]⟩ ∧ g.edges 2 = some ⟨3, 2, [99]⟩ := by
    decide +kernel
  intro htree
  apply htree.acyclic 2
  exact .tail (.single ⟨1, _, hedges.1, rfl, rfl⟩) ⟨2, _, hedges.2, rfl, rfl⟩

end SotOs.Sotfs
