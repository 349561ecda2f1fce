import SotOs.Lib.Machine
import SotOs.Sotfs.IoSpec

/-! Well-formedness of the file graph, through every rewrite rule, open, close and write. -/

namespace SotOs.Sotfs

open Machine Function Slots Option
variable {g g' : Graph}

structure WellFormed (g : Graph) : Prop where
  parent_dir : ∀ i e, g.edges i = some e → ∃ n, g.inode e.parentId = some n ∧ n.kind = .dir
  child_live : ∀ i e, g.edges i = some e → ∃ n, g.inode e.childId = some n
  edge_unique : ∀ i j e e', g.edges i = some e → g.edges j = some e' →
    e.parentId = e'.parentId → e.name = e'.name → i = j
  root_free : ∀ i e, g.edges i = some e → e.childId ≠ g.rootId
  one_edge : ∀ id n, g.inode id = some n → id ≠ g.rootId → n.orphan = false →
    ∃! i, ∃ e, g.edges i = some e ∧ e.childId = id
  orphan_free : ∀ id n, g.inode id = some n → n.orphan = true →
    (∀ i e, g.edges i = some e → e.childId ≠ id) ∧ 0 < n.openCount
  block_file : ∀ i b, g.blocks i = some b → ∃ n, g.inode b.fileId = some n ∧ n.kind = .file

structure GraphInv (g : Graph) : Prop extends WellFormed g where
  root_dir : ∃ n, g.inode g.rootId = some n ∧ n.kind = .dir
  nlink_one : ∀ id n, g.inode id = some n → n.kind ≠ .dir → n.orphan = false → n.nlink = 1
  orphan_kind : ∀ id n, g.inode id = some n → n.orphan = true → n.kind ≠ .dir

variable {i j : Fin maxEdges} {e : Edge} {n : Inode} {mode : UInt32} {p pSrc pDst fileId : ℤ}
  {name oldName newName : Name} {c : Fin maxInodes} {rc : Except Err Unit}

theorem WellFormed.child_not_orphan (h : WellFormed g) (he : g.edges i = some e)
    (hn : g.inode e.childId = some n) : n.orphan = false := by
  by_contra horphan
  exact (h.orphan_free _ n hn (by simpa using horphan)).1 i e he rfl

theorem WellFormed.child_inj (h : WellFormed g) {e' : Edge} (hi : g.edges i = some e)
    (hj : g.edges j = some e') (hc : e.childId = e'.childId) : i = j := by
  obtain ⟨n, hn⟩ := h.child_live i e hi
  have hunique := h.one_edge _ n hn (h.root_free i e hi) (h.child_not_orphan hi hn)
  exact hunique.unique ⟨e, hi, rfl⟩ ⟨e', hj, hc.symm⟩

theorem GraphInv.free_edge (h : GraphInv g) : ∃ j, g.edges j = none := by
  by_contra hfull
  simp only [not_exists] at hfull
  have hedge : ∀ j, ∃ e c, g.edges j = some e ∧ e.childId = toId (n := maxInodes) c := by
    intro j
    obtain ⟨e, he⟩ := ne_none_iff_exists'.mp (hfull j)
    obtain ⟨n, hn⟩ := h.child_live j e he
    obtain ⟨c, hc, -⟩ := Graph.inode_eq_some.mp hn
    exact ⟨e, c, he, hc⟩
  choose e c he hc using hedge
  have hinj : Injective c := by
    intro i j hij
    exact h.child_inj (he i) (he j) (by rw [hc, hc, hij])
  have hcard := Fintype.card_le_of_injective c hinj
  rw [Fintype.card_fin, Fintype.card_fin] at hcard
  exact absurd hcard (by decide)

def Inode.core (n : Inode) : Kind × Bool × ℤ := (n.kind, n.orphan, n.nlink)

theorem core_back (hcore : ∀ id, (g'.inode id).map Inode.core = (g.inode id).map Inode.core)
    {id : ℤ} {n' : Inode} (hn : g'.inode id = some n') :
    ∃ n, g.inode id = some n ∧ n.kind = n'.kind ∧ n.orphan = n'.orphan ∧ n.nlink = n'.nlink := by
  have hmap := hcore id
  rw [hn] at hmap
  obtain ⟨n, hn', heq⟩ := map_eq_some_iff.mp hmap.symm
  simp only [Inode.core, Prod.mk.injEq] at heq
  exact ⟨n, hn', heq⟩

theorem GraphInv.of_core (h : GraphInv g)
    (hcore : ∀ id, (g'.inode id).map Inode.core = (g.inode id).map Inode.core)
    (hcount : ∀ id n, g'.inode id = some n → n.orphan = true → 0 < n.openCount)
    (hedges : g'.edges = g.edges) (hroot : g'.rootId = g.rootId)
    (hblocks : ∀ i b, g'.blocks i = some b → ∃ n, g.inode b.fileId = some n ∧ n.kind = .file) :
    GraphInv g' := by
  have hcore' : ∀ id, (g.inode id).map Inode.core = (g'.inode id).map Inode.core :=
    fun id => (hcore id).symm
  have hkind : ∀ {id k}, (∃ n, g.inode id = some n ∧ n.kind = k) →
      ∃ n, g'.inode id = some n ∧ n.kind = k := by
    rintro id k ⟨n, hn, rfl⟩
    obtain ⟨n', hn', hk, -⟩ := core_back hcore' hn
    exact ⟨n', hn', hk⟩
  constructor
  case toWellFormed =>
    constructor
    case parent_dir =>
      intro i e he
      exact hkind (h.parent_dir i e (hedges ▸ he))
    case child_live =>
      intro i e he
      obtain ⟨n, hn⟩ := h.child_live i e (hedges ▸ he)
      obtain ⟨n', hn', -⟩ := hkind ⟨n, hn, rfl⟩
      exact ⟨n', hn'⟩
    case edge_unique =>
      rw [hedges]
      exact h.edge_unique
    case root_free =>
      rw [hedges, hroot]
      exact h.root_free
    case one_edge =>
      intro id n' hn' hid horphan
      obtain ⟨n, hn, -, ho, -⟩ := core_back hcore hn'
      rw [hedges]
      exact h.one_edge id n hn (hroot ▸ hid) (ho.trans horphan)
    case orphan_free =>
      intro id n' hn' horphan
      obtain ⟨n, hn, -, ho, -⟩ := core_back hcore hn'
      rw [hedges]
      exact ⟨(h.orphan_free id n hn (ho.trans horphan)).1, hcount id n' hn' horphan⟩
    case block_file =>
      intro i b hb
      exact hkind (hblocks i b hb)
  case root_dir =>
    rw [hroot]
    exact hkind h.root_dir
  case nlink_one =>
    intro id n' hn' hk horphan
    obtain ⟨n, hn, hkn, ho, hl⟩ := core_back hcore hn'
    rw [← hl]
    exact h.nlink_one id n hn (hkn ▸ hk) (ho.trans horphan)
  case orphan_kind =>
    intro id n' hn' horphan
    obtain ⟨n, hn, hkn, ho, -⟩ := core_back hcore hn'
    rw [← hkn]
    exact h.orphan_kind id n hn (ho.trans horphan)

theorem GraphInv.same (h : GraphInv g) (hs : g.Same g') : GraphInv g' := by
  apply h.of_core
  · intro id
    rw [Graph.inode_congr hs.inodes]
  · intro id n hn horphan
    rw [Graph.inode_congr hs.inodes] at hn
    exact (h.orphan_free id n hn horphan).2
  · exact hs.edges
  · exact hs.rootId
  · intro i b hb
    rw [hs.blocks] at hb
    exact h.block_file i b hb

section
variable {kind : Kind} {i : Fin maxInodes} {id : ℤ}

theorem createdAt_inode : (createdAt g kind mode i p j name).inode id =
    if id = toId i then some (.fresh kind mode) else g.inode id :=
  Graph.inode_update rfl id

theorem Graph.ne_of_blank (hi : g.inodes i = none) (hn : g.inode id = some n) : id ≠ toId i := by
  rintro rfl
  rw [Graph.inode_toId, hi] at hn
  cases hn

theorem createdAt_keeps (hi : g.inodes i = none) (hn : g.inode id = some n) :
    (createdAt g kind mode i p j name).inode id = some n := by
  rw [createdAt_inode, if_neg (Graph.ne_of_blank hi hn), hn]

theorem createdAt_edge_iff {k : Fin maxEdges} (hj : g.edges j = none) :
    (createdAt g kind mode i p j name).edges k = some e ↔
      k = j ∧ e = ⟨p, toId i, name⟩ ∨ g.edges k = some e := by
  by_cases hkj : k = j
  · subst hkj
    simp [createdAt, hj, eq_comm]
  · simp [createdAt, hkj]

theorem GraphInv.unlinked (h : GraphInv g) (hi : g.inodes i = none) {k : Fin maxEdges}
    (he : g.edges k = some e) : e.childId ≠ toId i := by
  obtain ⟨n, hn⟩ := h.child_live k e he
  exact Graph.ne_of_blank hi hn

theorem GraphInv.created_one_edge (h : GraphInv g) (hi : g.inodes i = none) (hj : g.edges j = none)
    (hn : (createdAt g kind mode i p j name).inode id = some n) (hid : id ≠ g.rootId)
    (horphan : n.orphan = false) :
    ∃! k, ∃ e, (createdAt g kind mode i p j name).edges k = some e ∧ e.childId = id := by
  simp only [createdAt_edge_iff hj]
  rw [createdAt_inode] at hn
  split_ifs at hn with hnew
  · -- the new inode hangs on the new edge only
    subst hnew
    refine ⟨j, ⟨_, .inl ⟨rfl, rfl⟩, rfl⟩, ?_⟩
    rintro k ⟨e, ⟨rfl, -⟩ | he, hc⟩
    · rfl
    · exact absurd hc (h.unlinked hi he)
  · obtain ⟨k, ⟨e, he, hc⟩, huniq⟩ := h.one_edge id n hn hid horphan
    refine ⟨k, ⟨e, .inr he, hc⟩, ?_⟩
    rintro l ⟨e', ⟨-, rfl⟩ | he', hc'⟩
    · exact absurd hc'.symm hnew
    · exact huniq l ⟨e', he', hc'⟩

theorem GraphInv.created_orphan_free (h : GraphInv g) (hj : g.edges j = none)
    (hn : (createdAt g kind mode i p j name).inode id = some n) (horphan : n.orphan = true) :
    (∀ k e, (createdAt g kind mode i p j name).edges k = some e → e.childId ≠ id) ∧
      0 < n.openCount := by
  rw [createdAt_inode] at hn
  split_ifs at hn with hnew
  · obtain ⟨⟩ := hn
    cases horphan
  obtain ⟨hfree, hcount⟩ := h.orphan_free id n hn horphan
  refine ⟨fun k e he => ?_, hcount⟩
  rcases (createdAt_edge_iff hj).mp he with ⟨-, rfl⟩ | he
  · exact Ne.symm hnew
  · exact hfree k e he

theorem GraphInv.created_wellFormed (h : GraphInv g)
    (hdir : ∃ n, g.inode p = some n ∧ n.kind = .dir) (hfind : findEdge g p name = none)
    (hi : g.inodes i = none) (hj : g.edges j = none) :
    WellFormed (createdAt g kind mode i p j name) := by
  constructor
  case parent_dir =>
    intro k e he
    rcases (createdAt_edge_iff hj).mp he with ⟨-, rfl⟩ | he
    · obtain ⟨n, hn, hk⟩ := hdir
      exact ⟨n, createdAt_keeps hi hn, hk⟩
    · obtain ⟨n, hn, hk⟩ := h.parent_dir k e he
      exact ⟨n, createdAt_keeps hi hn, hk⟩
  case child_live =>
    intro k e he
    rcases (createdAt_edge_iff hj).mp he with ⟨-, rfl⟩ | he
    · exact ⟨_, createdAt_inode.trans (if_pos rfl)⟩
    · obtain ⟨n, hn⟩ := h.child_live k e he
      exact ⟨n, createdAt_keeps hi hn⟩
  case edge_unique =>
    intro k l e e' hk hl hp hname
    rcases (createdAt_edge_iff hj).mp hk with ⟨hkj, rfl⟩ | hk' <;>
      rcases (createdAt_edge_iff hj).mp hl with ⟨hlj, rfl⟩ | hl'
    · rw [hkj, hlj]
    · exact absurd hname.symm (findEdge_none hfind hl' hp.symm)
    · exact absurd hname (findEdge_none hfind hk' hp)
    · exact h.edge_unique k l e e' hk' hl' hp hname
  case root_free =>
    intro k e he
    rcases (createdAt_edge_iff hj).mp he with ⟨-, rfl⟩ | he
    · obtain ⟨n, hn, -⟩ := h.root_dir
      exact (Graph.ne_of_blank hi hn).symm
    · exact h.root_free k e he
  case one_edge => exact fun id n => h.created_one_edge hi hj
  case orphan_free => exact fun id n => h.created_orphan_free hj
  case block_file =>
    intro k b hb
    obtain ⟨n, hn, hk⟩ := h.block_file k b hb
    exact ⟨n, createdAt_keeps hi hn, hk⟩

theorem GraphInv.created (h : GraphInv g) (hdir : ∃ n, g.inode p = some n ∧ n.kind = .dir)
    (hfind : findEdge g p name = none) (hi : g.inodes i = none) (hj : g.edges j = none) :
    GraphInv (createdAt g kind mode i p j name) := by
  refine ⟨h.created_wellFormed hdir hfind hi hj, ?_, ?_, ?_⟩
  · obtain ⟨n, hn, hk⟩ := h.root_dir
    exact ⟨n, createdAt_keeps hi hn, hk⟩
  · intro id n hn hk horphan
    rw [createdAt_inode] at hn
    split_ifs at hn
    · obtain ⟨⟩ := hn
      exact if_neg hk
    · exact h.nlink_one id n hn hk horphan
  · intro id n hn horphan
    rw [createdAt_inode] at hn
    split_ifs at hn
    · obtain ⟨⟩ := hn
      cases horphan
    · exact h.orphan_kind id n hn horphan

end

theorem GraphInv.removed (h : GraphInv g) (hroot : toId c ≠ g.rootId)
    (hparent : ∀ i e, g.edges i = some e → e.parentId ≠ toId c)
    (hinodes : g'.inodes = update g.inodes c none)
    (hedges : ∀ i e, g'.edges i = some e ↔ g.edges i = some e ∧ e.childId ≠ toId c)
    (hblocks : ∀ i b, g'.blocks i = some b → g.blocks i = some b ∧ b.fileId ≠ toId c)
    (hroot' : g'.rootId = g.rootId) : GraphInv g' := by
  have hinode : ∀ {id n}, g'.inode id = some n ↔ id ≠ toId c ∧ g.inode id = some n := by
    intro id n
    rw [Graph.inode_update hinodes]
    split_ifs with hid
    · simp [hid]
    · simp [hid]
  constructor
  case toWellFormed =>
    constructor
    case parent_dir =>
      intro i e he
      rw [hedges] at he
      obtain ⟨n, hn, hk⟩ := h.parent_dir i e he.1
      exact ⟨n, hinode.mpr ⟨hparent i e he.1, hn⟩, hk⟩
    case child_live =>
      intro i e he
      rw [hedges] at he
      obtain ⟨n, hn⟩ := h.child_live i e he.1
      exact ⟨n, hinode.mpr ⟨he.2, hn⟩⟩
    case edge_unique =>
      intro i j e e' hi hj
      rw [hedges] at hi hj
      exact h.edge_unique i j e e' hi.1 hj.1
    case root_free =>
      intro i e he
      rw [hedges] at he
      rw [hroot']
      exact h.root_free i e he.1
    case one_edge =>
      intro id n hn hid horphan
      obtain ⟨hne, hn⟩ := hinode.mp hn
      rw [hroot'] at hid
      obtain ⟨i, ⟨e, he, hc⟩, huniq⟩ := h.one_edge id n hn hid horphan
      refine ⟨i, ⟨e, (hedges i e).mpr ⟨he, hc ▸ hne⟩, hc⟩, ?_⟩
      rintro j ⟨e', he', hc'⟩
      exact huniq j ⟨e', ((hedges j e').mp he').1, hc'⟩
    case orphan_free =>
      intro id n hn horphan
      obtain ⟨-, hn⟩ := hinode.mp hn
      obtain ⟨hfree, hcount⟩ := h.orphan_free id n hn horphan
      exact ⟨fun i e he => hfree i e ((hedges i e).mp he).1, hcount⟩
    case block_file =>
      intro i b hb
      obtain ⟨hb, hne⟩ := hblocks i b hb
      obtain ⟨n, hn, hk⟩ := h.block_file i b hb
      exact ⟨n, hinode.mpr ⟨hne, hn⟩, hk⟩
  case root_dir =>
    rw [hroot']
    obtain ⟨n, hn, hk⟩ := h.root_dir
    exact ⟨n, hinode.mpr ⟨hroot.symm, hn⟩, hk⟩
  case nlink_one => exact fun id n hn => h.nlink_one id n (hinode.mp hn).2
  case orphan_kind => exact fun id n hn => h.orphan_kind id n (hinode.mp hn).2

theorem GraphInv.orphaned (h : GraphInv g) (hn : g.inodes c = some n) (hkind : n.kind ≠ .dir)
    (hopen : 0 < n.openCount) (hinodes : g'.inodes = update g.inodes c
      (some { n with nlink := n.nlink - 1, orphan := true }))
    (hedges : ∀ i e, g'.edges i = some e ↔ g.edges i = some e ∧ e.childId ≠ toId c)
    (hblocks : g'.blocks = g.blocks) (hroot' : g'.rootId = g.rootId) : GraphInv g' := by
  set n' : Inode := { n with nlink := n.nlink - 1, orphan := true }
  have hinode : ∀ id, g'.inode id = if id = toId c then some n' else g.inode id :=
    Graph.inode_update hinodes
  have hkeep : ∀ {id k}, (∃ m, g.inode id = some m ∧ m.kind = k) →
      ∃ m, g'.inode id = some m ∧ m.kind = k := by
    rintro id k ⟨m, hm, hk⟩
    rw [hinode]
    split_ifs with hid
    · rw [hid, Graph.inode_toId, hn] at hm
      obtain ⟨⟩ := hm
      exact ⟨n', rfl, hk⟩
    · exact ⟨m, hm, hk⟩
  constructor
  case toWellFormed =>
    constructor
    case parent_dir =>
      intro i e he
      exact hkeep (h.parent_dir i e ((hedges i e).mp he).1)
    case child_live =>
      intro i e he
      obtain ⟨m, hm⟩ := h.child_live i e ((hedges i e).mp he).1
      obtain ⟨m', hm', -⟩ := hkeep ⟨m, hm, rfl⟩
      exact ⟨m', hm'⟩
    case edge_unique =>
      intro i j e e' hi hj
      exact h.edge_unique i j e e' ((hedges i e).mp hi).1 ((hedges j e').mp hj).1
    case root_free =>
      intro i e he
      rw [hroot']
      exact h.root_free i e ((hedges i e).mp he).1
    case one_edge =>
      intro id m hm hid horphan
      rw [hinode] at hm
      split_ifs at hm with hc
      · obtain ⟨⟩ := hm
        cases horphan
      rw [hroot'] at hid
      obtain ⟨i, ⟨e, he, hce⟩, huniq⟩ := h.one_edge id m hm hid horphan
      refine ⟨i, ⟨e, (hedges i e).mpr ⟨he, hce ▸ hc⟩, hce⟩, ?_⟩
      rintro j ⟨e', he', hc'⟩
      exact huniq j ⟨e', ((hedges j e').mp he').1, hc'⟩
    case orphan_free =>
      intro id m hm horphan
      rw [hinode] at hm
      split_ifs at hm with hc
      · obtain ⟨⟩ := hm
        exact ⟨fun i e he => hc ▸ ((hedges i e).mp he).2, hopen⟩
      · obtain ⟨hfree, hcount⟩ := h.orphan_free id m hm horphan
        exact ⟨fun i e he => hfree i e ((hedges i e).mp he).1, hcount⟩
    case block_file =>
      intro i b hb
      rw [hblocks] at hb
      exact hkeep (h.block_file i b hb)
  case root_dir =>
    rw [hroot']
    exact hkeep h.root_dir
  case nlink_one =>
    intro id m hm hk horphan
    rw [hinode] at hm
    split_ifs at hm
    · obtain ⟨⟩ := hm
      cases horphan
    · exact h.nlink_one id m hm hk horphan
  case orphan_kind =>
    intro id m hm horphan
    rw [hinode] at hm
    split_ifs at hm
    · obtain ⟨⟩ := hm
      exact hkind
    · exact h.orphan_kind id m hm horphan

theorem GraphInv.renamed (h : GraphInv g) {old : Fin maxEdges} {c : ℤ}
    (hdst : ∃ n, g.inode pDst = some n ∧ n.kind = .dir)
    (hold : g.edges old = some ⟨pSrc, c, oldName⟩) (hfree : findEdge g pDst newName = none)
    (hj : g.edges j = none) : GraphInv (renamedAt g old j ⟨pDst, c, newName⟩) := by
  set g' := renamedAt g old j ⟨pDst, c, newName⟩
  have hinode : ∀ id, g'.inode id = g.inode id := Graph.inode_congr rfl
  have hne : j ≠ old := by
    rintro rfl
    rw [hj] at hold
    cases hold
  have hnew : g'.edges j = some ⟨pDst, c, newName⟩ := by
    simp [g', renamedAt, update_of_ne hne]
  have hgone : g'.edges old = none := update_self ..
  have hother : ∀ k, k ≠ j → k ≠ old → g'.edges k = g.edges k := by
    intro k hkj hko
    simp [g', renamedAt, update_of_ne hkj, update_of_ne hko]
  have hedge : ∀ {k e}, g'.edges k = some e →
      k = j ∧ e = ⟨pDst, c, newName⟩ ∨ k ≠ old ∧ g.edges k = some e := by
    intro k e he
    by_cases hkj : k = j
    · rw [hkj, hnew] at he
      exact .inl ⟨hkj, (some.inj he).symm⟩
    by_cases hko : k = old
    · rw [hko, hgone] at he
      cases he
    · rw [hother k hkj hko] at he
      exact .inr ⟨hko, he⟩
  constructor
  case toWellFormed =>
    constructor
    case parent_dir =>
      intro k e he
      rw [hinode]
      rcases hedge he with ⟨-, rfl⟩ | ⟨-, he⟩
      · exact hdst
      · exact h.parent_dir k e he
    case child_live =>
      intro k e he
      rw [hinode]
      rcases hedge he with ⟨-, rfl⟩ | ⟨-, he⟩
      · exact h.child_live old ⟨pSrc, c, oldName⟩ hold
      · exact h.child_live k e he
    case edge_unique =>
      intro k l e e' hk hl hp hname
      rcases hedge hk with ⟨hkj, rfl⟩ | ⟨-, hk'⟩ <;> rcases hedge hl with ⟨hlj, rfl⟩ | ⟨-, hl'⟩
      · rw [hkj, hlj]
      · exact absurd hname.symm (findEdge_none hfree hl' hp.symm)
      · exact absurd hname (findEdge_none hfree hk' hp)
      · exact h.edge_unique k l e e' hk' hl' hp hname
    case root_free =>
      intro k e he
      rcases hedge he with ⟨-, rfl⟩ | ⟨-, he⟩
      · exact h.root_free old ⟨pSrc, c, oldName⟩ hold
      · exact h.root_free k e he
    case one_edge =>
      intro id n hn hid horphan
      rw [hinode] at hn
      obtain ⟨k, ⟨e, he, hc⟩, huniq⟩ := h.one_edge id n hn hid horphan
      by_cases hko : k = old
      · -- the moved child: its edge is the new one
        rw [hko, hold] at he
        obtain ⟨⟩ := he
        refine ⟨j, ⟨_, hnew, hc⟩, ?_⟩
        rintro l ⟨e', he', hc'⟩
        rcases hedge he' with ⟨hlj, -⟩ | ⟨hlo, he'⟩
        · exact hlj
        · exact absurd ((huniq l ⟨e', he', hc'⟩).trans hko) hlo
      · have hkj : k ≠ j := by
          rintro rfl
          rw [hj] at he
          cases he
        refine ⟨k, ⟨e, by rw [hother k hkj hko, he], hc⟩, ?_⟩
        rintro l ⟨e', he', hc'⟩
        rcases hedge he' with ⟨-, rfl⟩ | ⟨-, he'⟩
        · exact absurd (huniq old ⟨_, hold, hc'⟩).symm hko
        · exact huniq l ⟨e', he', hc'⟩
    case orphan_free =>
      intro id n hn horphan
      rw [hinode] at hn
      obtain ⟨hnone, hcount⟩ := h.orphan_free id n hn horphan
      refine ⟨fun k e he => ?_, hcount⟩
      rcases hedge he with ⟨-, rfl⟩ | ⟨-, he⟩
      · exact hnone old ⟨pSrc, c, oldName⟩ hold
      · exact hnone k e he
    case block_file => exact h.block_file
  case root_dir => exact h.root_dir
  case nlink_one => exact h.nlink_one
  case orphan_kind => exact h.orphan_kind

theorem Created.inv {kind : Kind} {rc : Except Err ℤ} (hc : Created kind g p name mode g' rc)
    (h : GraphInv g) : GraphInv g' := by
  cases hc with
  | failed _ _ hsame => exact h.same hsame
  | created i j _ _ hdir hfind hi hj => exact h.created hdir hfind hi hj

theorem WellFormed.edges_without (h : WellFormed g) (he : g.edges i = some e) (k : Fin maxEdges)
    (e' : Edge) :
    (g.setEdge i none).edges k = some e' ↔ g.edges k = some e' ∧ e'.childId ≠ e.childId := by
  by_cases hki : k = i
  · subst hki
    simp [Graph.setEdge, he]
    rintro rfl
    rfl
  · simp only [Graph.setEdge, update_of_ne hki, iff_self_and]
    exact fun he' hc => hki (h.child_inj he' he hc)

theorem Unlinked.inv (hu : Unlinked g p name g' rc) (h : GraphInv g) : GraphInv g' := by
  cases hu with
  | failed => exact h
  | unlinked i c hdir hfind hedge hkind =>
    obtain ⟨n, hn⟩ := h.child_live i _ hedge
    have horphan := h.child_not_orphan hedge hn
    have hroot := h.root_free i _ hedge
    rw [Graph.inode_toId] at hn
    have hk : n.kind ≠ .dir := by simpa [hn] using hkind
    have hlink := h.nlink_one (toId c) n (by rw [Graph.inode_toId, hn]) hk horphan
    have hparent : ∀ i e, g.edges i = some e → e.parentId ≠ toId c := by
      intro i e he hp
      obtain ⟨m, hm, hmk⟩ := h.parent_dir i e he
      rw [hp, Graph.inode_toId, hn] at hm
      obtain ⟨⟩ := hm
      exact hk hmk
    have hedges := h.edges_without hedge
    rw [dropLink_last (g := g.setEdge i none) hn hlink]
    split_ifs with hopen
    · refine h.orphaned hn hk hopen ?_ hedges rfl rfl
      rw [hlink, sub_self]
      rfl
    · exact h.removed hroot hparent rfl hedges (fun k b => dropBlocks_blocks.mp) rfl

theorem RemovedDir.inv (hr : RemovedDir g p name g' rc) (h : GraphInv g) : GraphInv g' := by
  cases hr with
  | failed => exact h
  | removed i c hdir hfind hedge hkind hempty =>
    refine h.removed (h.root_free i _ hedge) (fun k e => dirHasChildren_false hempty) rfl
      (h.edges_without hedge) (fun k b hb => ⟨hb, fun hfile => ?_⟩) rfl
    -- blocks belong to files, the child is a directory
    obtain ⟨n, hn, hk⟩ := h.block_file k b hb
    rw [hfile, Graph.inode_toId] at hn
    simp [hn, hk] at hkind

theorem Renamed.inv (hr : Renamed g pSrc oldName pDst newName g' rc) (h : GraphInv g) :
    GraphInv g' := by
  cases hr with
  | failed => exact h
  | renamed old j c hsrc hdst hnew hfind hedge hfree hj => exact h.renamed hdst hedge hfree hj

theorem GraphInv.inodeOpen (h : GraphInv g) (id : ℤ) : GraphInv (inodeOpen g id) := by
  refine h.of_core ?_ ?_ (modifyInode_edges ..) (modifyInode_rootId ..) ?_
  · intro id'
    rw [Sotfs.inodeOpen, Graph.inode_modifyInode]
    split_ifs
    · rw [Option.map_map]
      apply Option.map_congr
      intro n _
      simp only [comp_apply]
      split_ifs <;> rfl
    · rfl
  · intro id' n hn horphan
    rw [Sotfs.inodeOpen, Graph.inode_modifyInode] at hn
    split_ifs at hn
    · obtain ⟨m, hm, rfl⟩ := map_eq_some_iff.mp hn
      split_ifs at horphan ⊢
      · exact Nat.succ_pos _
      · exact (h.orphan_free id' m hm horphan).2
    · exact (h.orphan_free id' n hn horphan).2
  · intro i b hb
    rw [Sotfs.inodeOpen, modifyInode_blocks] at hb
    exact h.block_file i b hb

theorem GraphInv.inodeClose (h : GraphInv g) (id : ℤ) : GraphInv (inodeClose g id) := by
  rcases hn : g.inode id with _ | n
  · rwa [Sotfs.inodeClose, hn]
  obtain ⟨c, rfl, hc⟩ := Graph.inode_eq_some.mp hn
  rw [Sotfs.inodeClose, hn]
  simp only
  set g₁ := g.modifyInode (toId c) fun n => { n with openCount := n.openCount - 1 }
  have hg₁ : g₁ = g.setInode c (some { n with openCount := n.openCount - 1 }) := by
    simp only [g₁, Graph.modifyInode, ofId_toId, hc, map_some]
  split_ifs with hlast
  · -- the last close of an orphan
    obtain ⟨hcount, horphan⟩ := hlast
    have hlive : g₁.inodes c = some { n with openCount := n.openCount - 1 } := by
      rw [hg₁]
      exact update_self ..
    obtain ⟨hfree, -⟩ := h.orphan_free _ n hn horphan
    have hk := h.orphan_kind _ n hn horphan
    rw [freeFileStorage_live hlive, hg₁]
    refine h.removed ?_ ?_ (update_idem ..) ?_ (fun k b => dropBlocks_blocks.mp) rfl
    · intro hroot
      obtain ⟨m, hm, hmk⟩ := h.root_dir
      rw [← hroot, hn] at hm
      exact hk (some.inj hm ▸ hmk)
    · intro i e he hp
      obtain ⟨m, hm, hmk⟩ := h.parent_dir i e he
      rw [hp, hn] at hm
      exact hk (some.inj hm ▸ hmk)
    · intro i e
      exact ⟨fun he => ⟨he, hfree i e he⟩, And.left⟩
  · rw [hg₁]
    refine h.of_core ?_ ?_ rfl rfl h.block_file
    · intro id'
      rw [Graph.inode_setInode]
      split_ifs with hid
      · rw [hid, hn]
        rfl
      · rfl
    · intro id' m hm horphan
      rw [Graph.inode_setInode] at hm
      split_ifs at hm
      · obtain ⟨⟩ := hm
        exact Nat.pos_of_ne_zero fun h0 => hlast ⟨h0, horphan⟩
      · exact (h.orphan_free id' m hm horphan).2

theorem GraphInv.writeFrame (h : GraphInv g) (hf : WriteFrame fileId g g')
    (hlive : ∃ n, g.inode fileId = some n ∧ n.kind = .file) : GraphInv g' := by
  refine h.of_core ?_ ?_ hf.edges hf.rootId ?_
  · intro id
    rw [Graph.inode_congr hf.inodes]
  · intro id n hn horphan
    rw [Graph.inode_congr hf.inodes] at hn
    exact (h.orphan_free id n hn horphan).2
  · intro i b hb
    by_cases hfile : b.fileId = fileId
    · rw [hfile]
      exact hlive
    · exact h.block_file i b ((hf.others i b hfile).mp hb)

theorem GraphInv.modifyInode (h : GraphInv g) (id : ℤ) {f : Inode → Inode}
    (hf : ∀ n, (f n).core = n.core ∧ (f n).openCount = n.openCount) :
    GraphInv (g.modifyInode id f) := by
  refine h.of_core ?_ ?_ (modifyInode_edges ..) (modifyInode_rootId ..) ?_
  · intro id'
    rw [Graph.inode_modifyInode]
    split_ifs
    · rw [Option.map_map]
      apply Option.map_congr
      intro n _
      exact (hf n).1
    · rfl
  · intro id' n hn horphan
    rw [Graph.inode_modifyInode] at hn
    split_ifs at hn
    · obtain ⟨m, hm, rfl⟩ := map_eq_some_iff.mp hn
      have hcore : (f m).orphan = m.orphan := congrArg (fun c => c.2.1) (hf m).1
      rw [(hf m).2]
      exact (h.orphan_free id' m hm (hcore.symm.trans horphan)).2
    · exact (h.orphan_free id' n hn horphan).2
  · intro i b hb
    rw [modifyInode_blocks] at hb
    exact h.block_file i b hb

theorem GraphInv.resize (h : GraphInv g) {id : ℤ} {size : ℕ} :
    GraphInv (g.modifyInode id fun n => if n.size < size then { n with size } else n) := by
  apply h.modifyInode
  intro n
  split_ifs <;> exact ⟨rfl, rfl⟩

theorem FileWritten.inv {d : Blkdev} {offset : ℕ} {buf : List UInt8}
    {out : Graph × Blkdev × Except Err ℕ} (hw : FileWritten g d fileId offset buf out)
    (h : GraphInv g) : GraphInv out.1 := by
  cases hw with
  | nothing => exact h
  | cut n hn hkind g' d' hrounds => exact h.writeFrame (rounds_frame hrounds) ⟨n, hn, hkind⟩
  | whole n hn hkind g' d' hrounds size =>
    exact (h.writeFrame (rounds_frame hrounds) ⟨n, hn, hkind⟩).resize

inductive GraphOp where
  | createFile (parentId : ℤ) (name : Name) (mode : UInt32)
  | mkdir (parentId : ℤ) (name : Name) (mode : UInt32)
  | unlink (parentId : ℤ) (name : Name)
  | rmdir (parentId : ℤ) (name : Name)
  | rename (pSrc : ℤ) (oldName : Name) (pDst : ℤ) (newName : Name)
  | inodeOpen (fileId : ℤ)
  | inodeClose (fileId : ℤ)
  | fileWrite (fileId : ℤ) (offset : ℕ) (buf : List UInt8)

def returnCode {α : Type} (ok : α → ℤ) : Except Err α → ℤ
  | .ok a => ok a
  | .error e => e.code

def GraphOp.step (s : Graph × Blkdev) : GraphOp → (Graph × Blkdev) × ℤ
  | .createFile p name mode =>
    let (g, rc) := Sotfs.createFile s.1 p name mode
    ((g, s.2), returnCode id rc)
  | .mkdir p name mode =>
    let (g, rc) := Sotfs.mkdir s.1 p name mode
    ((g, s.2), returnCode id rc)
  | .unlink p name =>
    let (g, rc) := Sotfs.unlink s.1 p name
    ((g, s.2), returnCode (fun _ => 0) rc)
  | .rmdir p name =>
    let (g, rc) := Sotfs.rmdir s.1 p name
    ((g, s.2), returnCode (fun _ => 0) rc)
  | .rename pSrc oldName pDst newName =>
    let (g, rc) := Sotfs.rename s.1 pSrc oldName pDst newName
    ((g, s.2), returnCode (fun _ => 0) rc)
  | .inodeOpen id => ((Sotfs.inodeOpen s.1 id, s.2), 0)
  | .inodeClose id => ((Sotfs.inodeClose s.1 id, s.2), 0)
  | .fileWrite id offset buf =>
    let (g, d, rc) := Sotfs.fileWrite s.1 s.2 id offset buf
    ((g, d), returnCode (fun n => n) rc)

theorem GraphOp.step_inv {s : Graph × Blkdev} (op : GraphOp) (h : GraphInv s.1) :
    GraphInv (op.step s).1.1 := by
  cases op with
  | createFile p name mode => exact (createNode_created .file s.1 p name mode).inv h
  | mkdir p name mode => exact (createNode_created .dir s.1 p name mode).inv h
  | unlink p name => exact (unlink_unlinked s.1 p name).inv h
  | rmdir p name => exact (rmdir_removed s.1 p name).inv h
  | rename pSrc oldName pDst newName =>
    exact (rename_renamed s.1 pSrc oldName pDst newName).inv h
  | inodeOpen id => exact h.inodeOpen id
  | inodeClose id => exact h.inodeClose id
  | fileWrite id offset buf => exact (fileWrite_written s.1 s.2 id offset buf).inv h

theorem graphInit_eq : graphInit =
    { inodes := update (fun _ => none) 0 (some (.fresh .dir 0o755)),
      edges := fun _ => none, blocks := fun _ => none, nextInodeHint := 1, nextEdgeHint := 0,
      nextBlockHint := 0, rootId := 1 } := by
  have hfirst : firstFrom (n := maxInodes) 0 (fun _ => true) = some 0 := by decide +kernel
  simp only [graphInit, allocInode, isNone_none, hfirst, Graph.setInode]
  rfl

theorem graphInit_inode {id : ℤ} (hn : graphInit.inode id = some n) :
    id = 1 ∧ n = .fresh .dir 0o755 := by
  rw [graphInit_eq] at hn
  obtain ⟨i, rfl, hi⟩ := Graph.inode_eq_some.mp hn
  by_cases h0 : i = 0
  · subst h0
    exact ⟨rfl, (some.inj hi).symm⟩
  · simp [update_of_ne h0] at hi

theorem graphInv_init : GraphInv graphInit := by
  have hinode : ∀ {id n}, graphInit.inode id = some n → id = 1 ∧ n = .fresh .dir 0o755 :=
    graphInit_inode
  have hedges : ∀ i, graphInit.edges i = none := by
    rw [graphInit_eq]
    exact fun _ => rfl
  have hblocks : ∀ i, graphInit.blocks i = none := by
    rw [graphInit_eq]
    exact fun _ => rfl
  have hroot : graphInit.rootId = 1 := by rw [graphInit_eq]
  constructor
  case toWellFormed =>
    constructor
    case parent_dir => exact fun i e he => by simp [hedges] at he
    case child_live => exact fun i e he => by simp [hedges] at he
    case edge_unique => exact fun i j e e' he => by simp [hedges] at he
    case root_free => exact fun i e he => by simp [hedges] at he
    case one_edge => exact fun id n hn hid => absurd ((hinode hn).1.trans hroot.symm) hid
    case orphan_free =>
      intro id n hn horphan
      rw [(hinode hn).2] at horphan
      cases horphan
    case block_file => exact fun i b hb => by simp [hblocks] at hb
  case root_dir =>
    refine ⟨.fresh .dir 0o755, ?_, rfl⟩
    rw [graphInit_eq]
    exact Graph.inode_toId _ 0
  case nlink_one =>
    intro id n hn hk
    rw [(hinode hn).2] at hk
    exact absurd rfl hk
  case orphan_kind =>
    intro id n hn horphan
    rw [(hinode hn).2] at horphan
    cases horphan

/-- Every reachable graph is well formed, whatever state the block store starts in. -/
theorem graph_wellFormed (d : Blkdev) (ops : List GraphOp) :
    WellFormed (exec GraphOp.step (graphInit, d) ops).1 := by
  have hinv : GraphInv (exec GraphOp.step (graphInit, d) ops).1 := by
    apply exec_invariant GraphOp.step (P := fun s : Graph × Blkdev => GraphInv s.1)
    · exact fun s op => op.step_inv
    · exact graphInv_init
  exact hinv.toWellFormed

end SotOs.Sotfs
