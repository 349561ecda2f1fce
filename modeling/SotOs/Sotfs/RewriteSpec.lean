import SotOs.Sotfs.Rewrite

/-! What one rewrite can do to the graph: each rule either fails with its tables unchanged or ends
in one explicit graph. -/

namespace SotOs.Sotfs

open Function Slots Option

variable {g g' : Graph} {n : Inode} {i : Fin maxEdges} {p pSrc pDst : ℤ}
  {name oldName newName : Name} {e : Edge} {c : Fin maxInodes} {mode : UInt32}
  {rc : Except Err Unit}

theorem Graph.inode_eq_some {id : ℤ} :
    g.inode id = some n ↔ ∃ i, id = toId i ∧ g.inodes i = some n := by
  unfold Graph.inode
  rw [bind_eq_some_iff]
  constructor
  · rintro ⟨i, hi, hn⟩
    exact ⟨i, ofId_eq_some hi, hn⟩
  · rintro ⟨i, rfl, hn⟩
    exact ⟨i, ofId_toId i, hn⟩

@[simp] theorem Graph.inode_toId (g : Graph) (i : Fin maxInodes) :
    g.inode (toId i) = g.inodes i := by
  simp [Graph.inode]

theorem Graph.inode_congr (h : g'.inodes = g.inodes) (id : ℤ) : g'.inode id = g.inode id := by
  unfold Graph.inode
  rw [h]

theorem Graph.inode_update {i : Fin maxInodes} {x : Option Inode}
    (h : g'.inodes = update g.inodes i x) (id : ℤ) :
    g'.inode id = if id = toId i then x else g.inode id := by
  split_ifs with hid
  · rw [hid, Graph.inode_toId, h, update_self]
  unfold Graph.inode
  rw [h]
  rcases hk : ofId maxInodes id with _ | k
  · rfl
  have hki : k ≠ i := by
    rintro rfl
    exact hid (ofId_eq_some hk)
  rw [bind_some, bind_some, update_of_ne hki]

@[simp] theorem Graph.inode_setInode (g : Graph) (i : Fin maxInodes) (x : Option Inode) (id : ℤ) :
    (g.setInode i x).inode id = if id = toId i then x else g.inode id :=
  Graph.inode_update rfl id

theorem Graph.inode_modifyInode (g : Graph) (id : ℤ) (f : Inode → Inode) (id' : ℤ) :
    (g.modifyInode id f).inode id' = if id' = id then (g.inode id').map f else g.inode id' := by
  unfold Graph.modifyInode
  cases hk : ofId maxInodes id with
  | none =>
    have hnone : g.inode id = none := by
      unfold Graph.inode
      rw [hk]
      rfl
    split_ifs with hid
    · rw [hid, hnone]
      rfl
    · rfl
  | some k =>
    rw [ofId_eq_some hk, Graph.inode_setInode]
    split_ifs with hid
    · rw [hid, Graph.inode_toId]
    · rfl

variable {id : ℤ} {f : Inode → Inode}

@[simp] theorem modifyInode_edges : (g.modifyInode id f).edges = g.edges := by
  unfold Graph.modifyInode
  split <;> rfl

@[simp] theorem modifyInode_blocks (g : Graph) (id : ℤ) (f : Inode → Inode) :
    (g.modifyInode id f).blocks = g.blocks := by
  unfold Graph.modifyInode
  split <;> rfl

@[simp] theorem modifyInode_rootId : (g.modifyInode id f).rootId = g.rootId := by
  unfold Graph.modifyInode
  split <;> rfl

structure Graph.Same (g g' : Graph) : Prop where
  inodes : g'.inodes = g.inodes
  edges : g'.edges = g.edges
  blocks : g'.blocks = g.blocks
  rootId : g'.rootId = g.rootId

theorem Graph.Same.refl (g : Graph) : g.Same g := ⟨rfl, rfl, rfl, rfl⟩

theorem findEdge_some (h : findEdge g p name = some i) :
    ∃ e, g.edges i = some e ∧ e.parentId = p ∧ e.name = name := by
  have hi := first_some h
  cases he : g.edges i with
  | none => simp [he] at hi
  | some e => exact ⟨e, rfl, by simpa [he] using hi⟩

theorem findEdge_none (h : findEdge g p name = none) (he : g.edges i = some e) (hp : e.parentId = p) :
    e.name ≠ name := by
  have hi := first_none h i
  rintro rfl
  simp [he, hp] at hi

theorem findEdge_isSome_eq_false (h : ¬(findEdge g p name).isSome = true) :
    findEdge g p name = none := by
  simpa using h

theorem checkDir_none {id : ℤ} (h : checkDir g id = none) :
    ∃ n, g.inode id = some n ∧ n.kind = .dir := by
  unfold checkDir at h
  cases hn : g.inode id with
  | none => simp [hn] at h
  | some n => exact ⟨n, rfl, by simpa [hn] using h⟩

theorem checkName_none (h : checkName name = none) : name ≠ [] ∧ name.length < maxName := by
  unfold checkName at h
  split_ifs at h with h1 h2
  exact ⟨h1, by omega⟩

theorem take_name (h : name.length < maxName) : name.take (maxName - 1) = name :=
  List.take_of_length_le (by unfold maxName at *; omega)

theorem dirHasChildren_false {id : ℤ} (h : dirHasChildren g id = false) (he : g.edges i = some e) :
    e.parentId ≠ id := by
  have hnone := isNone_iff_eq_none.mp (by simpa [dirHasChildren] using h)
  have hi := first_none hnone i
  rintro rfl
  simp [he] at hi

theorem lookupChild_ok (h : lookupChild g p name = .ok (i, c)) :
    checkDir g p = none ∧ findEdge g p name = some i ∧ g.edges i = some ⟨p, toId c, name⟩ := by
  unfold lookupChild at h
  split at h
  · cases h
  · rename_i hdir
    split at h
    · cases h
    · rename_i k hk
      obtain ⟨e, he, hp, hname⟩ := findEdge_some hk
      rw [he] at h
      simp only at h
      split at h
      · cases h
      · rename_i c' hc'
        obtain ⟨rfl, rfl⟩ := Prod.mk.inj (Except.ok.inj h)
        refine ⟨hdir, hk, ?_⟩
        rw [he, ← ofId_eq_some hc', ← hp, ← hname]

theorem dropBlocks_blocks {id : ℤ} {i : Fin maxBlocks} {b : Block} :
    (dropBlocks g id).blocks i = some b ↔ g.blocks i = some b ∧ b.fileId ≠ id := by
  simp [dropBlocks, filter_eq_some_iff]

def withoutFile (g : Graph) (c : Fin maxInodes) : Graph :=
  { dropBlocks g (toId c) with inodes := update g.inodes c none }

theorem freeFileStorage_live (hn : g.inodes c = some n) :
    freeFileStorage g (toId c) = withoutFile g c := by
  rw [freeFileStorage, Graph.inode_toId, hn]
  simp only [freeInode, ofId_toId]
  rfl

variable {id : ℤ}

@[simp] theorem freeFileStorage_edges : (freeFileStorage g id).edges = g.edges := by
  unfold freeFileStorage freeInode
  split
  · rfl
  · split <;> rfl

@[simp] theorem freeFileStorage_rootId : (freeFileStorage g id).rootId = g.rootId := by
  unfold freeFileStorage freeInode
  split
  · rfl
  · split <;> rfl

@[simp] theorem dropLink_edges (g : Graph) (c : Fin maxInodes) : (dropLink g c).edges = g.edges := by
  unfold dropLink
  rcases g.inodes c with _ | n
  · rfl
  simp only
  split_ifs
  · rfl
  · rfl
  · exact freeFileStorage_edges ..

@[simp] theorem dropLink_rootId : (dropLink g c).rootId = g.rootId := by
  unfold dropLink
  rcases g.inodes c with _ | n
  · rfl
  simp only
  split_ifs
  · rfl
  · rfl
  · exact freeFileStorage_rootId ..

@[simp] theorem inodeClose_edges : (inodeClose g id).edges = g.edges := by
  unfold inodeClose
  split
  · rfl
  simp only
  split_ifs
  · rw [freeFileStorage_edges, modifyInode_edges]
  · exact modifyInode_edges ..

@[simp] theorem inodeClose_rootId : (inodeClose g id).rootId = g.rootId := by
  unfold inodeClose
  split
  · rfl
  simp only
  split_ifs
  · rw [freeFileStorage_rootId, modifyInode_rootId]
  · exact modifyInode_rootId ..

theorem dropLink_last (hn : g.inodes c = some n) (hlink : n.nlink = 1) :
    dropLink g c = if 0 < n.openCount then g.setInode c (some { n with nlink := 0, orphan := true })
      else withoutFile g c := by
  rw [dropLink, hn]
  simp only [hlink, sub_self, lt_irrefl, if_false]
  split_ifs
  · rfl
  have hlive : (g.setInode c (some { n with nlink := 0 })).inodes c = some { n with nlink := 0 } :=
    update_self ..
  rw [freeFileStorage_live hlive]
  simp only [withoutFile, Graph.setInode, update_idem, dropBlocks]

def createdAt (g : Graph) (kind : Kind) (mode : UInt32) (i : Fin maxInodes) (parentId : ℤ)
    (j : Fin maxEdges) (name : Name) : Graph :=
  { g with
    inodes := update g.inodes i (some (.fresh kind mode))
    edges := update g.edges j (some ⟨parentId, toId i, name⟩)
    nextInodeHint := (i.val + 1) % maxInodes
    nextEdgeHint := (j.val + 1) % maxEdges }

def renamedAt (g : Graph) (old j : Fin maxEdges) (e : Edge) : Graph :=
  { g with
    edges := update (update g.edges j (some e)) old none
    nextEdgeHint := (j.val + 1) % maxEdges }

inductive Created (kind : Kind) (g : Graph) (p : ℤ) (name : Name) (mode : UInt32) :
    Graph → Except Err ℤ → Prop
  | failed (g' : Graph) (e : Err) (hsame : g.Same g') : Created kind g p name mode g' (.error e)
  | created (i : Fin maxInodes) (j : Fin maxEdges) (hname : name ≠ []) (hlen : name.length < maxName)
      (hdir : ∃ n, g.inode p = some n ∧ n.kind = .dir) (hfind : findEdge g p name = none)
      (hi : g.inodes i = none) (hj : g.edges j = none) :
      Created kind g p name mode (createdAt g kind mode i p j name) (.ok (toId i))

theorem createNode_created (kind : Kind) (g : Graph) (p : ℤ) (name : Name) (mode : UInt32) :
    Created kind g p name mode (createNode kind g p name mode).1
      (createNode kind g p name mode).2 := by
  unfold createNode
  split
  · exact .failed g _ (.refl g)
  rename_i hname
  split
  · exact .failed g _ (.refl g)
  rename_i hdir
  split_ifs with hfind
  · exact .failed g _ (.refl g)
  unfold allocInode
  cases hi : firstFrom g.nextInodeHint fun i => (g.inodes i).isNone with
  | none => exact .failed g _ (.refl g)
  | some i =>
    have hfree : g.inodes i = none := by simpa using firstFrom_some hi
    simp only [allocEdge, Graph.setInode]
    cases hj : firstFrom g.nextEdgeHint fun j => (g.edges j).isNone with
    | none =>
      -- the inode is given back, the hint is not
      refine .failed _ _ ⟨?_, ?_, ?_, ?_⟩ <;> simp only [freeInode, ofId_toId, Graph.setInode]
      rw [update_idem, ← hfree, update_eq_self]
    | some j =>
      obtain ⟨hne, hlen⟩ := checkName_none hname
      have hslot : g.edges j = none := by simpa using firstFrom_some hj
      have hcreated := @Created.created kind g p name mode i j hne hlen
        (checkDir_none hdir) (findEdge_isSome_eq_false hfind) hfree hslot
      simpa only [createdAt, Graph.setEdge, take_name hlen] using hcreated

variable {kind : Kind}

theorem Created.blocks {rc : Except Err ℤ} (h : Created kind g p name mode g' rc) :
    g'.blocks = g.blocks := by
  cases h with
  | failed _ _ hsame => exact hsame.blocks
  | created => rfl

theorem Created.rootId {rc : Except Err ℤ} (h : Created kind g p name mode g' rc) :
    g'.rootId = g.rootId := by
  cases h with
  | failed _ _ hsame => exact hsame.rootId
  | created => rfl

inductive Unlinked (g : Graph) (p : ℤ) (name : Name) : Graph → Except Err Unit → Prop
  | failed (e : Err) : Unlinked g p name g (.error e)
  | unlinked (i : Fin maxEdges) (c : Fin maxInodes)
      (hdir : ∃ n, g.inode p = some n ∧ n.kind = .dir) (hfind : findEdge g p name = some i)
      (hedge : g.edges i = some ⟨p, toId c, name⟩)
      (hkind : (g.inodes c).map (·.kind) ≠ some .dir) :
      Unlinked g p name (dropLink (g.setEdge i none) c) (.ok ())

theorem unlink_unlinked (g : Graph) (p : ℤ) (name : Name) :
    Unlinked g p name (unlink g p name).1 (unlink g p name).2 := by
  unfold unlink
  split_ifs
  · exact .failed _
  rcases hl : lookupChild g p name with e | ic
  · exact .failed e
  obtain ⟨i, c⟩ := ic
  obtain ⟨hdir, hfind, hedge⟩ := lookupChild_ok hl
  simp only
  split_ifs with hkind
  · exact .failed _
  · exact .unlinked i c (checkDir_none hdir) hfind hedge hkind

theorem Unlinked.rootId (h : Unlinked g p name g' rc) : g'.rootId = g.rootId := by
  cases h with
  | failed => rfl
  | unlinked i c => exact dropLink_rootId ..

inductive RemovedDir (g : Graph) (p : ℤ) (name : Name) : Graph → Except Err Unit → Prop
  | failed (e : Err) : RemovedDir g p name g (.error e)
  | removed (i : Fin maxEdges) (c : Fin maxInodes)
      (hdir : ∃ n, g.inode p = some n ∧ n.kind = .dir) (hfind : findEdge g p name = some i)
      (hedge : g.edges i = some ⟨p, toId c, name⟩)
      (hkind : (g.inodes c).map (·.kind) = some .dir)
      (hempty : dirHasChildren g (toId c) = false) :
      RemovedDir g p name ((g.setEdge i none).setInode c none) (.ok ())

theorem rmdir_removed (g : Graph) (p : ℤ) (name : Name) :
    RemovedDir g p name (rmdir g p name).1 (rmdir g p name).2 := by
  unfold rmdir
  split_ifs
  · exact .failed _
  rcases hl : lookupChild g p name with e | ic
  · exact .failed e
  obtain ⟨i, c⟩ := ic
  obtain ⟨hdir, hfind, hedge⟩ := lookupChild_ok hl
  simp only
  split_ifs with hkind hempty
  · exact .failed _
  · exact .failed _
  · exact .removed i c (checkDir_none hdir) hfind hedge (not_not.mp hkind) (by simpa using hempty)

theorem RemovedDir.blocks (h : RemovedDir g p name g' rc) : g'.blocks = g.blocks := by
  cases h <;> rfl

theorem RemovedDir.rootId (h : RemovedDir g p name g' rc) : g'.rootId = g.rootId := by
  cases h <;> rfl

inductive Renamed (g : Graph) (pSrc : ℤ) (oldName : Name) (pDst : ℤ) (newName : Name) :
    Graph → Except Err Unit → Prop
  | failed (e : Err) : Renamed g pSrc oldName pDst newName g (.error e)
  | renamed (old j : Fin maxEdges) (c : ℤ)
      (hsrc : ∃ n, g.inode pSrc = some n ∧ n.kind = .dir)
      (hdst : ∃ n, g.inode pDst = some n ∧ n.kind = .dir)
      (hnew : newName ≠ [] ∧ newName.length < maxName)
      (hfind : findEdge g pSrc oldName = some old) (hedge : g.edges old = some ⟨pSrc, c, oldName⟩)
      (hfree : findEdge g pDst newName = none) (hj : g.edges j = none) :
      Renamed g pSrc oldName pDst newName (renamedAt g old j ⟨pDst, c, newName⟩) (.ok ())

theorem Renamed.blocks (h : Renamed g pSrc oldName pDst newName g' rc) : g'.blocks = g.blocks := by
  cases h <;> rfl

theorem Renamed.rootId (h : Renamed g pSrc oldName pDst newName g' rc) : g'.rootId = g.rootId := by
  cases h <;> rfl

theorem checkNames_none (h : checkNames oldName newName = none) :
    newName ≠ [] ∧ newName.length < maxName := by
  unfold checkNames at h
  split_ifs at h with h1 h2 h3 h4
  exact ⟨h2, by omega⟩

theorem rename_renamed (g : Graph) (pSrc : ℤ) (oldName : Name) (pDst : ℤ) (newName : Name) :
    Renamed g pSrc oldName pDst newName (rename g pSrc oldName pDst newName).1
      (rename g pSrc oldName pDst newName).2 := by
  unfold rename
  split
  · exact .failed _
  rename_i hnames
  split
  · exact .failed _
  rename_i hsrc
  split
  · exact .failed _
  rename_i hdst
  split
  · exact .failed _
  rename_i old hold
  obtain ⟨e, he, hp, hname⟩ := findEdge_some hold
  rw [he]
  simp only
  split_ifs with hfree
  · exact .failed _
  unfold allocEdge
  rcases hj : firstFrom g.nextEdgeHint fun j => (g.edges j).isNone with _ | j
  · exact .failed _
  obtain ⟨hne, hlen⟩ := checkNames_none hnames
  have hslot : g.edges j = none := by simpa using firstFrom_some hj
  have hedge : g.edges old = some ⟨pSrc, e.childId, oldName⟩ := by rw [he, ← hp, ← hname]
  have hrenamed := Renamed.renamed old j e.childId (checkDir_none hsrc) (checkDir_none hdst)
    ⟨hne, hlen⟩ hold hedge (findEdge_isSome_eq_false hfree) hslot
  simpa only [renamedAt, Graph.setEdge, take_name hlen] using hrenamed

theorem rename_ok_iff (hslot : ∃ j, g.edges j = none) (pSrc : ℤ) (oldName : Name) (pDst : ℤ)
    (newName : Name) :
    (rename g pSrc oldName pDst newName).2 = .ok () ↔
      checkNames oldName newName = none ∧ checkDir g pSrc = none ∧ checkDir g pDst = none ∧
        (findEdge g pSrc oldName).isSome ∧ findEdge g pDst newName = none := by
  unfold rename
  cases checkNames oldName newName with
  | some e => simp
  | none =>
  cases checkDir g pSrc with
  | some e => simp
  | none =>
  cases checkDir g pDst with
  | some e => simp
  | none =>
  rcases hold : findEdge g pSrc oldName with _ | old
  · simp
  obtain ⟨e, he, -⟩ := findEdge_some hold
  obtain ⟨j, hj⟩ := hslot
  obtain ⟨k, hk⟩ := firstFrom_isSome g.nextEdgeHint (p := fun j => (g.edges j).isNone)
    ⟨j, by rw [hj]; rfl⟩
  cases findEdge g pDst newName with
  | none => simp [he, allocEdge, hk]
  | some i => simp [he]

theorem createNode_ok_iff : (∃ id, (createNode kind g p name mode).2 = .ok id) ↔
      (name ≠ [] ∧ name.length < maxName) ∧ (∃ n, g.inode p = some n ∧ n.kind = .dir) ∧
        findEdge g p name = none ∧ (∃ i, g.inodes i = none) ∧ ∃ j, g.edges j = none := by
  constructor
  · rintro ⟨id, hok⟩
    have hc := createNode_created kind g p name mode
    rw [hok] at hc
    generalize (createNode kind g p name mode).1 = g' at hc
    cases hc with
    | created i j hne hlen hdir hfind hi hj => exact ⟨⟨hne, hlen⟩, hdir, hfind, ⟨i, hi⟩, j, hj⟩
  · rintro ⟨⟨hne, hlen⟩, ⟨n, hn, hdir⟩, hfind, ⟨i, hi⟩, j, hj⟩
    obtain ⟨i', hi'⟩ := firstFrom_isSome g.nextInodeHint (p := fun i => (g.inodes i).isNone)
      ⟨i, by rw [hi]; rfl⟩
    obtain ⟨j', hj'⟩ := firstFrom_isSome g.nextEdgeHint (p := fun j => (g.edges j).isNone)
      ⟨j, by rw [hj]; rfl⟩
    have hlong : ¬maxName ≤ name.length := by omega
    simp [createNode, checkName, checkDir, hne, hlong, hn, hdir, hfind, allocInode, hi', allocEdge,
      Graph.setInode, hj']

theorem createNode_failed {mode : UInt32} {e : Err}
    (h : createNode kind g p name mode = (g', .error e)) : g.Same g' := by
  have hc := createNode_created kind g p name mode
  rw [h] at hc
  cases hc with
  | failed _ _ hsame => exact hsame

theorem unlink_failed {e : Err} (h : unlink g p name = (g', .error e)) : g' = g := by
  have hu := unlink_unlinked g p name
  rw [h] at hu
  cases hu with
  | failed _ => rfl

theorem rmdir_failed {e : Err} (h : rmdir g p name = (g', .error e)) : g' = g := by
  have hr := rmdir_removed g p name
  rw [h] at hr
  cases hr with
  | failed _ => rfl

theorem rename_failed {e : Err} (h : rename g pSrc oldName pDst newName = (g', .error e)) :
    g' = g := by
  have hr := rename_renamed g pSrc oldName pDst newName
  rw [h] at hr
  cases hr with
  | failed _ => rfl

/-- A rule that fails leaves the tables and the root, and a node is made exactly when its name,
its parent and the tables allow it. -/
theorem rules_all_or_nothing (g : Graph) :
    (∀ kind p name mode g' e, createNode kind g p name mode = (g', .error e) → g.Same g') ∧
    (∀ p name g' e, unlink g p name = (g', .error e) → g.Same g') ∧
    (∀ p name g' e, rmdir g p name = (g', .error e) → g.Same g') ∧
    (∀ pSrc old pDst new g' e, rename g pSrc old pDst new = (g', .error e) → g.Same g') ∧
    ∀ kind p name mode, (∃ id, (createNode kind g p name mode).2 = .ok id) ↔
      (name ≠ [] ∧ name.length < maxName) ∧ (∃ n, g.inode p = some n ∧ n.kind = .dir) ∧
        findEdge g p name = none ∧ (∃ i, g.inodes i = none) ∧ ∃ j, g.edges j = none := by
  refine ⟨fun _ _ _ _ _ _ h => createNode_failed h, fun _ _ _ _ h => ?_, fun _ _ _ _ h => ?_,
    fun _ _ _ _ _ _ h => ?_, fun kind p name mode => createNode_ok_iff⟩
  · rw [unlink_failed h]
    exact .refl g
  · rw [rmdir_failed h]
    exact .refl g
  · rw [rename_failed h]
    exact .refl g

end SotOs.Sotfs
