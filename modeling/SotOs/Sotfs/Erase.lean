import SotOs.Sotfs.IoSpec

/-! What a replay of the log does not bring back of a graph: open counts, time stamps and the
persistence mark. -/

namespace SotOs.Sotfs
open Inode

open Function Slots Option

def Inode.erase (n : Inode) : Inode :=
  { n with functorPersistence := false, openCount := 0, mtime := 0, atime := 0, ctime := 0 }

def Graph.erase (g : Graph) : Graph := { g with inodes := fun i => (g.inodes i).map Inode.erase }

variable (g : Graph)

@[simp] theorem erase_inode (id : ℤ) :
    g.erase.inode id = (g.inode id).map erase := by
  unfold Graph.inode
  cases ofId maxInodes id <;> rfl

@[simp] theorem erase_edges : g.erase.edges = g.edges := rfl

@[simp] theorem erase_blocks : g.erase.blocks = g.blocks := rfl

theorem erase_setEdge (i : Fin maxEdges) (x : Option Edge) :
    (g.setEdge i x).erase = g.erase.setEdge i x := rfl

variable (i : Fin maxInodes)

theorem erase_setInode (x : Option Inode) :
    (g.setInode i x).erase = g.erase.setInode i (x.map erase) := by
  have hinodes : (fun k => (update g.inodes i x k).map erase) =
      update (fun k => (g.inodes k).map erase) i (x.map erase) := by
    funext k
    by_cases hk : k = i
    · subst hk
      simp
    · simp [update_of_ne hk]
  unfold Graph.erase Graph.setInode
  rw [hinodes]

theorem setInode_erase {x y : Option Inode} (h : x.map erase = y) :
    g.erase.setInode i y = (g.setInode i x).erase := by
  rw [erase_setInode, h]

theorem erase_modifyInode (id : ℤ) {f : Inode → Inode} (hf : ∀ n, (f n).erase = f n.erase) :
    (g.modifyInode id f).erase = g.erase.modifyInode id f := by
  unfold Graph.modifyInode
  rcases ofId maxInodes id with _ | i
  · rfl
  have hmap : (((g.inodes i).map f).map erase) = (g.erase.inodes i).map f := by
    change _ = ((g.inodes i).map erase).map f
    cases g.inodes i with
    | none => rfl
    | some n => simp [hf]
  simp only
  rw [erase_setInode, hmap]

theorem erase_modifyInode_hidden (id : ℤ) {f : Inode → Inode} (hf : ∀ n, (f n).erase = n.erase) :
    (g.modifyInode id f).erase = g.erase := by
  unfold Graph.modifyInode
  rcases ofId maxInodes id with _ | i
  · rfl
  have hmap : ((g.inodes i).map f).map erase = g.erase.inodes i := by
    change _ = (g.inodes i).map erase
    cases g.inodes i with
    | none => rfl
    | some n => simp [hf]
  simp only
  rw [erase_setInode, hmap, Graph.setInode, update_eq_self]

variable (p : ℤ) (name : Name)

@[simp] theorem findEdge_erase :
    findEdge g.erase p name = findEdge g p name := rfl

@[simp] theorem dirHasChildren_erase (id : ℤ) :
    dirHasChildren g.erase id = dirHasChildren g id := rfl

@[simp] theorem findBlock_erase (id : ℤ) (off : ℕ) :
    findBlock g.erase id off = findBlock g id off := rfl

@[simp] theorem walk_erase (cur : ℤ) (names : List Name) :
    walk g.erase cur names = walk g cur names := by
  induction names generalizing cur with
  | nil => rfl
  | cons name rest ih =>
    simp only [walk, findEdge_erase, erase_edges, ih]

@[simp] theorem resolvePath_erase (path : List UInt8) :
    resolvePath g.erase path = resolvePath g path := by
  cases path with
  | nil => rfl
  | cons c rest =>
    simp only [resolvePath, resolvePathFrom, walk_erase]
    rfl

@[simp] theorem checkDir_erase (id : ℤ) : checkDir g.erase id = checkDir g id := by
  unfold checkDir
  rw [erase_inode]
  cases g.inode id <;> rfl

@[simp] theorem lookupChild_erase :
    lookupChild g.erase p name = lookupChild g p name := by
  simp only [lookupChild, checkDir_erase, findEdge_erase, erase_edges]

theorem erase_isNone :
    (fun i => (g.erase.inodes i).isNone) = fun i => (g.inodes i).isNone := by
  funext i
  exact isNone_map

theorem erase_kind :
    (g.erase.inodes i).map (·.kind) = (g.inodes i).map (·.kind) := by
  change ((g.inodes i).map erase).map _ = _
  cases g.inodes i <;> rfl

theorem allocInode_erase (kind : Kind) (mode : UInt32) :
    allocInode g.erase kind mode = (allocInode g kind mode).map Graph.erase id := by
  have hfirst : (firstFrom g.erase.nextInodeHint fun i => (g.erase.inodes i).isNone) =
      firstFrom g.nextInodeHint fun i => (g.inodes i).isNone := by
    rw [erase_isNone]
    rfl
  unfold allocInode
  rw [hfirst]
  rcases firstFrom g.nextInodeHint fun i => (g.inodes i).isNone with _ | i
  · rfl
  have hset : g.erase.setInode i (some (.fresh kind mode)) =
      (g.setInode i (some (.fresh kind mode))).erase := setInode_erase g i rfl
  simp only [hset]
  rfl

theorem allocEdge_erase (c : ℤ) (name : Name) :
    allocEdge g.erase p c name = (allocEdge g p c name).map Graph.erase id := by
  have hfirst : (firstFrom g.erase.nextEdgeHint fun i => (g.erase.edges i).isNone) =
      firstFrom g.nextEdgeHint fun i => (g.edges i).isNone := rfl
  unfold allocEdge
  rw [hfirst]
  cases firstFrom g.nextEdgeHint fun i => (g.edges i).isNone <;> rfl

theorem freeInode_erase (id : ℤ) : freeInode g.erase id = (freeInode g id).erase := by
  unfold freeInode
  cases ofId maxInodes id with
  | none => rfl
  | some i => exact (erase_setInode g i none).symm

theorem createNode_erase (kind : Kind) (g : Graph) (p : ℤ) (name : Name) (mode : UInt32) :
    createNode kind g.erase p name mode = (createNode kind g p name mode).map Graph.erase id := by
  unfold createNode
  rw [checkDir_erase, findEdge_erase, allocInode_erase]
  cases checkName name with
  | some e => rfl
  | none =>
    cases checkDir g p with
    | some e => rfl
    | none =>
      simp only
      split_ifs
      · rfl
      obtain ⟨g₁, slot⟩ := allocInode g kind mode
      rcases slot with _ | i
      · rfl
      simp only [Prod.map, id, allocEdge_erase]
      obtain ⟨g₂, slot⟩ := allocEdge g₁ p (toId i) name
      cases slot with
      | none => simp [freeInode_erase]
      | some j => rfl

theorem freeFileStorage_erase (id : ℤ) :
    freeFileStorage g.erase id = (freeFileStorage g id).erase := by
  unfold freeFileStorage
  rw [erase_inode]
  cases g.inode id with
  | none => rfl
  | some n => exact freeInode_erase (dropBlocks g id) id

theorem dropLink_erase {g : Graph} {c : Fin maxInodes}
    (hclosed : ∀ n, g.inodes c = some n → n.openCount = 0) :
    dropLink g.erase c = (dropLink g c).erase := by
  have hslot : g.erase.inodes c = (g.inodes c).map erase := rfl
  unfold dropLink
  rw [hslot]
  rcases hn : g.inodes c with _ | n
  · rfl
  have hopen := hclosed n hn
  have hlink : n.erase.nlink = n.nlink := rfl
  have hnone : n.erase.openCount = 0 := rfl
  simp only [map_some, hopen, hlink, hnone, Nat.lt_irrefl, if_false]
  split_ifs
  · exact setInode_erase g c rfl
  · have hset := setInode_erase g c (x := some { n with nlink := n.nlink - 1, openCount := 0 }) rfl
    exact (congrArg (freeFileStorage · (toId c)) hset).trans (freeFileStorage_erase _ _)

theorem unlink_erase {g : Graph} {p : ℤ} {name : Name}
    (hclosed : ∀ i c n, findEdge g p name = some i → g.edges i = some ⟨p, c, name⟩ →
      g.inode c = some n → n.openCount = 0) :
    unlink g.erase p name = (unlink g p name).map Graph.erase id := by
  unfold unlink
  rw [lookupChild_erase]
  split_ifs
  · rfl
  rcases hl : lookupChild g p name with e | ic
  · rfl
  obtain ⟨i, c⟩ := ic
  obtain ⟨-, hfind, hedge⟩ := lookupChild_ok hl
  simp only [erase_kind]
  split_ifs
  · rfl
  have hdrop : dropLink (g.setEdge i none).erase c = (dropLink (g.setEdge i none) c).erase := by
    apply dropLink_erase
    intro n hn
    apply hclosed i (toId c) n hfind hedge
    rw [Graph.inode_toId]
    exact hn
  rw [← erase_setEdge, hdrop]
  rfl

theorem rmdir_erase :
    rmdir g.erase p name = (rmdir g p name).map Graph.erase id := by
  unfold rmdir
  rw [lookupChild_erase]
  split_ifs
  · rfl
  rcases lookupChild g p name with e | ic
  · rfl
  obtain ⟨i, c⟩ := ic
  have hset : (g.erase.setEdge i none).setInode c none =
      ((g.setEdge i none).setInode c none).erase := setInode_erase (g.setEdge i none) c rfl
  simp only [erase_kind, dirHasChildren_erase, hset]
  split
  · rfl
  · cases dirHasChildren g (toId c) <;> rfl

theorem rename_erase (pSrc : ℤ) (oldName : Name) (pDst : ℤ) (newName : Name) :
    rename g.erase pSrc oldName pDst newName =
      (rename g pSrc oldName pDst newName).map Graph.erase id := by
  unfold rename
  simp only [checkDir_erase, findEdge_erase, erase_edges, allocEdge_erase]
  cases checkNames oldName newName with
  | some e => rfl
  | none =>
    cases checkDir g pSrc with
    | some e => rfl
    | none =>
      cases checkDir g pDst with
      | some e => rfl
      | none =>
        rcases findEdge g pSrc oldName with _ | old
        · rfl
        simp only
        cases g.edges old with
        | none => rfl
        | some e =>
          simp only
          split_ifs
          · rfl
          · obtain ⟨g₁, slot⟩ := allocEdge g pDst e.childId newName
            cases slot <;> rfl

variable (d : Blkdev)

theorem allocBlock_erase (id : ℤ) (off : ℕ) :
    allocBlock g.erase d id off = (allocBlock g d id off).map Graph.erase fun r => r := by
  have hfirst : (firstFrom g.erase.nextBlockHint fun i => (g.erase.blocks i).isNone) =
      firstFrom g.nextBlockHint fun i => (g.blocks i).isNone := rfl
  unfold allocBlock
  rw [hfirst]
  rcases firstFrom g.nextBlockHint fun i => (g.blocks i).isNone with _ | i
  · rfl
  simp only
  split
  · rfl
  · split <;> rfl

theorem acquireBlock_erase (id : ℤ) (size off : ℕ) :
    acquireBlock g.erase d id size off = (acquireBlock g d id size off).map Graph.erase fun r => r := by
  unfold acquireBlock
  rw [findBlock_erase, allocBlock_erase]
  cases (if size ≤ off then none else findBlock g id off) <;> rfl

theorem patchBlock_erase (i : Fin maxBlocks) (b : Block) (intra : ℕ) (chunk : List UInt8) :
    patchBlock g.erase d i b intra chunk =
      (patchBlock g d i b intra chunk).map Graph.erase fun d => d := rfl

theorem writeLoop_erase (id : ℤ) (offset size fuel : ℕ) (g : Graph) (d : Blkdev) (written : ℕ)
    (rest : List UInt8) :
    writeLoop id offset size fuel g.erase d written rest =
      (writeLoop id offset size fuel g d written rest).map Graph.erase fun r => r := by
  induction fuel generalizing g d written rest with
  | zero => rfl
  | succ fuel ih =>
    simp only [writeLoop, acquireBlock_erase]
    split_ifs
    · rfl
    obtain ⟨g₁, d₁, slot⟩ := acquireBlock g d id size (alignDown ((offset + written) % 2 ^ 32))
    rcases slot with _ | i
    · rfl
    simp only [Prod.map, erase_blocks]
    cases g₁.blocks i with
    | none => rfl
    | some b =>
      simp only [patchBlock_erase]
      exact ih _ _ _ _

theorem fileWrite_erase (id : ℤ) (offset : ℕ) (buf : List UInt8) :
    fileWrite g.erase d id offset buf =
      (fileWrite g d id offset buf).map Graph.erase fun r => r := by
  unfold fileWrite
  split_ifs
  · rfl
  rw [erase_inode]
  rcases g.inode id with _ | n
  · rfl
  have hkind : n.erase.kind = n.kind := rfl
  have hsize : n.erase.size = n.size := rfl
  simp only [map_some, hkind, hsize, writeLoop_erase]
  split_ifs
  · rfl
  obtain ⟨g₁, d₁, written, whole⟩ := writeLoop id offset n.size buf.length g d 0 buf
  cases whole with
  | false => rfl
  | true =>
    have hresize : ∀ m : Inode, (if m.size < (offset + buf.length) % 2 ^ 32 then
          { m with size := (offset + buf.length) % 2 ^ 32 } else m).erase =
        if m.erase.size < (offset + buf.length) % 2 ^ 32 then
          { m.erase with size := (offset + buf.length) % 2 ^ 32 } else m.erase := by
      intro m
      have hm : m.erase.size = m.size := rfl
      rw [hm]
      split <;> rfl
    simp only [Prod.map]
    rw [erase_modifyInode g₁ id hresize]

theorem readLoop_erase (id : ℤ) (fuel : ℕ) (d : Blkdev) (off remaining : ℕ) :
    readLoop g.erase id fuel d off remaining = readLoop g id fuel d off remaining := by
  induction fuel generalizing d off remaining with
  | zero => rfl
  | succ fuel ih => simp only [readLoop, findBlock_erase, erase_blocks, ih]

theorem fileRead_erase (id : ℤ) (offset len : ℕ) :
    fileRead g.erase d id offset len = fileRead g d id offset len := by
  unfold fileRead
  rw [erase_inode]
  cases g.inode id with
  | none => rfl
  | some n => simp only [map_some, readLoop_erase]; rfl

end SotOs.Sotfs
