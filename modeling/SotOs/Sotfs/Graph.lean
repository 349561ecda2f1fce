import SotOs.Sotfs.Blkdev

/-! The in-memory file graph (`src/sotfs/graph.c`): a live entry's id is its slot number plus one.
-/

namespace SotOs.Sotfs

open Function Slots

def maxInodes : ℕ := 1024
def maxEdges : ℕ := 2048
def maxBlocks : ℕ := 49152
def maxName : ℕ := 128

scoped instance : NeZero maxInodes := ⟨by decide⟩
scoped instance : NeZero maxEdges := ⟨by decide⟩
scoped instance : NeZero maxBlocks := ⟨by decide⟩

abbrev Name := List UInt8

inductive Kind where
  | file | dir | symlink
deriving DecidableEq, Repr

structure Inode where
  kind : Kind
  mode : UInt32
  size : ℕ
  generation : ℕ
  nlink : ℤ
  functorPersistence : Bool
  orphan : Bool
  openCount : ℕ
  mtime : ℤ
  atime : ℤ
  ctime : ℤ
deriving DecidableEq

structure Edge where
  parentId : ℤ
  childId : ℤ
  name : Name
deriving DecidableEq

structure Block where
  fileId : ℤ
  offset : ℕ
  length : ℕ
  diskBlk : ℤ
deriving DecidableEq

structure Graph where
  inodes : Fin maxInodes → Option Inode
  edges : Fin maxEdges → Option Edge
  blocks : Fin maxBlocks → Option Block
  nextInodeHint : ℕ
  nextEdgeHint : ℕ
  nextBlockHint : ℕ
  rootId : ℤ

variable (g : Graph)

def Graph.inode (id : ℤ) : Option Inode := (ofId maxInodes id).bind g.inodes

def Graph.setInode (i : Fin maxInodes) (x : Option Inode) : Graph :=
  { g with inodes := update g.inodes i x }

def Graph.setEdge (i : Fin maxEdges) (x : Option Edge) : Graph :=
  { g with edges := update g.edges i x }

def Graph.setBlock (i : Fin maxBlocks) (x : Option Block) : Graph :=
  { g with blocks := update g.blocks i x }

def Graph.modifyInode (id : ℤ) (f : Inode → Inode) : Graph :=
  match ofId maxInodes id with
  | none => g
  | some i => g.setInode i ((g.inodes i).map f)

def Inode.fresh (kind : Kind) (mode : UInt32) : Inode :=
  { kind, mode, size := 0, generation := 0, nlink := if kind = .dir then 2 else 1,
    functorPersistence := false, orphan := false, openCount := 0, mtime := 0, atime := 0,
    ctime := 0 }

def allocInode (kind : Kind) (mode : UInt32) : Graph × Option (Fin maxInodes) :=
  match firstFrom g.nextInodeHint fun i => (g.inodes i).isNone with
  | none => (g, none)
  | some i =>
    ({ g.setInode i (some (.fresh kind mode)) with
        nextInodeHint := (i.val + 1) % maxInodes }, some i)

def allocEdge (parentId childId : ℤ) (name : Name) : Graph × Option (Fin maxEdges) :=
  -- The name is copied up to the size of the field.
  match firstFrom g.nextEdgeHint fun i => (g.edges i).isNone with
  | none => (g, none)
  | some i =>
    ({ g.setEdge i (some ⟨parentId, childId, name.take (maxName - 1)⟩) with
        nextEdgeHint := (i.val + 1) % maxEdges }, some i)

def allocBlock (d : Blkdev) (fileId : ℤ) (offset : ℕ) :
    Graph × Blkdev × Option (Fin maxBlocks) :=
  -- A mapping slot and, on a store that is up, the disk block behind it.
  match firstFrom g.nextBlockHint fun i => (g.blocks i).isNone with
  | none => (g, d, none)
  | some i =>
    let claim (d : Blkdev) (diskBlk : ℤ) : Graph × Blkdev × Option (Fin maxBlocks) :=
      ({ g.setBlock i (some ⟨fileId, offset, 0, diskBlk⟩) with
          nextBlockHint := (i.val + 1) % maxBlocks }, d, some i)
    if d.totalBlocks = 0 then claim d 0
    else match blkAlloc d with
      | (d, diskBlk) => if diskBlk = 0 then (g, d, none) else claim d diskBlk

def freeInode (id : ℤ) : Graph :=
  match ofId maxInodes id with
  | none => g
  | some i => g.setInode i none

def graphInit : Graph :=
  let g : Graph := ⟨fun _ => none, fun _ => none, fun _ => none, 0, 0, 0, 0⟩
  match allocInode g .dir 0o755 with
  | (g, none) => { g with rootId := 0 }
  | (g, some i) => { g with rootId := toId i }

def findEdge (parentId : ℤ) (name : Name) : Option (Fin maxEdges) :=
  -- Names match byte for byte: a stored name is shorter than the field.
  first fun i => match g.edges i with
    | none => false
    | some e => e.parentId == parentId && e.name == name

def slash : UInt8 := 47

/-- The components as the walk cuts them: at slashes, and after `maxName - 1` bytes of one. `cur` is
the component read so far. -/
def components : List UInt8 → List UInt8 → List Name
  | cur, [] => if cur = [] then [] else [cur]
  | cur, c :: rest =>
    if c = slash then (if cur = [] then components [] rest else cur :: components [] rest)
    else if cur.length + 1 = maxName - 1 then (cur ++ [c]) :: components [] rest
    else components (cur ++ [c]) rest

/-- Follow named edges from `cur`; `none` stands for id `0`. -/
def walk (g : Graph) : ℤ → List Name → Option ℤ
  | cur, [] => some cur
  | cur, name :: rest =>
    match findEdge g cur name with
    | none => none
    | some i => match g.edges i with
      | none => none
      | some e => walk g e.childId rest

def resolvePathFrom (rootId : ℤ) : List UInt8 → Option ℤ
  | [] => none
  | c :: rest =>
    if c = slash then walk g (if 0 < rootId then rootId else g.rootId) (components [] rest)
    else none

def resolvePath (path : List UInt8) : Option ℤ := resolvePathFrom g g.rootId path

end SotOs.Sotfs
