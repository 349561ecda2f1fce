import SotOs.Sotfs.Graph

/-! The rewrite rules on the file graph (`src/sotfs/rewrite.c`). Every rule returns the graph with
its result: a rule that fails late has moved an allocation hint. -/

namespace SotOs.Sotfs

inductive Err where
  | errExists | errNoent | errNotdir | errIsdir | errNotempty | errNospace | errNametoolong
  | errInval
deriving DecidableEq, Repr

def Err.code : Err → ℤ
  | .errExists => -1
  | .errNoent => -2
  | .errNotdir => -3
  | .errIsdir => -4
  | .errNotempty => -5
  | .errNospace => -6
  | .errNametoolong => -7
  | .errInval => -8

variable (g : Graph) (fileId parentId : ℤ) (name : Name)

def checkName : Option Err :=
  if name = [] then some .errInval
  else if maxName ≤ name.length then some .errNametoolong
  else none

def checkDir (id : ℤ) : Option Err :=
  match g.inode id with
  | none => some .errNoent
  | some p => if p.kind ≠ .dir then some .errNotdir else none

def dirHasChildren (dirId : ℤ) : Bool :=
  (Slots.first fun i => match g.edges i with
    | none => false
    | some e => e.parentId == dirId).isSome

/-- `create_file` and `mkdir` differ in the kind only. An inode whose edge finds no slot is
given back; the hint stays past it. -/
def createNode (kind : Kind) (g : Graph) (parentId : ℤ) (name : Name) (mode : UInt32) :
    Graph × Except Err ℤ :=
  match checkName name with
  | some e => (g, .error e)
  | none => match checkDir g parentId with
    | some e => (g, .error e)
    | none =>
      if (findEdge g parentId name).isSome then (g, .error .errExists)
      else match allocInode g kind mode with
        | (g, none) => (g, .error .errNospace)
        | (g, some i) => match allocEdge g parentId (Slots.toId i) name with
          | (g, none) => (freeInode g (Slots.toId i), .error .errNospace)
          | (g, some _) => (g, .ok (Slots.toId i))

def createFile : Graph → ℤ → Name → UInt32 → Graph × Except Err ℤ := createNode .file

def mkdir : Graph → ℤ → Name → UInt32 → Graph × Except Err ℤ := createNode .dir

def dropBlocks : Graph :=
  { g with blocks := fun i => (g.blocks i).filter fun b => b.fileId != fileId }

def freeFileStorage : Graph :=
  -- The block mappings go with the file; the disk blocks behind them are not given back.
  match g.inode fileId with
  | none => g
  | some _ => freeInode (dropBlocks g fileId) fileId

def inodeOpen : Graph :=
  g.modifyInode fileId fun n =>
    if n.openCount < 255 then { n with openCount := n.openCount + 1 } else n

def inodeClose : Graph :=
  -- The last close of an unlinked file frees it.
  match g.inode fileId with
  | none => g
  | some n =>
    let g := g.modifyInode fileId fun n => { n with openCount := n.openCount - 1 }
    if n.openCount - 1 = 0 ∧ n.orphan then freeFileStorage g fileId else g

def lookupChild :
    Except Err (Fin maxEdges × Fin maxInodes) :=
  match checkDir g parentId with
  | some e => .error e
  | none => match findEdge g parentId name with
    | none => .error .errNoent
    | some i => match g.edges i with
      | none => .error .errInval
      | some e => match Slots.ofId maxInodes e.childId with
        | none => .error .errInval
        | some c => .ok (i, c)

def dropLink (c : Fin maxInodes) : Graph :=
  -- A file that is still open outlives its name as an orphan.
  match g.inodes c with
  | none => g
  | some n =>
    let n := { n with nlink := n.nlink - 1 }
    if 0 < n.nlink then g.setInode c (some n)
    else if 0 < n.openCount then g.setInode c (some { n with orphan := true })
    else freeFileStorage (g.setInode c (some n)) (Slots.toId c)

def unlink : Graph × Except Err Unit :=
  if name = [] then (g, .error .errInval)
  else match lookupChild g parentId name with
    | .error e => (g, .error e)
    | .ok (i, c) =>
      if (g.inodes c).map (·.kind) = some .dir then (g, .error .errIsdir)
      else (dropLink (g.setEdge i none) c, .ok ())

def rmdir : Graph × Except Err Unit :=
  if name = [] then (g, .error .errInval)
  else match lookupChild g parentId name with
    | .error e => (g, .error e)
    | .ok (i, c) =>
      if (g.inodes c).map (·.kind) ≠ some .dir then (g, .error .errNotdir)
      else if dirHasChildren g (Slots.toId c) then (g, .error .errNotempty)
      else ((g.setEdge i none).setInode c none, .ok ())

def checkNames (oldName newName : Name) : Option Err :=
  -- Both names are checked for emptiness before either is checked for length.
  if oldName = [] then some .errInval
  else if newName = [] then some .errInval
  else if maxName ≤ oldName.length then some .errNametoolong
  else if maxName ≤ newName.length then some .errNametoolong
  else none

def rename (pSrc : ℤ) (oldName : Name) (pDst : ℤ) (newName : Name) :
    Graph × Except Err Unit :=
  -- The new edge is in place before the old one goes.
  match checkNames oldName newName with
  | some e => (g, .error e)
  | none => match checkDir g pSrc with
    | some e => (g, .error e)
    | none => match checkDir g pDst with
      | some e => (g, .error e)
      | none => match findEdge g pSrc oldName with
        | none => (g, .error .errNoent)
        | some old => match g.edges old with
          | none => (g, .error .errInval)
          | some e =>
            if (findEdge g pDst newName).isSome then (g, .error .errExists)
            else match allocEdge g pDst e.childId newName with
              | (g, none) => (g, .error .errNospace)
              | (g, some _) => (g.setEdge old none, .ok ())

end SotOs.Sotfs
