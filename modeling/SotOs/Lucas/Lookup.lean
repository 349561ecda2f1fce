import SotOs.Lucas.Backend

/-! The operations of the sotfs backend that report on inodes (`op_stat`, `op_fstat` and
`op_getdents` of `src/lucas/backends_sotfs.c`). -/

namespace SotOs.Lucas
open Sotfs Slots

def sIfmt : UInt32 := 0o170000
def sIfreg : UInt32 := 0o100000
def sIfdir : UInt32 := 0o040000
def sIfsock : UInt32 := 0o140000

structure LxStat where
  dev : ℕ
  ino : ℕ
  nlink : ℕ
  mode : UInt32
  size : ℕ
  blksize : ℕ
  blocks : ℕ
  atime : ℕ
  mtime : ℕ
  ctime : ℕ
deriving DecidableEq

def toU64 (n : ℤ) : ℕ := (n % 2 ^ 64).toNat

def statMode (n : Inode) : UInt32 :=
  if n.kind = .dir then sIfdir ||| (n.mode &&& 0o777)
  else if n.mode &&& sIfmt = sIfsock then sIfsock ||| (n.mode &&& 0o777)
  else sIfreg ||| (n.mode &&& 0o777)

def fillStat (id : ℤ) : Option Inode → LxStat
  | none => ⟨2, toU64 id, 1, sIfreg, 0, 4096, 0, 0, 0, 0⟩
  | some n =>
    { dev := 2
      ino := toU64 id
      nlink := if 0 < n.nlink then n.nlink.toNat else 1
      mode := statMode n
      size := n.size
      blksize := 4096
      blocks := (n.size + 511) / 512
      atime := toU64 (if n.atime ≠ 0 then n.atime else n.mtime)
      mtime := toU64 n.mtime
      ctime := toU64 n.ctime }

def statInode (env : Env) (id : ℤ) (s : Fs) : Except ℤ LxStat :=
  match ofId maxInodes id with
  | none => .error (-2)
  | some i =>
    if sessionVisible s.sessions id env.session then .ok (fillStat id (s.graph.inodes i))
    else .error (-2)

def opStat (env : Env) (mountRoot : ℤ) (path : List UInt8) (s : Fs) : Except ℤ LxStat :=
  match resolvePathFrom s.graph (backendRoot s.graph mountRoot) path with
  | none => .error (-2)
  | some id => statInode env id s

def opFstat (env : Env) (h : Fin handlePool) (s : Fs) : Except ℤ LxStat :=
  match handleSlot s h with
  | none => .error (-9)
  | some i =>
    if sessionVisible s.sessions (toId i) env.session then
      .ok (fillStat (toId i) (s.graph.inodes i))
    else .error (-9)

def dtReg : ℕ := 8
def dtDir : ℕ := 4

structure Dirent where
  ino : ℕ
  off : ℕ
  reclen : ℕ
  type : ℕ
  name : Name
deriving DecidableEq

def direntReclen (name : Name) : ℕ := (19 + (name.length + 1) + 7) / 8 * 8

def dirEntry (env : Env) (hiddenRoots : List Name) (dir : ℤ) (s : Fs) (k : Fin maxEdges) :
    Option Dirent :=
  match s.graph.edges k with
  | none => none
  | some e =>
    if e.parentId ≠ dir then none
    else if dir = s.graph.rootId ∧ e.name ∈ hiddenRoots then none
    else match ofId maxInodes e.childId with
      | none => none
      | some i =>
        if sessionVisible s.sessions e.childId env.session then
          some
            { ino := toU64 e.childId
              off := k.val + 1
              reclen := direntReclen e.name
              type := if (s.graph.inodes i).map (·.kind) = some .dir then dtDir else dtReg
              name := e.name }
        else none

def getdentsLoop (entry : Fin maxEdges → Option Dirent) (count : ℕ) :
    List (Fin maxEdges) → ℕ → ℕ × List Dirent
  -- The iterator is past the slot when the buffer is full: the entry that did not fit is not seen
  -- again.
  | [], _ => (maxEdges, [])
  | k :: rest, written => match entry k with
    | none => getdentsLoop entry count rest written
    | some de =>
      if count < written + de.reclen then (k.val + 1, [])
      else
        let (next, out) := getdentsLoop entry count rest (written + de.reclen)
        (next, de :: out)

def opGetdents (env : Env) (hiddenRoots : List Name) (h : Fin handlePool) (count next : ℕ) (s : Fs) :
    ℕ × Except ℤ (List Dirent) :=
  match handleSlot s h with
  | none => (next, .error (-9))
  | some i =>
    if (s.graph.inodes i).map (·.kind) ≠ some .dir then (next, .error (-20))
    else
      let entry := dirEntry env hiddenRoots (toId i) s
      let (next, out) := getdentsLoop entry count ((List.finRange maxEdges).drop next) 0
      (next, .ok out)

end SotOs.Lucas
