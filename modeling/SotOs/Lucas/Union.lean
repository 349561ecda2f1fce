import SotOs.Lucas.Lookup

/-! The union mounts (`src/lucas/backends_union_ops.c`, `src/lucas/backends_union.c`): a writable
subtree of the sotfs graph over a layer that is only read, with markers `.wh.<name>` in the upper
layer for the names that were removed. -/

namespace SotOs.Lucas.Union
open Sotfs

def unionGdMax : ℕ := 96
def unionPool : ℕ := 256

def whMark : List UInt8 := [47, 46, 119, 104, 46]

def oWronly : UInt32 := 1
def oRdwr : UInt32 := 2

/-- A layer that is only read: reports, file bytes and names. `free` tells of a handle left. -/
structure Layer where
  stat : List UInt8 → Option LxStat
  read : List UInt8 → ℕ → ℤ → Except ℤ (List UInt8)
  readlink : List UInt8 → Except ℤ (List UInt8)
  children : List UInt8 → List (Name × ℕ)
  free : Bool

def Layer.open (l : Layer) (path : List UInt8) : Except ℤ Unit :=
  if (l.stat path).isNone then .error (-2) else if l.free then .ok () else .error (-24)

/-- The rest of a mount. The static table is asked with the mount's prefix; `debian` are sessions.
-/
structure Cfg where
  base : Layer
  static : Layer
  staticFallback : Option (List UInt8)
  hiddenRoots : List Name
  debian : UInt32 → Bool

inductive UnionLayer where
  | none
  | upper
  | base
  | static
deriving DecidableEq

/-- `sub` is the handle in the upper layer, `path` what others were opened on; names are merged when
first listed, with a path buffer of 256 bytes. -/
structure UHandle where
  layer : UnionLayer
  sub : Option (Fin handlePool)
  path : List UInt8
  gdDirpath : List UInt8
  fits : gdDirpath.length < 256
  gdNames : Option (List (Name × ℕ))
  gdIdx : ℕ

/-- `root` carries the upper layer; `upperDirty` is to be set before that layer is changed. -/
structure UnionState where
  fs : Fs
  root : ℤ
  upperDirty : Bool
  handles : Fin unionPool → Option UHandle

def resolveLayer (upperHas upperWhiteout baseHas : Bool) : UnionLayer :=
  if upperWhiteout then .none
  else if upperHas then .upper
  else if baseHas then .base
  else .none

variable (cfg : Cfg) (env : Env) (path : List UInt8) (h : Fin unionPool) (dirpath : List UInt8)
    (i : Fin unionPool) (flags : UInt32) (u : UnionState) (mode : UInt32)

def cutLeaf : Option (List UInt8 × Name) :=
  let leaf := path.rtakeWhile (· != slash)
  if leaf.length = path.length then none else some (path.take (path.length - leaf.length - 1), leaf)

def whiteoutPath : Option (List UInt8) :=
  (cutLeaf path).bind fun (dir, leaf) =>
    if maxName + 128 ≤ dir.length + 5 + leaf.length + 1 then none else some (dir ++ whMark ++ leaf)

def UnionState.upperStat (env : Env) (path : List UInt8) : Except ℤ LxStat :=
  opStat env u.root path u.fs

def upperHas : Bool := (u.upperStat env path).isOk

def upperWhiteout : Bool :=
  match whiteoutPath path with
  | none => false
  | some wp => upperHas env wp u

def baseHas : Bool := (cfg.base.stat path).isSome

def staticPath : Option (List UInt8) :=
  -- The path in the static table, if there is one to fall back to and the path fits its buffer.
  cfg.staticFallback.bind fun pre =>
    if pre ++ path = [] ∨ 320 ≤ (pre ++ path).length then none else some (pre ++ path)

def staticFallbackStat : Except ℤ LxStat :=
  match (staticPath cfg path).bind cfg.static.stat with
  | none => .error (-2)
  | some st => .ok st

def staticFallbackOpen : Except ℤ Unit :=
  match staticPath cfg path with
  | none => .error (-2)
  | some full => cfg.static.open full

def Reply.toCode : Reply → ℤ
  | .code rc => rc
  | _ => 0

def openResult : Fs × Reply → Fs × Except ℤ (Fin handlePool)
  | (s, .handle h) => (s, .ok h)
  | (s, .code rc) => (s, .error rc)
  | (s, _) => (s, .error (-2))

def upperOpen (u : UnionState) :
    UnionState × Except ℤ (Fin handlePool) :=
  let (fs, r) := openResult (opOpen env u.root path flags mode u.fs)
  ({ u with fs }, r)

def upperMkdir (u : UnionState) : UnionState × ℤ :=
  let (fs, r) := mkdirRoot env (backendRoot u.fs.graph u.root) path mode u.fs
  ({ u with fs }, Reply.toCode r)

def upperUnlink : UnionState × ℤ :=
  let (fs, r) := unlinkRoot env (backendRoot u.fs.graph u.root) path u.fs
  ({ u with fs }, Reply.toCode r)

def upperRmdir : UnionState × ℤ :=
  let (fs, r) := rmdirRoot env (backendRoot u.fs.graph u.root) path u.fs
  ({ u with fs }, Reply.toCode r)

def upperRename (oldp newp : List UInt8) (u : UnionState) : UnionState × ℤ :=
  let (fs, r) := renameRoot env (backendRoot u.fs.graph u.root) oldp newp u.fs
  ({ u with fs }, Reply.toCode r)

def upperClose (h : Fin handlePool) (u : UnionState) : UnionState :=
  { u with fs := (opClose h u.fs).1 }

def mkparentsLoop : List UInt8 → List Name → List (List UInt8)
  | _, [] => []
  | acc, seg :: rest =>
    if seg = [] then mkparentsLoop acc rest
    else if maxName * 4 ≤ acc.length + 1 + seg.length + 1 then []
    else (acc ++ slash :: seg) :: mkparentsLoop (acc ++ slash :: seg) rest

def parentPaths : List (List UInt8) :=
  match cutLeaf path with
  | none => []
  | some (dir, _) =>
    if dir = [] ∨ maxName * 4 ≤ dir.length then []
    else mkparentsLoop [] (segments [] (if dir.head? = some slash then dir.tail else dir))

/-- `mkdir -p` of the directory a path is in; that one is there already is not an error. -/
def upperMkparents : UnionState :=
  (parentPaths path).foldl (fun u dir => (upperMkdir env dir 0o755 u).1) u

def clearWhiteout : UnionState :=
  if upperWhiteout env path u then
    match whiteoutPath path with
    | none => u
    | some wp => (upperUnlink env wp u).1
  else u

def writeWhiteout : UnionState :=
  let u := { u with upperDirty := true }
  match whiteoutPath path with
  | none => u
  | some wp =>
    match upperOpen env wp (oCreat ||| oWronly) 0o644 (upperMkparents env path u) with
    | (u, .ok h) => upperClose h u
    | (u, .error _) => u

def freeUHandle : Option (Fin unionPool) :=
  Slots.first fun i => (u.handles i).isNone

def UnionState.setHandle (i : Fin unionPool) (x : Option UHandle) : UnionState :=
  { u with handles := Function.update u.handles i x }

def newHandle (layer : UnionLayer) (sub : Option (Fin handlePool)) (path : List UInt8) : UHandle where
  layer := layer
  sub := sub
  path := path
  gdDirpath := path.take 255
  fits := Nat.lt_of_le_of_lt (List.length_take_le ..) (by decide)
  gdNames := none
  gdIdx := 0

def dupOf (uh : UHandle) (sub : Option (Fin handlePool)) : UHandle :=
  ⟨uh.layer, sub, uh.path, [], by decide, none, 0⟩

def finishOpen (layer : UnionLayer) (path : List UInt8) (u : UnionState) :
    Except ℤ Unit → UnionState × Except ℤ (Fin unionPool)
  | .error rc => (u, .error rc)
  | .ok () => (u.setHandle i (some (newHandle layer none path)), .ok i)

def finishUpper (path : List UInt8) :
    UnionState × Except ℤ (Fin handlePool) → UnionState × Except ℤ (Fin unionPool)
  | (u, .error rc) => (u, .error rc)
  | (u, .ok h) => (u.setHandle i (some (newHandle .upper (some h) path)), .ok i)

def openWrite (i : Fin unionPool)
    (u : UnionState) : UnionState × Except ℤ (Fin unionPool) :=
  let u := { u with upperDirty := true }
  if flags &&& oCreat ≠ 0 then
    finishUpper i path
      (upperOpen env path flags mode (clearWhiteout env path (upperMkparents env path u)))
  else if !upperHas env path u then (u, .error (-30))
  else finishUpper i path (upperOpen env path flags mode u)

def openRead (i : Fin unionPool)
    (u : UnionState) : UnionState × Except ℤ (Fin unionPool) :=
  -- While the upper layer is taken to be empty it is not asked.
  if !u.upperDirty then
    match cfg.base.open path with
    | .ok () => finishOpen i .base path u (.ok ())
    | .error _ => finishOpen i .static path u (staticFallbackOpen cfg path)
  else match resolveLayer (upperHas env path u) (upperWhiteout env path u) (baseHas cfg path) with
    | .upper => finishUpper i path (upperOpen env path flags mode u)
    | .base => finishOpen i .base path u (cfg.base.open path)
    | _ => finishOpen i .static path u ((staticFallbackOpen cfg path).mapError fun _ => -2)

def uOpen (u : UnionState) :
    UnionState × Except ℤ (Fin unionPool) :=
  match freeUHandle u with
  | none => (u, .error (-24))
  | some i =>
    if flags &&& (oCreat ||| oWronly ||| oRdwr) ≠ 0 then openWrite env path flags mode i u
    else openRead cfg env path flags mode i u

def baseStat : Except ℤ LxStat :=
  match cfg.base.stat path with
  | some st => .ok st
  | none => staticFallbackStat cfg path

def uStat : Except ℤ LxStat :=
  if !u.upperDirty then baseStat cfg path
  else if upperWhiteout env path u then .error (-2)
  else if upperHas env path u then u.upperStat env path
  else baseStat cfg path

def uReadlink :
    Except ℤ (List UInt8) :=
  if !u.upperDirty then cfg.base.readlink path
  else if upperWhiteout env path u then .error (-2)
  else if upperHas env path u then .error (-22)
  else cfg.base.readlink path

def uClose : UnionState × ℤ :=
  match u.handles h with
  | none => (u, 0)
  | some uh =>
    let u := match uh.sub with
      | none => u
      | some sub => upperClose sub u
    (u.setHandle h none, 0)

def uRead (count : ℕ) (cursor : ℤ) (u : UnionState) :
    UnionState × Except ℤ (List UInt8) :=
  match u.handles h with
  | none => (u, .error (-9))
  | some uh => match uh.layer, uh.sub with
    | .upper, some sub => match opRead env sub count cursor u.fs with
      | (fs, .data bytes) => ({ u with fs }, .ok bytes)
      | (fs, r) => ({ u with fs }, .error (Reply.toCode r))
    | .static, _ => (u, (staticPath cfg uh.path).elim (.error (-9)) fun full =>
        cfg.static.read full count cursor)
    | _, _ => (u, cfg.base.read uh.path count cursor)

def uWrite (buf : List UInt8) (cursor : ℤ) (u : UnionState) :
    UnionState × ℤ :=
  match u.handles h with
  | none => (u, -9)
  | some uh => match uh.layer, uh.sub with
    | .upper, some sub =>
      let (fs, r) := opWrite env sub buf cursor u.fs
      ({ u with fs }, Reply.toCode r)
    | _, _ => (u, -30)

def uTruncate (newlen : ℤ) (u : UnionState) : UnionState × ℤ :=
  match u.handles h with
  | none => (u, -9)
  | some uh => match uh.layer, uh.sub with
    | .upper, some sub =>
      let (fs, r) := opTruncate env sub newlen u.fs
      ({ u with fs }, Reply.toCode r)
    | _, _ => (u, 0)

def uFstat : Except ℤ LxStat :=
  match u.handles h with
  | none => .error (-9)
  | some uh => match uh.layer, uh.sub with
    | .upper, some sub => opFstat env sub u.fs
    | .static, _ => staticFallbackStat cfg uh.path
    | _, _ => (cfg.base.stat uh.path).elim (.error (-9)) .ok

def uDupHandle (src : Fin unionPool) (u : UnionState) : UnionState × Option (Fin unionPool) :=
  -- The handle of a layer that is only read is duplicated with what it was opened on.
  match u.handles src with
  | none => (u, none)
  | some uh => match freeUHandle u with
    | none => (u, none)
    | some i => match uh.layer, uh.sub with
      | .upper, some sub => match opDupHandle sub u.fs with
        | (fs, .handle h) =>
          (({ u with fs } : UnionState).setHandle i (some (dupOf uh (some h))), some i)
        | (fs, _) => ({ u with fs }, none)
      | _, _ => (u.setHandle i (some (dupOf uh none)), some i)

def uMkdir (u : UnionState) : UnionState × ℤ :=
  upperMkdir env path mode (upperMkparents env path { u with upperDirty := true })

def removeWith (remove : List UInt8 → UnionState → UnionState × ℤ) (cfg : Cfg) (env : Env)
    (path : List UInt8) (u : UnionState) : UnionState × ℤ :=
  -- A name that the base has is hidden once it is gone from the upper layer.
  if upperHas env path u then
    let (u, rc) := remove path u
    (if rc = 0 ∧ baseHas cfg path then writeWhiteout env path u else u, rc)
  else if baseHas cfg path then (writeWhiteout env path u, 0)
  else (u, -2)

def uUnlink : UnionState × ℤ :=
  removeWith (upperUnlink env) cfg env path u

def uRmdir : UnionState × ℤ :=
  removeWith (upperRmdir env) cfg env path u

def uRename (oldp newp : List UInt8) (u : UnionState) : UnionState × ℤ :=
  if upperHas env oldp u then
    let (u, rc) := upperRename env oldp newp (clearWhiteout env newp (upperMkparents env newp u))
    (if rc = 0 ∧ baseHas cfg oldp then writeWhiteout env oldp u else u, rc)
  else if baseHas cfg oldp then (u, -18)
  else (u, -2)

def sotctl : List UInt8 := [115, 111, 116, 99, 116, 108]
def ldMusl : List UInt8 := [108, 100, 45, 109, 117, 115, 108]
def libApk : List UInt8 := [47, 108, 105, 98, 47, 97, 112, 107]
def multiarch : List UInt8 :=
  [120, 56, 54, 95, 54, 52, 45, 108, 105, 110, 117, 120, 45, 103, 110, 117]

def personaHides (session : UInt32) (path : List UInt8) : Bool :=
  if session = 0 then false
  else if sotctl <:+: path then true
  else if cfg.debian session then decide (ldMusl <:+: path ∨ libApk <:+: path)
  else decide (multiarch <:+: path)

def nameWhitened (name : Name) (u : UnionState) : Bool :=
  -- Whether a marker hides the name; its path is cut at the size of the buffer.
  upperHas env (((if dirpath.length = 1 then [] else dirpath) ++ whMark ++ name).take
    (maxName * 4 - 1)) u

def dot : Name := [46]
def dotdot : Name := [46, 46]

def drainNames (skip : Name → Bool) : List (Name × ℕ) → List (Name × ℕ) → List (Name × ℕ)
  | buf, [] => buf
  | buf, (nm, type) :: rest =>
    if nm = dot ∨ nm = dotdot ∨ whMark.tail <+: nm ∨ skip nm ∨ nm ∈ buf.map Prod.fst ∨
        unionGdMax ≤ buf.length then drainNames skip buf rest
    else drainNames skip (buf ++ [(nm.take (maxName - 1), type)]) rest

def upperEntries (cfg : Cfg) (env : Env) (h : Fin handlePool) (s : Fs) : ℕ → ℕ → List (Name × ℕ)
  -- The listing of an upper directory by buffers of 2048 bytes; every call but the last moves on.
  | 0, _ => []
  | fuel + 1, next => match opGetdents env cfg.hiddenRoots h 2048 next s with
    | (_, .error _) => []
    | (_, .ok []) => []
    | (next, .ok out) => out.map (fun de => (de.name, de.type)) ++ upperEntries cfg env h s fuel next

def drainUpper :
    UnionState × List (Name × ℕ) :=
  match upperOpen env dirpath 0x10000 0 u with
  | (u, .error _) => (u, [])
  | (u, .ok h) =>
    (upperClose h u, drainNames (personaHides cfg env.session) []
      (upperEntries cfg env h u.fs (maxEdges + 1) 0))

def drainBase
    (buf : List (Name × ℕ)) : List (Name × ℕ) :=
  match cfg.base.open dirpath with
  | .error _ => buf
  | .ok () => drainNames
      (fun nm => personaHides cfg env.session nm || (u.upperDirty && nameWhitened env dirpath nm u))
      buf (cfg.base.children dirpath)

def mergeNames :
    UnionState × List (Name × ℕ) :=
  let (u, buf) := if u.upperDirty then drainUpper cfg env dirpath u else (u, [])
  (u, drainBase cfg env dirpath u buf)

def emitNames : List (Name × ℕ) → ℕ → ℕ → List Dirent
  | [], _, _ => []
  | (nm, type) :: rest, idx, room =>
    if room < direntReclen nm then []
    else ⟨idx + 1, idx + 1, direntReclen nm, type, nm⟩ ::
      emitNames rest (idx + 1) (room - direntReclen nm)

def uGetdents (count : ℕ) (u : UnionState) :
    UnionState × Except ℤ (List Dirent) :=
  match u.handles h with
  | none => (u, .error (-9))
  | some uh =>
    let (u, names) := match uh.gdNames with
      | some names => (u, names)
      | none => mergeNames cfg env uh.gdDirpath u
    let out := emitNames (names.drop uh.gdIdx) uh.gdIdx count
    (u.setHandle h (some { uh with gdNames := some names, gdIdx := uh.gdIdx + out.length }), .ok out)

inductive UnionOp where
  | open (path : CStr) (flags mode : UInt32)
  | close (h : Fin unionPool)
  | read (h : Fin unionPool) (count : ℕ) (cursor : ℤ)
  | write (h : Fin unionPool) (buf : List UInt8) (cursor : ℤ)
  | truncate (h : Fin unionPool) (newlen : ℤ)
  | dupHandle (src : Fin unionPool)
  | stat (path : CStr)
  | fstat (h : Fin unionPool)
  | readlink (path : CStr)
  | getdents (h : Fin unionPool) (count : ℕ)
  | mkdir (path : CStr) (mode : UInt32)
  | unlink (path : CStr)
  | rmdir (path : CStr)
  | rename (oldp newp : CStr)

inductive UReply where
  | code (rc : ℤ)
  | opened (r : Except ℤ (Fin unionPool))
  | dup (h : Option (Fin unionPool))
  | data (r : Except ℤ (List UInt8))
  | report (r : Except ℤ LxStat)
  | listing (r : Except ℤ (List Dirent))

def uStep : Env × UnionOp → UnionState × UReply
  | (env, .open path flags mode) => (uOpen cfg env path.bytes flags mode u).map id .opened
  | (_, .close h) => (uClose h u).map id .code
  | (env, .read h count cursor) => (uRead cfg env h count cursor u).map id .data
  | (env, .write h buf cursor) => (uWrite env h buf cursor u).map id .code
  | (env, .truncate h newlen) => (uTruncate env h newlen u).map id .code
  | (_, .dupHandle src) => (uDupHandle src u).map id .dup
  | (env, .stat path) => (u, .report (uStat cfg env path.bytes u))
  | (env, .fstat h) => (u, .report (uFstat cfg env h u))
  | (env, .readlink path) => (u, .data (uReadlink cfg env path.bytes u))
  | (env, .getdents h count) => (uGetdents cfg env h count u).map id .listing
  | (env, .mkdir path mode) => (uMkdir env path.bytes mode u).map id .code
  | (env, .unlink path) => (uUnlink cfg env path.bytes u).map id .code
  | (env, .rmdir path) => (uRmdir cfg env path.bytes u).map id .code
  | (env, .rename oldp newp) => (uRename cfg env oldp.bytes newp.bytes u).map id .code

def mountMakeRoot (name : Name) (s : Fs) : Fs × ℤ :=
  match resolvePathFrom s.graph s.graph.rootId ((slash :: name).take 71) with
  | some id => (s, id)
  | none => match mkdir s.graph s.graph.rootId name 0o755 with
    | (graph, .error _) => ({ s with graph }, 0)
    | (graph, .ok id) =>
      ((({ s with graph } : Fs).log env fun tx now =>
        mkdirRecord tx now s.graph.rootId name 0o755).stampCreate env id, id)

def nameUsr : Name := [117, 115, 114]
def nameEtc : Name := [101, 116, 99]

/-- The mount of `/etc` leaves the flag as it is at boot. -/
def etcMount (s : Fs) : UnionState :=
  let (fs, root) := mountMakeRoot env nameEtc s
  ⟨fs, root, false, fun _ => none⟩

def uprobe : List UInt8 := [47, 46, 117, 112, 114, 111, 98, 101]
def upperOk : List UInt8 := [85, 80, 80, 69, 82, 45, 79, 75, 10]
def dbDirs : List (List UInt8) :=
  [[47, 108, 105, 98], [47, 108, 105, 98, 47, 97, 112, 107],
    [47, 108, 105, 98, 47, 97, 112, 107, 47, 100, 98]]

def dbFile : List UInt8 :=
  [47, 108, 105, 98, 47, 97, 112, 107, 47, 100, 98, 47, 105, 110, 115, 116, 97, 108, 108, 101, 100]

def seedFile (content : List UInt8) (u : UnionState) :
    UnionState × Bool :=
  match uOpen cfg env path (oCreat ||| oWronly) 0o644 u with
  | (u, .error _) => (u, false)
  | (u, .ok h) => ((uClose h (uWrite env h content 0 u).1).1, true)

def selfTest : UnionState :=
  let (u, ok) := seedFile cfg env uprobe upperOk u
  let u := if ok then
      let u := match uOpen cfg env uprobe 0 0 u with
        | (u, .error _) => u
        | (u, .ok h) => (uClose h (uRead cfg env h 15 0 u).1).1
      (uUnlink cfg env uprobe u).1
    else u
  { u with upperDirty := false }

def usrMount (basedb : List UInt8) (s : Fs) : UnionState :=
  let (fs, root) := mountMakeRoot env nameUsr s
  let u := selfTest cfg env ⟨fs, root, false, fun _ => none⟩
  let u := dbDirs.foldl (fun u dir => (uMkdir env dir 0o755 u).1) u
  (seedFile cfg env dbFile basedb u).1

end SotOs.Lucas.Union
