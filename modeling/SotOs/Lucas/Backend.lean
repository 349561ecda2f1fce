import SotOs.Lucas.Session
import SotOs.Sotfs.Wal

/-! The sotfs backend of the VFS (`src/lucas/backends_sotfs.c`): path and handle operations over the
one shared graph, with the branches that contain a Tier-2 caller. -/

namespace SotOs.Lucas
open Sotfs Function Slots

structure CStr where
  bytes : List UInt8
  noNul : 0 ∉ bytes

/-- The sotbox behind a call: Tier 2 is the isolated functor, `cowSession` is `0` outside SSH, and
`fpersist` is the pending hint for a persistence path. -/
structure Caller where
  isolated : Bool
  cowSession : UInt32
  fpersist : Bool
deriving DecidableEq

structure Env where
  caller : Option Caller
  now : ℤ
  stamp : ℕ → UInt64 × UInt64

variable (env : Env)

def Env.session : UInt32 := (env.caller.map Caller.cowSession).getD 0

def Env.isolated : Bool := (env.caller.map Caller.isolated).getD false

def Env.fpersist : Bool := (env.caller.map Caller.fpersist).getD false

def handlePool : ℕ := 128

theorem handlePool_pos : 0 < handlePool := by decide
def handlePathBytes : ℕ := 64

structure Handle where
  inUse : Bool
  inodeId : ℤ
  path : List UInt8

structure Fs where
  graph : Graph
  dev : Blkdev
  wal : Wal
  handles : Fin handlePool → Handle
  sessions : Sessions
  cow : Cow

variable (h : Fin handlePool) (root : ℤ) (path : List UInt8) (s : Fs)

def Fs.log (env : Env) (record : UInt64 → UInt64 → Record) : Fs :=
  let (tx, at_) := env.stamp s.wal.seq
  let (w, st, _) := walAppend (record tx at_) s.wal s.dev.st
  { s with wal := w, dev := { s.dev with st } }

def Fs.logUnlessSession (env : Env) (record : UInt64 → UInt64 → Record) : Fs :=
  -- Session operations live as long as the session and are not logged.
  if env.session = 0 then s.log env record else s

def Fs.stampCreate (env : Env) (id : ℤ) : Fs :=
  { s with graph := s.graph.modifyInode id fun n =>
      { n with mtime := env.now, ctime := env.now, atime := env.now } }

def Fs.stampWrite (env : Env) (id : ℤ) : Fs :=
  { s with graph := s.graph.modifyInode id fun n => { n with mtime := env.now, ctime := env.now } }

def Fs.applyPendingHint (env : Env) (id : ℤ) : Fs :=
  if env.fpersist then
    { s with graph := s.graph.modifyInode id fun n => { n with functorPersistence := true } }
  else s

def Fs.tag (env : Env) (id : ℤ) : Fs :=
  if env.session = 0 then s else { s with sessions := sessionTag s.sessions id env.session }

def splitPath : Option (List UInt8 × Name) :=
  let leaf := path.rtakeWhile (· != slash)
  let parentLen := path.length - leaf.length - 1
  if path.head? ≠ some slash then none
  else if 256 ≤ parentLen then none
  else if leaf = [] then none
  else some (if parentLen = 0 then [slash] else path.take parentLen, leaf)

def tmpPrefix : List UInt8 := [47, 116, 109, 112]

/-- `/tmp` goes only as a whole component. -/
def stripTmpPrefix : List UInt8 :=
  if path.take 4 = tmpPrefix then
    match path.drop 4 with
    | [] => [slash]
    | c :: rest => if c = slash then c :: rest else path
  else path

def backendRoot (g : Graph) (mountRoot : ℤ) : ℤ := if 0 < mountRoot then mountRoot else g.rootId

def segments : List UInt8 → List UInt8 → List Name
  | cur, [] => if cur = [] then [] else [cur]
  | cur, c :: rest => if c = slash then cur :: segments [] rest else segments (cur ++ [c]) rest

def errToErrno : Err → ℤ
  | .errExists => -17
  | .errNoent => -2
  | .errNotdir => -20
  | .errIsdir => -21
  | .errNotempty => -39
  | .errNospace => -28
  | .errNametoolong => -36
  | .errInval => -22

def autoMkdir (env : Env) (root : ℤ) : Fs → List UInt8 → ℤ → List Name → Fs × Except ℤ ℤ
  | s, _, curParent, [] => (s, .ok curParent)
  | s, cur, curParent, seg :: rest =>
    if seg = [] ∨ 64 ≤ seg.length then (s, .error (-22))
    else if 256 ≤ cur.length + 1 + seg.length + 1 then (s, .error (-22))
    else
      let cur := cur ++ slash :: seg
      match resolvePathFrom s.graph root cur with
      | some existing => autoMkdir env root s cur existing rest
      | none => match mkdir s.graph curParent seg 0o755 with
        | (g, .error _) => ({ s with graph := g }, .error (-28))
        | (g, .ok _) =>
          let s := { s with graph := g }.logUnlessSession env fun tx now =>
            mkdirRecord tx now curParent seg 0o755
          match resolvePathFrom s.graph root cur with
          | none => (s, .error (-5))
          | some existing =>
            autoMkdir env root ((s.stampCreate env existing).tag env existing) cur existing rest

def openParent (parentPath : List UInt8) (s : Fs) : Fs × Except ℤ ℤ :=
  match resolvePathFrom s.graph root parentPath with
  | some parentId => (s, .ok parentId)
  | none =>
    if !env.fpersist then (s, .error (-2))
    else
      let curParent := backendRoot s.graph root
      if curParent = 0 then (s, .error (-2))
      else
        let p := if parentPath.head? = some slash then parentPath.tail else parentPath
        autoMkdir env root s [] curParent (segments [] p)

def createErrno : Err → ℤ
  | .errNametoolong => -36
  | .errExists => -17
  | .errNotdir => -20
  | .errInval => -22
  | _ => -28

def openCreate (mode : UInt32) (s : Fs) :
    Fs × Except ℤ ℤ :=
  if env.isolated && !env.fpersist && env.session == 0 then (s, .error (-13))
  else match splitPath path with
    | none => (s, .error (-22))
    | some (parentPath, leaf) =>
      match openParent env root parentPath s with
      | (s, .error rc) => (s, .error rc)
      | (s, .ok parentId) =>
        let mode := if mode = 0 then 0o644 else mode
        match createFile s.graph parentId leaf mode with
        | (g, .error e) => ({ s with graph := g }, .error (createErrno e))
        | (g, .ok _) =>
          let s := { s with graph := g }.logUnlessSession env fun tx now =>
            createFileRecord tx now parentId leaf mode
          match resolvePathFrom s.graph root path with
          | none => (s, .error (-5))
          | some id =>
            (((s.stampCreate env id).tag env id).applyPendingHint env id, .ok id)

inductive Reply where
  | code (rc : ℤ)
  | handle (h : Fin handlePool)
  | data (bytes : List UInt8)
  | noHandle
deriving DecidableEq

def freeHandle : Option (Fin handlePool) := first fun i => !(s.handles i).inUse

def openHandle (id : ℤ) : Fs × Reply :=
  match freeHandle s with
  | none => (s, .code (-24))
  | some i =>
    ({ s with
        handles := update s.handles i ⟨true, id, path.take (handlePathBytes - 1)⟩
        graph := inodeOpen s.graph id }, .handle i)

def oCreat : UInt32 := 0x40

def opOpen (mountRoot : ℤ) (path : List UInt8) (flags mode : UInt32) (s : Fs) :
    Fs × Reply :=
  let root := backendRoot s.graph mountRoot
  match resolvePathFrom s.graph root path with
  | some id => openHandle path s id
  | none =>
    if flags &&& oCreat = 0 then (s, .code (-2))
    else match openCreate env root path mode s with
      | (s, .error rc) => (s, .code rc)
      | (s, .ok id) => openHandle path s id

def opClose : Fs × Reply :=
  if (s.handles h).inUse then
    ({ s with
        graph := inodeClose s.graph (s.handles h).inodeId
        handles := update s.handles h { s.handles h with inUse := false } }, .code 0)
  else (s, .code 0)

def opDupHandle : Fs × Reply :=
  -- A handle that was closed but not taken again can still be duplicated.
  if (s.handles h).inodeId ≤ 0 then (s, .noHandle)
  else match freeHandle s with
    | none => (s, .noHandle)
    | some i =>
      ({ s with
          handles := update s.handles i { s.handles h with inUse := true }
          graph := inodeOpen s.graph (s.handles h).inodeId }, .handle i)

def handleSlot (h : Fin handlePool) : Option (Fin maxInodes) :=
  if (s.handles h).inUse then ofId maxInodes (s.handles h).inodeId else none

def low32 (n : ℤ) : ℕ := (n % 2 ^ 32).toNat

def opRead (count : ℕ) (cursor : ℤ) (s : Fs) : Fs × Reply :=
  match handleSlot s h with
  | none => (s, .code (-9))
  | some i =>
    let id := toId i
    if (s.graph.inodes i).map (·.kind) = some .dir then (s, .code (-21))
    else if !sessionVisible s.sessions id env.session then (s, .code (-9))
    else match if env.session = 0 then none else cowRead s.cow env.session (s.handles h).path with
      | some overlay => (s, .data ((overlay.drop cursor.toNat).take count))
      | none =>
        match fileRead s.graph s.dev id (low32 cursor) (count % 2 ^ 32) with
        | (dev, .error e) => ({ s with dev }, .code e.code)
        | (dev, .ok bytes) => ({ s with dev }, .data bytes)

def spliceAt (old : List UInt8) (off : ℕ) (buf : List UInt8) : List UInt8 :=
  old.take off ++ List.replicate (off - old.length) 0 ++ buf ++ old.drop (off + buf.length)

def sessionWrite (i : Fin maxInodes) (buf : List UInt8)
    (cursor : ℤ) (s : Fs) : Fs × Reply :=
  -- A Tier-2 write goes to an inode of the caller's session, charged to it, or else into the
  -- session's overlay.
  let id := toId i
  let off := cursor.toNat
  let newEnd := off + buf.length
  if sessionOwner s.sessions id = env.session then
    let oldSize := ((s.graph.inodes i).map (·.size)).getD 0
    if 2 ^ 32 ≤ newEnd then (s, .code (-28))
    else
      let (sessions, rc) := if oldSize < newEnd then
        sessionCharge s.sessions env.session (newEnd - oldSize) else (s.sessions, 0)
      if rc ≠ 0 then ({ s with sessions }, .code rc)
      else match fileWrite s.graph s.dev id off buf with
        | (graph, dev, .error e) => ({ s with sessions, graph, dev }, .code (errToErrno e))
        | (graph, dev, .ok _) =>
          (({ s with sessions, graph, dev } : Fs).stampWrite env id, .code buf.length)
  else if cowMaxBytes < newEnd then (s, .code (-28))
  else
    let path := (s.handles h).path
    let old := (cowRead s.cow env.session path).getD []
    let (cow, rc) := cowWrite s.cow env.session path (spliceAt old off buf)
    ({ s with cow }, .code (if rc ≠ 0 then rc else buf.length))

variable (buf : List UInt8)

def opWrite (cursor : ℤ) (s : Fs) :
    Fs × Reply :=
  match handleSlot s h with
  | none => (s, .code (-9))
  | some i =>
    let id := toId i
    if (s.graph.inodes i).map (·.kind) = some .dir then (s, .code (-21))
    else if env.isolated then
      -- without a session there is no overlay to write to: the bytes are dropped
      if env.session = 0 then (s, .code buf.length) else sessionWrite env h i buf cursor s
    else
      match fileWrite s.graph s.dev id (low32 cursor) (buf.take (buf.length % 2 ^ 32)) with
      | (graph, dev, .error e) => ({ s with graph, dev }, .code e.code)
      | (graph, dev, .ok n) =>
        let s := ({ s with graph, dev } : Fs).log env fun tx now =>
          writeRecord tx now id (low32 cursor) (buf.take n)
        ((s.stampWrite env id).applyPendingHint env id, .code n)

def opTruncate (newlen : ℤ) (s : Fs) : Fs × Reply :=
  -- Only a session's overlay is ever truncated.
  if !(s.handles h).inUse then (s, .code (-9))
  else if env.session = 0 then (s, .code 0)
  else
    let (cow, rc) := cowTruncate s.cow env.session (s.handles h).path
      (if 0 < newlen then low32 newlen else 0)
    ({ s with cow }, .code rc)

def mkdirRoot (mode : UInt32) (s : Fs) : Fs × Reply :=
  if env.isolated && env.session == 0 then (s, .code (-13))
  else match splitPath (stripTmpPrefix path) with
    | none => (s, .code (-22))
    | some (parentPath, leaf) => match resolvePathFrom s.graph root parentPath with
      | none => (s, .code (-2))
      | some parentId =>
        if (findEdge s.graph parentId leaf).isSome then (s, .code (-17))
        else
          let mode := if mode = 0 then 0o755 else mode
          match mkdir s.graph parentId leaf mode with
          | (graph, .error _) => ({ s with graph }, .code (-28))
          | (graph, .ok id) =>
            let s := ({ s with graph } : Fs).logUnlessSession env fun tx now =>
              mkdirRecord tx now parentId leaf mode
            ((s.stampCreate env id).tag env id, .code 0)

def sizeAt (g : Graph) (id : ℤ) : ℕ := ((g.inode id).map (·.size)).getD 0

def unlinkRoot : Fs × Reply :=
  -- The containment check asks for the owner of the number of the edge, not of its child.
  if env.isolated && env.session == 0 then (s, .code (-13))
  else match splitPath (stripTmpPrefix path) with
    | none => (s, .code (-22))
    | some (parentPath, leaf) => match resolvePathFrom s.graph root parentPath with
      | none => (s, .code (-2))
      | some parentId =>
        let contained := env.isolated && env.session != 0
        let tgt := findEdge s.graph parentId leaf
        if contained && tgt.isNone then (s, .code (-2))
        else
          let tgtId := (tgt.map toId).getD 0
          if contained && sessionOwner s.sessions tgtId != env.session then (s, .code 0)
          else
            let credit := if contained then sizeAt s.graph tgtId else 0
            match unlink s.graph parentId leaf with
            | (graph, .error _) => ({ s with graph }, .code (-2))
            | (graph, .ok ()) =>
              let sessions := if credit ≠ 0 then sessionUncharge s.sessions env.session credit
                else s.sessions
              (({ s with graph, sessions } : Fs).logUnlessSession env fun tx now =>
                unlinkRecord tx now parentId leaf, .code 0)

def rmdirRoot : Fs × Reply :=
  -- Removal by a session is neither checked for ownership nor kept out of the log.
  if env.isolated && env.session == 0 then (s, .code (-13))
  else match splitPath (stripTmpPrefix path) with
    | none => (s, .code (-22))
    | some (parentPath, leaf) => match resolvePathFrom s.graph root parentPath with
      | none => (s, .code (-2))
      | some parentId => match rmdir s.graph parentId leaf with
        | (graph, .error e) => ({ s with graph }, .code (errToErrno e))
        | (graph, .ok ()) =>
          (({ s with graph } : Fs).log env fun tx now => rmdirRecord tx now parentId leaf, .code 0)

def clobberCredit (tgt : Fin maxEdges) : UInt32 × ℕ :=
  -- The session a clobbered destination's bytes go back to, and how many; both are looked up under
  -- the number of the edge.
  let session := sessionOwner s.sessions (toId tgt)
  (session, if session ≠ 0 then sizeAt s.graph (toId tgt) else 0)

def renameOnto (hadDst : Bool) (credit : UInt32 × ℕ) (pSrc : ℤ) (sleaf : Name)
    (pDst : ℤ) (dleaf : Name) (s : Fs) : Fs × Reply :=
  match rename s.graph pSrc sleaf pDst dleaf with
  | (graph, .error e) => ({ s with graph }, .code (errToErrno e))
  | (graph, .ok ()) =>
    let s := { s with graph }
    let s := if hadDst then s.log env fun tx now => unlinkRecord tx now pDst dleaf else s
    let s := s.log env fun tx now => renameRecord tx now pSrc sleaf pDst dleaf
    let sessions := if credit.1 ≠ 0 ∧ credit.2 ≠ 0 then
      sessionUncharge s.sessions credit.1 credit.2 else s.sessions
    ({ s with sessions }, .code 0)

def renameRoot (oldpath newpath : List UInt8) (s : Fs) : Fs × Reply :=
  -- A destination that is a file is unlinked first, and stays so if the rename then fails.
  if env.isolated && env.session == 0 then (s, .code (-13))
  else
    let src := stripTmpPrefix oldpath
    let dst := stripTmpPrefix newpath
    if src = dst then (s, .code 0)
    else match splitPath src, splitPath dst with
      | some (sparent, sleaf), some (dparent, dleaf) =>
        match resolvePathFrom s.graph root sparent, resolvePathFrom s.graph root dparent with
        | some pSrc, some pDst =>
          match findEdge s.graph pDst dleaf with
          | none => renameOnto env false (0, 0) pSrc sleaf pDst dleaf s
          | some tgt => match unlink s.graph pDst dleaf with
            | (graph, .error e) =>
              ({ s with graph }, .code (if e = .errIsdir then -21 else -22))
            | (graph, .ok ()) =>
              renameOnto env true (clobberCredit s tgt) pSrc sleaf pDst dleaf { s with graph }
        | _, _ => (s, .code (-2))
      | _, _ => (s, .code (-22))

def install (content : List UInt8) (s : Fs) : Fs × Reply :=
  -- The unlink of a file that was there before is neither checked nor logged.
  if path = [] then (s, .code (-22))
  else
    let leaf := if path.head? = some slash then path.tail else path
    let root := s.graph.rootId
    let g := if (findEdge s.graph root leaf).isSome then (unlink s.graph root leaf).1 else s.graph
    match createFile g root leaf 0o644 with
    | (graph, .error _) => ({ s with graph }, .code (-28))
    | (graph, .ok _) => match resolvePath graph path with
      | none => ({ s with graph }, .code (-5))
      | some id =>
        match fileWrite graph s.dev id 0 (content.take (content.length % 2 ^ 32)) with
        | (graph, dev, .error _) =>
          ({ s with graph := (unlink graph root leaf).1, dev }, .code (-28))
        | (graph, dev, .ok _) =>
          ((({ s with graph, dev } : Fs).stampCreate env id).log env fun tx now =>
            installRecord tx now path (content.take (content.length % 2 ^ 32)), .code 0)

def reapBlock (id : ℤ) (s : Graph × Blkdev) (i : Fin maxBlocks) : Graph × Blkdev :=
  -- A mapping of the inode goes together with the disk block behind it.
  match s.1.blocks i with
  | none => s
  | some b => if b.fileId = id then (s.1.setBlock i none, blkFree s.2 b.diskBlk) else s

def reapEdges (id : ℤ) (g : Graph) : Graph :=
  freeInode { g with edges := fun k => (g.edges k).filter fun e => e.childId != id } id

def reapInode (s : Graph × Blkdev) (i : Fin maxInodes) : Graph × Blkdev :=
  ((List.finRange maxBlocks).foldl (reapBlock (toId i)) s).map (reapEdges (toId i)) id

def sessionReap (session : UInt32) (s : Fs) : Fs :=
  if session = 0 then s
  else
    let owned := (List.finRange maxInodes).filter fun i => s.sessions.owner i == session
    let (graph, dev) := owned.foldl reapInode (s.graph, s.dev)
    { s with graph, dev, sessions := sessionClear s.sessions session }

inductive FsOp where
  | open (mountRoot : ℤ) (path : CStr) (flags mode : UInt32)
  | close (h : Fin handlePool)
  | dupHandle (h : Fin handlePool)
  | read (h : Fin handlePool) (count : ℕ) (cursor : ℤ)
  | write (h : Fin handlePool) (buf : List UInt8) (cursor : ℤ)
  | truncate (h : Fin handlePool) (newlen : ℤ)
  | mkdir (mountRoot : ℤ) (path : CStr) (mode : UInt32)
  | unlink (mountRoot : ℤ) (path : CStr)
  | rmdir (mountRoot : ℤ) (path : CStr)
  | rename (mountRoot : ℤ) (oldpath newpath : CStr)
  | install (path : CStr) (content : List UInt8)
  | reap (session : UInt32)

def fsStep : Env × FsOp → Fs × Reply
  | (env, .open mountRoot path flags mode) => opOpen env mountRoot path.bytes flags mode s
  | (_, .close h) => opClose h s
  | (_, .dupHandle h) => opDupHandle h s
  | (env, .read h count cursor) => opRead env h count cursor s
  | (env, .write h buf cursor) => opWrite env h buf cursor s
  | (env, .truncate h newlen) => opTruncate env h newlen s
  | (env, .mkdir mountRoot path mode) =>
    mkdirRoot env (backendRoot s.graph mountRoot) path.bytes mode s
  | (env, .unlink mountRoot path) => unlinkRoot env (backendRoot s.graph mountRoot) path.bytes s
  | (env, .rmdir mountRoot path) => rmdirRoot env (backendRoot s.graph mountRoot) path.bytes s
  | (env, .rename mountRoot oldpath newpath) =>
    renameRoot env (backendRoot s.graph mountRoot) oldpath.bytes newpath.bytes s
  | (env, .install path content) => install env path.bytes content s
  | (_, .reap session) => (sessionReap session s, .code 0)

def freshFs (st : Storage) (now : ℤ) : Fs :=
  -- The file system on a storage device before the log is replayed: the block store comes up even
  -- if its attach failed.
  let env : Env := ⟨none, now, fun _ => (0, 0)⟩
  let s : Fs :=
    { graph := graphInit
      dev := (blkdevInit (bssBlkdev st) st dataOffset dataRegionBytes false).1
      wal := walInit ⟨0, 0, false, 0, false⟩
      handles := fun _ => ⟨false, 0, []⟩
      sessions := sessionInit
      cow := fun _ => none }
  s.stampCreate env graphInit.rootId

/-- The first call: what an earlier boot logged is replayed. The files installed next are ordinary
calls of `install`. -/
def lazyInit (st : Storage) (now : ℤ) : Fs :=
  let s := freshFs st now
  match walReplayFiles s.wal (s.graph, s.dev) with
  | none => s
  | some (wal, out) => { s with wal, graph := out.state.1, dev := out.state.2 }

end SotOs.Lucas
