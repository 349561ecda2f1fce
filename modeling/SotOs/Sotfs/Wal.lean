import SotOs.Lib.Machine
import SotOs.Sotfs.Io
import SotOs.Sotfs.WalFormat

/-! The write-ahead log (`src/sotfs/wal.c`): appending frames at a cursor, with a checkpoint after
every 4096 of them, and the scan that replays the log into a graph. -/

namespace SotOs.Sotfs

/-- The statics of the log. `inCheckpoint` keeps a checkpoint from starting another one. -/
structure Wal where
  cursor : ℕ
  seq : ℕ
  initialised : Bool
  recordsSinceCheckpoint : ℕ
  inCheckpoint : Bool

def checkpointInterval : ℕ := 4096

/-- What an append returns: `0`, `-22` before init, `-28` for a full log, or the device's code. -/
inductive AppendRc | ok | uninit | full | io (rc : ℤ)
  deriving DecidableEq

def AppendRc.code : AppendRc → ℤ
  | .ok => 0
  | .uninit => -22
  | .full => -28
  | .io rc => rc

variable (w : Wal)

def walInit : Wal := { w with cursor := walOffset, seq := 1, initialised := true }

def frameHeader (seq kind : ℕ) (payload : List UInt8) : Header :=
  ⟨seq, kind, headerBytes + payload.length, (crc64 payload).toNat⟩

def writeFrame (cap kind : ℕ) (payload : List UInt8) (w : Wal) (st : Storage) :
    Wal × Storage × AppendRc :=
  -- The body the append paths share: limit check, two writes, then cursor and sequence number.
  let hdr := frameHeader w.seq kind payload
  if cap < w.cursor + hdr.len then (w, st, .full)
  else
    let (st, rc) := st.writeBlock w.cursor hdr.encode
    if rc < 0 then (w, st, .io rc)
    else
      let (st, rc) := st.writeBlock (w.cursor + headerBytes) payload
      if rc < 0 then (w, st, .io rc)
      else ({ w with cursor := w.cursor + hdr.len, seq := (w.seq + 1) % 2 ^ 64 }, st, .ok)

variable (st : Storage)

def maybeCheckpoint : Wal × Storage × Option AppendRc :=
  -- A checkpoint's own result goes unread; it is returned here to be spoken about.
  if w.inCheckpoint then (w, st, none)
  else if w.recordsSinceCheckpoint + 1 < checkpointInterval then
    ({ w with recordsSinceCheckpoint := w.recordsSinceCheckpoint + 1 }, st, none)
  else
    let ck := checkpointPayload w.seq
    -- the append of the checkpoint finds the flag set and stops after its frame
    let (w, st, rc) := writeFrame walEnd ck.kind.code ck.bytes
      { w with recordsSinceCheckpoint := 0, inCheckpoint := true } st
    ({ w with inCheckpoint := false }, st, some rc)

structure AppendReply where
  rc : AppendRc
  checkpoint : Option AppendRc

def appendFrame (cap kind : ℕ) (payload : List UInt8) (w : Wal) (st : Storage) :
    Wal × Storage × AppendReply :=
  if w.initialised then
    match writeFrame cap kind payload w st with
    | (w, st, .ok) =>
      let (w, st, ck) := maybeCheckpoint w st
      (w, st, ⟨.ok, ck⟩)
    | (w, st, rc) => (w, st, ⟨rc, none⟩)
  else (w, st, ⟨.uninit, none⟩)

def walAppend (r : Record) (w : Wal) (st : Storage) : Wal × Storage × AppendReply :=
  -- The limit of a file-system record is the end of the device.
  appendFrame st.capacity r.kind.code r.encode w st

def walLogPayload (p : Payload) (w : Wal) (st : Storage) : Wal × Storage × AppendReply :=
  -- The limit of a payload is the end of the log's region.
  appendFrame walEnd p.kind.code p.bytes w st

inductive AppendReq
  | record (r : Record)
  | payload (p : Payload)

structure Log where
  wal : Wal
  st : Storage

def logStep (s : Log) : AppendReq → Log × AppendReply
  | .record r => let (w, st, reply) := walAppend r s.wal s.st; (⟨w, st⟩, reply)
  | .payload p => let (w, st, reply) := walLogPayload p s.wal s.st; (⟨w, st⟩, reply)

def nameField (s : Name) : Vector UInt8 walNameBytes :=
  Vector.ofFn fun k => if k.val + 1 < walNameBytes then (s[k.val]?).getD 0 else 0

def fieldName (v : Vector UInt8 walNameBytes) : Name := v.toList.takeWhile (· ≠ 0)

def blobField (buf : List UInt8) : Vector UInt8 walMaxBlob :=
  Vector.ofFn fun k => (buf[k.val]?).getD 0

def prepHeader (kind : FsKind) (tx timestamp : UInt64) : Record where
  magic := walMagic
  length := .ofNat recordBytes
  txId := tx
  timestamp
  kind
  reserved := 0
  parentId := 0
  targetId := 0
  newParentId := 0
  mode := 0
  offset := 0
  blobLen := 0
  name := .replicate _ 0
  name2 := .replicate _ 0
  blob := .replicate _ 0

variable (tx now : UInt64) (parent : ℤ) (name : Name)

def createFileRecord (mode : UInt32) : Record :=
  { prepHeader .createFile tx now with
    parentId := .ofInt parent, mode, name := nameField name,
    blobLen := .ofNat (fieldName (nameField name)).length }

def mkdirRecord (mode : UInt32) : Record :=
  { prepHeader .mkdir tx now with parentId := .ofInt parent, mode, name := nameField name }

def unlinkRecord : Record :=
  { prepHeader .unlink tx now with parentId := .ofInt parent, name := nameField name }

def rmdirRecord : Record :=
  { prepHeader .rmdir tx now with parentId := .ofInt parent, name := nameField name }

def renameRecord (pSrc : ℤ) (oldName : Name) (pDst : ℤ) (newName : Name) :
    Record :=
  { prepHeader .rename tx now with
    parentId := .ofInt pSrc, newParentId := .ofInt pDst,
    name := nameField oldName, name2 := nameField newName }

def writeRecord (fileId : ℤ) (offset : ℕ) (buf : List UInt8) : Record :=
  { prepHeader .write tx now with
    targetId := .ofInt fileId, offset := .ofNat offset,
    blobLen := .ofNat (min buf.length walMaxBlob), blob := blobField buf }

def installRecord (path : List UInt8) (content : List UInt8) : Record :=
  { prepHeader .install tx now with
    name := nameField path, blobLen := .ofNat (min content.length walMaxBlob),
    blob := blobField content }

def Record.data (r : Record) : List UInt8 := r.blob.toList.take r.blobLen.toNat

def onGraph {α : Type} (d : Blkdev) (out : Graph × Except Err α) : (Graph × Blkdev) × Bool :=
  ((out.1, d), out.2.isOk)

def onFile (out : Graph × Blkdev × Except Err ℕ) : (Graph × Blkdev) × Bool :=
  ((out.1, out.2.1), out.2.2.isOk)

def applyRecord (s : Graph × Blkdev) (r : Record) : (Graph × Blkdev) × Bool :=
  -- The flag says whether the record counts as applied.
  let (g, d) := s
  let name := fieldName r.name
  match r.kind with
  | .createFile => onGraph d (createFile g r.parentId.toInt name r.mode)
  | .mkdir => onGraph d (mkdir g r.parentId.toInt name r.mode)
  | .unlink => onGraph d (unlink g r.parentId.toInt name)
  | .rmdir => onGraph d (rmdir g r.parentId.toInt name)
  | .rename =>
    onGraph d (rename g r.parentId.toInt name r.newParentId.toInt (fieldName r.name2))
  | .write =>
    if name = [] then onFile (fileWrite g d r.targetId.toInt r.offset.toNat r.data)
    else match resolvePath g name with
      | none => (s, false)
      | some id => onFile (fileWrite g d id r.offset.toNat r.data)
  | .install =>
    let leaf := if name.head? = some slash then name.tail else name
    let g := (createFile g g.rootId leaf 0o644).1
    match resolvePath g name with
    | none => ((g, d), false)
    | some id => onFile (fileWrite g d id 0 r.data)
  | .none => (s, false)

inductive Visit
  | skipped (hdr : Header)
  | applied (hdr : Header) (payload : List UInt8) (ok : Bool)
  | torn (hdr : Header)
  | ignored (hdr : Header)

section
variable {σ : Type*} (storage : σ → Storage) (apply : σ → Record → σ × Bool)

def visitFrame (s : σ) (off : ℕ) (hdr : Header) : σ × Visit :=
  -- Frames of the other subsystems are passed over; a record is applied if its checksum holds.
  if PayloadKind.procdMut.code ≤ hdr.kind then (s, .skipped hdr)
  else if hdr.len - headerBytes = recordBytes then
    match (storage s).readBlock (off + headerBytes) recordBytes with
    | none => (s, .torn hdr)
    | some raw =>
      if (crc64 raw).toNat = hdr.crc then
        let (s, ok) := apply s (Record.decode raw)
        (s, .applied hdr raw ok)
      else (s, .torn hdr)
  else (s, .ignored hdr)

structure ScanEnd (σ : Type*) where
  state : σ
  off : ℕ
  lastSeq : ℕ
  visits : List Visit

def nextHeader (st : Storage) (off : ℕ) : Option Header :=
  if walEnd < off + headerBytes then none
  else match st.readBlock off headerBytes with
    | none => none
    | some raw =>
      let hdr := Header.decode raw
      if hdr.seq = 0 ∨ hdr.len < headerBytes then none
      else if walEnd < off + hdr.len then none
      else some hdr

theorem nextHeader_some {st : Storage} {off : ℕ} {hdr : Header} (h : nextHeader st off = some hdr) :
    headerBytes ≤ hdr.len ∧ off + hdr.len ≤ walEnd := by
  unfold nextHeader at h
  split_ifs at h
  split at h
  · cases h
  · dsimp only at h
    split_ifs at h with hshort hlong
    cases h
    omega

def scanLoop (s : σ) (off lastSeq : ℕ) : ScanEnd σ :=
  match _h : nextHeader (storage s) off with
  | none => ⟨s, off, lastSeq, []⟩
  | some hdr =>
    let (s, visit) := visitFrame storage apply s off hdr
    let out := scanLoop s (off + hdr.len) hdr.seq
    { out with visits := visit :: out.visits }
  termination_by walEnd - off
  decreasing_by
    have hnext := nextHeader_some _h
    have hpos : 0 < headerBytes := by decide
    omega

/-- The cursor moves past the last frame; the sequence number only ever moves up. `none` stands
for `-22`, before init. -/
def replayWith (w : Wal) (s : σ) : Option (Wal × ScanEnd σ) :=
  if w.initialised then
    let out := scanLoop storage apply s walOffset 0
    some ({ w with
      cursor := out.off
      seq := if w.seq ≤ out.lastSeq then (out.lastSeq + 1) % 2 ^ 64 else w.seq }, out)
  else none

end

def walReplayFiles (s : Graph × Blkdev) : Option (Wal × ScanEnd (Graph × Blkdev)) :=
  replayWith (fun s => s.2.st) applyRecord w s

end SotOs.Sotfs
