import SotOs.Sotfs.Graph

/-! The on-disk form of the write-ahead log (`include/sotfs/wal.h`, `src/sotfs/crc64.c`): a frame is
a 24-byte header followed by its payload, and every file-system record has the same size. -/

namespace SotOs.Sotfs
open LittleEndian (encode take_encode)
open List hiding Vector

def walOffset : ℕ := 268 * 1024 * 1024
def walRegionBytes : ℕ := 4 * 1024 * 1024
def dataOffset : ℕ := walOffset + walRegionBytes
def dataRegionBytes : ℕ := 256 * 1024 * 1024
def imgTotalBytes : ℕ := dataOffset + dataRegionBytes

def walEnd : ℕ := walOffset + walRegionBytes

def crc64Shift (c : UInt64) : UInt64 :=
  if c &&& 1 = 1 then (c >>> 1) ^^^ 0xC96C5795D7870F42 else c >>> 1

def crc64Table (i : UInt8) : UInt64 := crc64Shift^[8] i.toUInt64

def crc64 (buf : List UInt8) : UInt64 :=
  ~~~ buf.foldl (fun crc b => crc64Table (crc ^^^ b.toUInt64).toUInt8 ^^^ (crc >>> 8))
    0xFFFFFFFFFFFFFFFF

/-- `sotfs_wal_v2_header_t`; `len` counts the header too, `crc` covers the payload only. -/
structure Header where
  seq : ℕ
  kind : ℕ
  len : ℕ
  crc : ℕ
  deriving DecidableEq

def headerBytes : ℕ := 24

def Header.encode (h : Header) : List UInt8 :=
  LittleEndian.encode 8 h.seq ++ (LittleEndian.encode 4 h.kind ++
    (LittleEndian.encode 4 h.len ++ LittleEndian.encode 8 h.crc))

def Header.decode (bs : List UInt8) : Header :=
  let (seq, bs) := LittleEndian.take 8 bs
  let (kind, bs) := LittleEndian.take 4 bs
  let (len, bs) := LittleEndian.take 4 bs
  let (crc, _) := LittleEndian.take 8 bs
  ⟨seq, kind, len, crc⟩

@[simp] theorem Header.length_encode (h : Header) : h.encode.length = headerBytes := by
  simp [Header.encode, headerBytes]

structure Header.Fits (h : Header) : Prop where
  seq : h.seq < 256 ^ 8
  kind : h.kind < 256 ^ 4
  len : h.len < 256 ^ 4
  crc : h.crc < 256 ^ 8

theorem Header.decode_encode {h : Header} (hf : h.Fits) : Header.decode h.encode = h := by
  have hcrc := take_encode 8 hf.crc []
  rw [append_nil] at hcrc
  simp only [Header.decode, Header.encode, take_encode 8 hf.seq,
    take_encode 4 hf.kind, take_encode 4 hf.len, hcrc]

def lengthField : ℕ := 12

theorem Header.decode_len_zero {bs : List UInt8} (h : ∀ b ∈ (bs.drop lengthField).take 4, b = 0) :
    (Header.decode bs).len = 0 := by
  change LittleEndian.decode (((bs.drop 8).drop 4).take 4) = 0
  rw [drop_drop]
  exact LittleEndian.decode_zero h

/-- The kinds of file-system records; `none` also stands for any code the log does not know. -/
inductive FsKind | none | createFile | mkdir | unlink | rmdir | rename | write | install
  deriving DecidableEq

def FsKind.code : FsKind → ℕ
  | .none => 0
  | .createFile => 1
  | .mkdir => 2
  | .unlink => 3
  | .rmdir => 4
  | .rename => 5
  | .write => 6
  | .install => 7

def FsKind.ofCode : ℕ → FsKind
  | 1 => .createFile
  | 2 => .mkdir
  | 3 => .unlink
  | 4 => .rmdir
  | 5 => .rename
  | 6 => .write
  | 7 => .install
  | _ => .none

theorem FsKind.ofCode_code (k : FsKind) : FsKind.ofCode k.code = k := by
  cases k <;> rfl

def walNameBytes : ℕ := 128
def walMaxBlob : ℕ := 512
def walMagic : UInt32 := 0xDF50FA01

structure Record where
  magic : UInt32
  length : UInt32
  txId : UInt64
  timestamp : UInt64
  kind : FsKind
  reserved : UInt16
  parentId : Int32
  targetId : Int32
  newParentId : Int32
  mode : UInt32
  offset : UInt32
  blobLen : UInt32
  name : Vector UInt8 walNameBytes
  name2 : Vector UInt8 walNameBytes
  blob : Vector UInt8 walMaxBlob

def recordBytes : ℕ := 824

def Record.encode (r : Record) : List UInt8 :=
  LittleEndian.encode 4 r.magic.toNat ++ (LittleEndian.encode 4 r.length.toNat ++
    (LittleEndian.encode 8 r.txId.toNat ++ (LittleEndian.encode 8 r.timestamp.toNat ++
    (LittleEndian.encode 2 r.kind.code ++ (LittleEndian.encode 2 r.reserved.toNat ++
    (LittleEndian.encode 4 r.parentId.toUInt32.toNat ++
    (LittleEndian.encode 4 r.targetId.toUInt32.toNat ++
    (LittleEndian.encode 4 r.newParentId.toUInt32.toNat ++
    (LittleEndian.encode 4 r.mode.toNat ++ (LittleEndian.encode 4 r.offset.toNat ++
    (LittleEndian.encode 4 r.blobLen.toNat ++ (r.name.toList ++ (r.name2.toList ++
    (r.blob.toList ++ List.replicate 4 0))))))))))))))

def takeVector (n : ℕ) (bs : List UInt8) : Vector UInt8 n × List UInt8 :=
  (Vector.ofFn fun k => (bs[k.val]?).getD 0, bs.drop n)

def Record.decode (bs : List UInt8) : Record :=
  let (magic, bs) := LittleEndian.take 4 bs
  let (length, bs) := LittleEndian.take 4 bs
  let (txId, bs) := LittleEndian.take 8 bs
  let (timestamp, bs) := LittleEndian.take 8 bs
  let (kind, bs) := LittleEndian.take 2 bs
  let (reserved, bs) := LittleEndian.take 2 bs
  let (parentId, bs) := LittleEndian.take 4 bs
  let (targetId, bs) := LittleEndian.take 4 bs
  let (newParentId, bs) := LittleEndian.take 4 bs
  let (mode, bs) := LittleEndian.take 4 bs
  let (offset, bs) := LittleEndian.take 4 bs
  let (blobLen, bs) := LittleEndian.take 4 bs
  let (name, bs) := takeVector walNameBytes bs
  let (name2, bs) := takeVector walNameBytes bs
  let (blob, _) := takeVector walMaxBlob bs
  { magic := .ofNat magic, length := .ofNat length, txId := .ofNat txId,
    timestamp := .ofNat timestamp, kind := .ofCode kind, reserved := .ofNat reserved,
    parentId := (UInt32.ofNat parentId).toInt32, targetId := (UInt32.ofNat targetId).toInt32,
    newParentId := (UInt32.ofNat newParentId).toInt32, mode := .ofNat mode,
    offset := .ofNat offset, blobLen := .ofNat blobLen, name, name2, blob }

@[simp] theorem Record.length_encode (r : Record) : r.encode.length = recordBytes := by
  simp only [Record.encode, length_append, LittleEndian.length_encode,
    Vector.length_toList, length_replicate]
  rfl

theorem takeVector_append {n : ℕ} (v : Vector UInt8 n) (rest : List UInt8) :
    takeVector n (v.toList ++ rest) = (v, rest) := by
  have hlen : v.toList.length = n := Vector.length_toList
  rw [takeVector, drop_left' hlen]
  congr 1
  ext k hk
  have hk' : k < v.toList.length := by rw [hlen]; exact hk
  simp [getElem?_append_left hk', hk]

theorem Record.decode_encode (r : Record) : Record.decode r.encode = r := by
  have h32 : ∀ x : UInt32, x.toNat < 256 ^ 4 := fun x => x.toNat_lt
  have h64 : ∀ x : UInt64, x.toNat < 256 ^ 8 := fun x => x.toNat_lt
  have h16 : ∀ x : UInt16, x.toNat < 256 ^ 2 := fun x => x.toNat_lt
  have hkind : r.kind.code < 256 ^ 2 := by
    cases r.kind <;> decide
  simp only [Record.decode, Record.encode, take_encode 4 (h32 _),
    take_encode 8 (h64 _), take_encode 2 (h16 _),
    take_encode 2 hkind, takeVector_append, UInt32.ofNat_toNat, UInt64.ofNat_toNat,
    UInt16.ofNat_toNat, FsKind.ofCode_code]
  rfl

inductive PayloadKind | procdMut | anomalyEv | sotnetSynth | checkpoint
  deriving DecidableEq

def PayloadKind.code : PayloadKind → ℕ
  | .procdMut => 0x10
  | .anomalyEv => 0x20
  | .sotnetSynth => 0x30
  | .checkpoint => 0xF0

def PayloadKind.size : PayloadKind → ℕ
  | .procdMut => 48
  | .anomalyEv => 24
  | .sotnetSynth => 16
  | .checkpoint => 24

structure Payload where
  kind : PayloadKind
  bytes : List UInt8
  length_bytes : bytes.length = kind.size

def checkpointPayload (seq : ℕ) : Payload where
  kind := .checkpoint
  bytes := LittleEndian.encode 8 seq ++ (LittleEndian.encode 4 0 ++ (LittleEndian.encode 4 0 ++
    LittleEndian.encode 8 seq))
  length_bytes := by simp [PayloadKind.size]

end SotOs.Sotfs
