import SotOs.Sotfs.Rewrite

/-! Reading and writing file contents (`src/sotfs/io.c`), one 4 KiB block at a time through the
block store. File offsets and sizes are 32-bit. -/

namespace SotOs.Sotfs

variable (g : Graph) (d : Blkdev) (fileId : ℤ)

def findBlock (alignedOffset : ℕ) : Option (Fin maxBlocks) :=
  Slots.first fun i => match g.blocks i with
    | none => false
    | some b => b.fileId == fileId && b.offset == alignedOffset

def alignDown (off : ℕ) : ℕ := off / blockSize * blockSize

def Page.patch (page : Page) (intra : ℕ) (chunk : List UInt8) : Page := fun k =>
  if intra ≤ k.val then (chunk[k.val - intra]?).getD (page k) else page k

def Page.slice (page : Page) (intra len : ℕ) : List UInt8 :=
  (List.range len).map fun k => if h : intra + k < blockSize then page ⟨intra + k, h⟩ else 0

def loadPage (disk : ℤ) : Blkdev × Page :=
  if disk = 0 then (d, .zero)
  else match blkRead d disk with
    | (d, none) => (d, .zero)
    | (d, some page) => (d, page)

def patchBlock (i : Fin maxBlocks) (b : Block) (intra : ℕ)
    (chunk : List UInt8) : Graph × Blkdev :=
  let (d, page) := loadPage d b.diskBlk
  let d := if b.diskBlk = 0 then d else (blkWrite d b.diskBlk (page.patch intra chunk)).1
  (g.setBlock i (some { b with length := max b.length (intra + chunk.length) }), d)

def acquireBlock (origSize blkOff : ℕ) :
    Graph × Blkdev × Option (Fin maxBlocks) :=
  -- An existing mapping, looked for only below the size before the write, or a new one.
  match if origSize ≤ blkOff then none else findBlock g fileId blkOff with
  | some i => (g, d, some i)
  | none => allocBlock g d fileId blkOff

def writeLoop (fileId : ℤ) (offset origSize : ℕ) :
    ℕ → Graph → Blkdev → ℕ → List UInt8 → Graph × Blkdev × ℕ × Bool
  -- Each round writes a byte at least. Returns the bytes written and whether all were.
  | 0, g, d, written, rest => (g, d, written, rest.isEmpty)
  | fuel + 1, g, d, written, rest =>
    if rest = [] then (g, d, written, true)
    else
      let curOff := (offset + written) % 2 ^ 32
      let blkOff := alignDown curOff
      let intra := curOff - blkOff
      let chunk := rest.take (blockSize - intra)
      match acquireBlock g d fileId origSize blkOff with
      | (g, d, none) => (g, d, written, false)
      | (g, d, some i) => match g.blocks i with
        | none => (g, d, written, false)
        | some b =>
          match patchBlock g d i b intra chunk with
          | (g, d) => writeLoop fileId offset origSize fuel g d (written + chunk.length)
              (rest.drop (blockSize - intra))

def fileWrite (offset : ℕ) (buf : List UInt8) :
    Graph × Blkdev × Except Err ℕ :=
  -- A write that runs out of blocks returns early, before the size is brought up to date.
  if buf = [] then (g, d, .ok 0)
  else match g.inode fileId with
    | none => (g, d, .error .errNoent)
    | some n =>
      if n.kind ≠ .file then (g, d, .error .errIsdir)
      else match writeLoop fileId offset n.size buf.length g d 0 buf with
        | (g, d, written, false) =>
          (g, d, if 0 < written then .ok written else .error .errNospace)
        | (g, d, written, true) =>
          let newEnd := (offset + buf.length) % 2 ^ 32
          (g.modifyInode fileId fun n => if n.size < newEnd then { n with size := newEnd } else n,
            d, .ok written)

def readLoop (g : Graph) (fileId : ℤ) : ℕ → Blkdev → ℕ → ℕ → Blkdev × List UInt8
  | 0, d, _, _ => (d, [])
  | fuel + 1, d, curOff, remaining =>
    if remaining = 0 then (d, [])
    else
      let blkOff := alignDown curOff
      let intra := curOff - blkOff
      let chunk := min remaining (blockSize - intra)
      let (d, page) := match findBlock g fileId blkOff with
        | none => (d, Page.zero)
        | some i => match g.blocks i with
          | none => (d, Page.zero)
          | some b => loadPage d b.diskBlk
      let (d, rest) := readLoop g fileId fuel d (curOff + chunk) (remaining - chunk)
      (d, page.slice intra chunk ++ rest)

def fileRead (offset len : ℕ) :
    Blkdev × Except Err (List UInt8) :=
  if len = 0 then (d, .ok [])
  else match g.inode fileId with
    | none => (d, .error .errNoent)
    | some n =>
      if n.kind ≠ .file then (d, .error .errIsdir)
      else if n.size ≤ offset then (d, .ok [])
      else
        let readLen := min (n.size - offset) len
        let (d, bytes) := readLoop g fileId readLen d offset readLen
        (d, .ok bytes)

end SotOs.Sotfs
