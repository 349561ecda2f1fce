import SotOs.Lib.LittleEndian
import SotOs.Lib.Slots
import SotOs.Sotfs.Storage

/-! The disk-backed block store (`src/sotfs/blkdev.c`): a free bitmap, a write-back LRU cache and
the data heap, over one region of the image. Block ids count from 1. -/

namespace SotOs.Sotfs

open Function Slots LittleEndian

def blockSize : ℕ := 4096
def cacheSlots : ℕ := 256
def blkdevBitmapMax : ℕ := 16384
def blkdevMagic : ℕ := 0x53464442
def blkdevVersion : ℕ := 1

scoped instance : NeZero cacheSlots := ⟨by decide⟩

abbrev Page := Fin blockSize → UInt8

def Page.zero : Page := fun _ => 0

structure CacheSlot where
  id : ℤ
  dirty : Bool
  lru : ℕ
  data : Page

/-- The file-scope state of the store; bit `i` of the bitmap is set when block `i + 1` is used. -/
structure Blkdev where
  st : Storage
  regionOff : ℕ
  totalBlocks : ℕ
  bitmapOff : ℕ
  bitmapBytes : ℕ
  heapOff : ℕ
  used : ℕ
  bitmapDirty : Bool
  bitmap : ℕ → Bool
  cache : Fin cacheSlots → CacheSlot
  lruTick : ℕ

variable (d : Blkdev) (blk : ℤ)

def stWrite (off : ℕ) (buf : List UInt8) : Blkdev × ℤ :=
  let (st, r) := d.st.writeBlock off buf
  ({ d with st }, if r = buf.length then 0 else if r < 0 then r else -5)

def stRead (off len : ℕ) : Option (List UInt8) := d.st.readBlock off len

def roundUp4k (v : ℕ) : ℕ := (v + (blockSize - 1)) / blockSize * blockSize

def fitBlocks (avail : ℕ) : ℕ → ℕ
  | 0 => 0
  | blocks + 1 =>
    if (blocks + 1) * blockSize + roundUp4k ((blocks + 1 + 7) / 8) ≤ avail then blocks + 1
    else fitBlocks avail blocks

def computeGeometry (regionOff regionBytes : ℕ) : Blkdev :=
  let avail := if blockSize < regionBytes then regionBytes - blockSize else 0
  let blocks := fitBlocks avail (avail / blockSize)
  { d with
    regionOff
    bitmapOff := regionOff + blockSize
    bitmapBytes := (blocks + 7) / 8
    totalBlocks := if blkdevBitmapMax * 8 < blocks then blkdevBitmapMax * 8 else blocks
    heapOff := regionOff + blockSize + roundUp4k ((blocks + 7) / 8) }

def packBits (bitmap : ℕ → Bool) (k : ℕ) : UInt8 :=
  (List.range 8).foldl (fun acc j => if bitmap (8 * k + j) then acc + 2 ^ j else acc) 0

def unpackBits (bytes : List UInt8) (i : ℕ) : Bool := ((bytes[i / 8]?).getD 0).toNat.testBit (i % 8)

def bitmapPhys : ℕ :=
  let bm := roundUp4k d.bitmapBytes
  let bm := if bm = 0 then blockSize else bm
  if blkdevBitmapMax < bm then blkdevBitmapMax else bm

def bitmapPopcount : ℕ := (List.range d.totalBlocks).countP d.bitmap

def blockOff (id : ℤ) : ℕ := d.heapOff + (id.toNat - 1) * blockSize

def Blkdev.setSlot (i : Fin cacheSlots) (s : CacheSlot) : Blkdev :=
  { d with cache := update d.cache i s }

def slotWriteback (i : Fin cacheSlots) : Blkdev :=
  let s := d.cache i
  if !s.dirty || s.id = 0 then d.setSlot i { s with dirty := false }
  else match stWrite d (blockOff d s.id) (List.ofFn s.data) with
    | (d, r) => if r = 0 then d.setSlot i { s with dirty := false } else d

def cacheFind (id : ℤ) : Option (Fin cacheSlots) := first fun i => (d.cache i).id == id

def victimFrom (cache : Fin cacheSlots → CacheSlot) : List (Fin cacheSlots) → Fin cacheSlots →
    Fin cacheSlots
  | [], victim => victim
  | i :: rest, victim =>
    if (cache i).id = 0 then i
    else victimFrom cache rest (if (cache i).lru < (cache victim).lru then i else victim)

/-- The slot for `id` and whether it was a hit. The victim is retagged even if its write-back
failed. -/
def cacheAcquire (id : ℤ) : Blkdev × Fin cacheSlots × Bool :=
  match cacheFind d id with
  | some i => (d, i, true)
  | none =>
    let i := victimFrom d.cache (List.finRange cacheSlots) 0
    let d := slotWriteback d i
    (d.setSlot i { d.cache i with id, dirty := false }, i, false)

def Page.ofList (bytes : List UInt8) : Page := fun k => (bytes[k.val]?).getD 0

def superblock : List UInt8 := encode 4 blkdevMagic ++ encode 4 blkdevVersion ++
    encode 8 d.totalBlocks ++ encode 8 d.bitmapBytes ++
    List.replicate (blockSize - 24) 0

def emptySlot : CacheSlot := ⟨0, false, 0, .zero⟩

def blkdevFormat : Blkdev × ℤ :=
  let d := { d with bitmap := fun _ => false, used := 0 }
  match stWrite d d.regionOff (superblock d) with
  | (d, r) =>
    if r ≠ 0 then (d, r)
    else stWrite d d.bitmapOff ((List.range (bitmapPhys d)).map (packBits d.bitmap))

theorem blkdevFormat_eq {d d₀ : Blkdev} {out : Blkdev × ℤ}
    (hd₀ : d₀ = { d with bitmap := fun _ => false, used := 0 })
    (hout : stWrite d₀ d₀.regionOff (superblock d₀) = out) :
    blkdevFormat d = if out.2 ≠ 0 then out
      else stWrite out.1 out.1.bitmapOff
        ((List.range (bitmapPhys out.1)).map (packBits out.1.bitmap)) := by
  subst hd₀ hout
  rfl

def blkdevAttach (sb : List UInt8) : Blkdev × ℤ :=
  if decode (sb.take 4) ≠ blkdevMagic ∨ decode ((sb.drop 4).take 4) ≠ blkdevVersion then (d, -22)
  else if decode ((sb.drop 8).take 8) ≠ d.totalBlocks then (d, -22)
  else match stRead d d.bitmapOff (bitmapPhys d) with
    | none => ({ d with bitmap := fun _ => false }, -22)
    | some bytes =>
      let d := { d with bitmap := unpackBits bytes }
      ({ d with used := bitmapPopcount d }, 0)

def bssBlkdev (st : Storage) : Blkdev where
  st
  regionOff := 0
  totalBlocks := 0
  bitmapOff := 0
  bitmapBytes := 0
  heapOff := 0
  used := 0
  bitmapDirty := false
  bitmap := fun _ => false
  cache := fun _ => emptySlot
  lruTick := 0

def blkdevInit (storage : Storage) (regionOff regionBytes : ℕ) (fresh : Bool) :
    Blkdev × ℤ :=
  let d := computeGeometry { d with st := storage } regionOff regionBytes
  if d.totalBlocks = 0 then (d, -28)
  else
    let d := { d with cache := fun _ => emptySlot, lruTick := 0, bitmapDirty := false }
    match stRead d regionOff blockSize with
    | none => if fresh then blkdevFormat d else (d, -22)
    | some sb =>
      -- no valid superblock: a new image formats itself
      if fresh || decode (sb.take 4) != blkdevMagic then blkdevFormat d
      else blkdevAttach d sb

def blkAlloc : Blkdev × ℤ :=
  match first fun i : Fin d.totalBlocks => !d.bitmap i with
  | none => (d, 0)
  | some i =>
    ({ d with
        bitmap := update d.bitmap i.val true
        used := d.used + 1
        bitmapDirty := true }, toId i)

def validBlk : Bool := decide (0 < blk) && decide (blk ≤ d.totalBlocks)

def blkFree : Blkdev :=
  if !validBlk d blk then d
  else if !d.bitmap (blk.toNat - 1) then d
  else
    let d := { d with
      bitmap := update d.bitmap (blk.toNat - 1) false
      used := d.used - 1
      bitmapDirty := true }
    match cacheFind d blk with
    | none => d
    | some i => d.setSlot i { d.cache i with id := 0, dirty := false }

def blkRead : Blkdev × Option Page :=
  if !validBlk d blk then (d, none)
  else match cacheAcquire d blk with
    | (d, i, true) =>
      let tick := d.lruTick + 1
      ({ d.setSlot i { d.cache i with lru := tick } with lruTick := tick }, some (d.cache i).data)
    | (d, i, false) =>
      match stRead d (blockOff d blk) blockSize with
      | none => (d.setSlot i { d.cache i with id := 0 }, none)
      | some bytes =>
        let tick := d.lruTick + 1
        ({ d.setSlot i { d.cache i with data := .ofList bytes, lru := tick } with lruTick := tick },
          some (.ofList bytes))

def blkWrite (page : Page) : Blkdev × Bool :=
  -- A full-block overwrite: the slot is not filled from disk first.
  if !validBlk d blk then (d, false)
  else match cacheAcquire d blk with
    | (d, i, _) =>
      let tick := d.lruTick + 1
      ({ d.setSlot i { d.cache i with data := page, dirty := true, lru := tick } with
          lruTick := tick }, true)

def bitmapFlush : Blkdev × ℤ :=
  match stWrite d d.bitmapOff ((List.range (bitmapPhys d)).map (packBits d.bitmap)) with
  | (d, r) => (if r = 0 then { d with bitmapDirty := false } else d, r)

def blkFlush : Blkdev :=
  -- Every cached page, then the bitmap if it changed. The backend has nothing left to flush.
  let d := (List.finRange cacheSlots).foldl slotWriteback d
  if d.bitmapDirty then (bitmapFlush d).1 else d

def blkUsed : ℕ := d.used

end SotOs.Sotfs
