import SotOs.Sotfs.IoSpec

/-! The block store lives above `heapOff`: what the image holds below it, the log included, is
neither read nor written by block and file I/O. -/

namespace SotOs.Sotfs

open Slots Overlay

variable (low : ℕ → UInt8) (d : Blkdev) (fileId : ℤ) (offset : ℕ)

def Blkdev.reseat : Blkdev :=
  { d with st := { d.st with bytes := fun a => if a < d.heapOff then low a else d.st.bytes a } }

structure SameDevice (d d' : Blkdev) : Prop where
  heapOff : d'.heapOff = d.heapOff
  totalBlocks : d'.totalBlocks = d.totalBlocks
  capacity : d'.st.capacity = d.st.capacity

theorem SameDevice.refl : SameDevice d d := ⟨rfl, rfl, rfl⟩

theorem SameDevice.trans {d₁ d₂ d₃ : Blkdev} (h : SameDevice d₁ d₂) (h' : SameDevice d₂ d₃) :
    SameDevice d₁ d₃ :=
  ⟨h'.heapOff.trans h.heapOff, h'.totalBlocks.trans h.totalBlocks, h'.capacity.trans h.capacity⟩

theorem blockOff_le (id : ℤ) : d.heapOff ≤ blockOff d id := Nat.le_add_right _ _

section
variable (low : ℕ → UInt8) (d : Blkdev)

theorem Blkdev.reseat_self : d.reseat d.st.bytes = d := by
  simp [Blkdev.reseat]

theorem stRead_reseat {off : ℕ} (h : d.heapOff ≤ off) (len : ℕ) :
    stRead (d.reseat low) off len = stRead d off len := by
  have hbytes : read (d.reseat low).st.bytes off len = read d.st.bytes off len := by
    apply read_congr
    intro k _
    exact if_neg (by omega)
  simp only [stRead, Storage.readBlock, hbytes]
  rfl

theorem stWrite_reseat {off : ℕ} (h : d.heapOff ≤ off) (buf : List UInt8) :
    stWrite (d.reseat low) off buf = ((stWrite d off buf).1.reseat low, (stWrite d off buf).2) := by
  have hbytes : ∀ data, write (d.reseat low).st.bytes off data =
      fun a => if a < d.heapOff then low a else write d.st.bytes off data a := by
    intro data
    funext a
    by_cases ha : a < d.heapOff
    · rw [if_pos ha, write_below (by omega)]
      exact if_pos ha
    · have heq : (d.reseat low).st.bytes a = d.st.bytes a := if_neg ha
      rw [if_neg ha, write, write, heq]
  unfold stWrite Storage.writeBlock
  by_cases hcap : d.st.capacity < off + buf.length
  · have hcap' : (d.reseat low).st.capacity < off + buf.length := hcap
    rw [if_pos hcap, if_pos hcap']
  have hcap' : ¬ (d.reseat low).st.capacity < off + buf.length := hcap
  have hfaults : (d.reseat low).st.faults = d.st.faults := rfl
  rw [if_neg hcap, if_neg hcap', hfaults]
  rcases d.st.faults with _ | ⟨_ | f, fs⟩ <;> simp only [hbytes] <;> rfl

theorem stWrite_same (off : ℕ) (buf : List UInt8) : SameDevice d (stWrite d off buf).1 := by
  unfold stWrite Storage.writeBlock
  split_ifs
  · exact .refl d
  · rcases d.st.faults with _ | ⟨_ | f, fs⟩ <;> exact ⟨rfl, rfl, rfl⟩

theorem slotWriteback_reseat (i : Fin cacheSlots) :
    slotWriteback (d.reseat low) i = (slotWriteback d i).reseat low := by
  have hslot : (d.reseat low).cache i = d.cache i := rfl
  have hoff : ∀ id, blockOff (d.reseat low) id = blockOff d id := fun _ => rfl
  unfold slotWriteback
  simp only [hslot, hoff, stWrite_reseat low d (blockOff_le d _)]
  generalize stWrite d _ _ = out
  split_ifs <;> rfl

theorem slotWriteback_same (i : Fin cacheSlots) : SameDevice d (slotWriteback d i) := by
  have hwrite := stWrite_same d (blockOff d (d.cache i).id) (List.ofFn (d.cache i).data)
  unfold slotWriteback
  simp only
  generalize stWrite d (blockOff d (d.cache i).id) (List.ofFn (d.cache i).data) = out at hwrite ⊢
  split_ifs
  · exact ⟨rfl, rfl, rfl⟩
  · exact { hwrite with }
  · exact hwrite

theorem cacheAcquire_reseat (id : ℤ) : cacheAcquire (d.reseat low) id =
      ((cacheAcquire d id).1.reseat low, (cacheAcquire d id).2) := by
  have hfind : cacheFind (d.reseat low) id = cacheFind d id := rfl
  have hcache : (d.reseat low).cache = d.cache := rfl
  unfold cacheAcquire
  rw [hfind]
  cases cacheFind d id with
  | some i => rfl
  | none =>
    simp only [hcache, slotWriteback_reseat]
    rfl

theorem cacheAcquire_same (id : ℤ) : SameDevice d (cacheAcquire d id).1 := by
  unfold cacheAcquire
  cases cacheFind d id with
  | some i => exact .refl d
  | none =>
    have hback := slotWriteback_same d (victimFrom d.cache (List.finRange cacheSlots) 0)
    exact { hback with }

variable (blk : ℤ) (g : Graph)

theorem blkRead_reseat :
    blkRead (d.reseat low) blk = ((blkRead d blk).1.reseat low, (blkRead d blk).2) := by
  have hvalid : validBlk (d.reseat low) blk = validBlk d blk := rfl
  unfold blkRead
  rw [hvalid, cacheAcquire_reseat]
  split_ifs
  · rfl
  generalize cacheAcquire d blk = out
  obtain ⟨d', i, hit⟩ := out
  cases hit with
  | true => rfl
  | false =>
    have hoff : blockOff (d'.reseat low) blk = blockOff d' blk := rfl
    simp only [hoff, stRead_reseat low d' (blockOff_le d' blk)]
    cases stRead d' (blockOff d' blk) blockSize <;> rfl

theorem blkRead_same : SameDevice d (blkRead d blk).1 := by
  have hsame := cacheAcquire_same d blk
  unfold blkRead
  generalize cacheAcquire d blk = out at hsame ⊢
  obtain ⟨d', i, hit⟩ := out
  split_ifs
  · exact .refl d
  cases hit with
  | true => exact { hsame with }
  | false =>
    simp only
    cases stRead d' (blockOff d' blk) blockSize <;>
      exact { hsame with }

theorem blkWrite_reseat (page : Page) : blkWrite (d.reseat low) blk page =
      ((blkWrite d blk page).1.reseat low, (blkWrite d blk page).2) := by
  have hvalid : validBlk (d.reseat low) blk = validBlk d blk := rfl
  unfold blkWrite
  rw [hvalid, cacheAcquire_reseat]
  split_ifs <;> rfl

theorem blkWrite_same (page : Page) : SameDevice d (blkWrite d blk page).1 := by
  have hsame := cacheAcquire_same d blk
  unfold blkWrite
  split_ifs
  · exact .refl d
  · exact { hsame with }

theorem blkAlloc_reseat :
    blkAlloc (d.reseat low) = ((blkAlloc d).1.reseat low, (blkAlloc d).2) := by
  have hfirst : (first fun i : Fin (d.reseat low).totalBlocks => !(d.reseat low).bitmap i) =
      first fun i : Fin d.totalBlocks => !d.bitmap i := rfl
  unfold blkAlloc
  rw [hfirst]
  cases first fun i : Fin d.totalBlocks => !d.bitmap i <;> rfl

theorem blkAlloc_same : SameDevice d (blkAlloc d).1 := by
  unfold blkAlloc
  cases first fun i : Fin d.totalBlocks => !d.bitmap i <;> exact ⟨rfl, rfl, rfl⟩

theorem loadPage_reseat (disk : ℤ) :
    loadPage (d.reseat low) disk = ((loadPage d disk).1.reseat low, (loadPage d disk).2) := by
  unfold loadPage
  rw [blkRead_reseat]
  split_ifs
  · rfl
  · generalize blkRead d disk = out
    obtain ⟨d', _ | page⟩ := out <;> rfl

theorem loadPage_same (disk : ℤ) : SameDevice d (loadPage d disk).1 := by
  have hsame := blkRead_same d disk
  unfold loadPage
  generalize blkRead d disk = out at hsame ⊢
  obtain ⟨d', _ | page⟩ := out <;> split_ifs <;> first | exact .refl d | exact hsame

theorem patchBlock_reseat (i : Fin maxBlocks) (b : Block) (intra : ℕ)
    (chunk : List UInt8) :
    patchBlock g (d.reseat low) i b intra chunk =
      ((patchBlock g d i b intra chunk).1, (patchBlock g d i b intra chunk).2.reseat low) := by
  unfold patchBlock
  rw [loadPage_reseat]
  simp only [blkWrite_reseat]
  split_ifs <;> rfl

theorem patchBlock_same (i : Fin maxBlocks) (b : Block) (intra : ℕ)
    (chunk : List UInt8) : SameDevice d (patchBlock g d i b intra chunk).2 := by
  have hload := loadPage_same d b.diskBlk
  have hwrite := blkWrite_same (loadPage d b.diskBlk).1 b.diskBlk
    ((loadPage d b.diskBlk).2.patch intra chunk)
  unfold patchBlock
  simp only
  split_ifs
  · exact hload
  · exact hload.trans hwrite

theorem allocBlock_reseat (fileId : ℤ) (offset : ℕ) :
    allocBlock g (d.reseat low) fileId offset =
      ((allocBlock g d fileId offset).1, (allocBlock g d fileId offset).2.1.reseat low,
        (allocBlock g d fileId offset).2.2) := by
  have htotal : (d.reseat low).totalBlocks = d.totalBlocks := rfl
  unfold allocBlock
  rw [htotal, blkAlloc_reseat]
  cases firstFrom g.nextBlockHint fun i => (g.blocks i).isNone with
  | none => rfl
  | some i =>
    simp only
    split_ifs <;> rfl

theorem acquireBlock_reseat (fileId : ℤ) (origSize blkOff : ℕ) :
    acquireBlock g (d.reseat low) fileId origSize blkOff =
      ((acquireBlock g d fileId origSize blkOff).1,
        (acquireBlock g d fileId origSize blkOff).2.1.reseat low,
        (acquireBlock g d fileId origSize blkOff).2.2) := by
  unfold acquireBlock
  rw [allocBlock_reseat]
  split <;> rfl

end

theorem writeLoop_reseat (origSize fuel : ℕ) :
    ∀ (g : Graph) (d : Blkdev) (written : ℕ) (rest : List UInt8),
      writeLoop fileId offset origSize fuel g (d.reseat low) written rest =
        ((writeLoop fileId offset origSize fuel g d written rest).1,
          (writeLoop fileId offset origSize fuel g d written rest).2.1.reseat low,
          (writeLoop fileId offset origSize fuel g d written rest).2.2) := by
  induction fuel with
  | zero => intro g d written rest; rfl
  | succ fuel ih =>
    intro g d written rest
    rw [writeLoop, writeLoop]
    split_ifs
    · rfl
    simp only [acquireBlock_reseat]
    generalize acquireBlock g d fileId origSize _ = out
    obtain ⟨g', d', _ | i⟩ := out
    · rfl
    · simp only
      cases g'.blocks i with
      | none => rfl
      | some b =>
        simp only [patchBlock_reseat]
        exact ih _ _ _ _

theorem fileWrite_reseat (g : Graph) (d : Blkdev) (fileId : ℤ) (offset : ℕ)
    (buf : List UInt8) :
    fileWrite g (d.reseat low) fileId offset buf =
      ((fileWrite g d fileId offset buf).1, (fileWrite g d fileId offset buf).2.1.reseat low,
        (fileWrite g d fileId offset buf).2.2) := by
  unfold fileWrite
  split_ifs
  · rfl
  rcases g.inode fileId with _ | n
  · rfl
  simp only [writeLoop_reseat]
  split_ifs
  · rfl
  · generalize writeLoop fileId offset n.size buf.length g d 0 buf = out
    obtain ⟨g', d', written, _ | _⟩ := out <;> rfl

theorem Round.same {fileId : ℤ} {s s' : Graph × Blkdev} (h : Round fileId s s') :
    SameDevice s.2 s'.2 := by
  cases h with
  | found g d i b intra chunk _ _ => exact patchBlock_same d g i b intra chunk
  | fresh g d d' i off diskBlk intra chunk _ hdisk =>
    have hpatch := patchBlock_same d' (claimedAt g i fileId off diskBlk) i
      ⟨fileId, off, 0, diskBlk⟩ intra chunk
    rcases hdisk with ⟨-, -, rfl⟩ | ⟨-, -, halloc⟩
    · exact hpatch
    · have hsame := blkAlloc_same d
      rw [halloc] at hsame
      exact hsame.trans hpatch

theorem fileWrite_same (g : Graph) (d : Blkdev) (fileId : ℤ) (offset : ℕ) (buf : List UInt8) :
    SameDevice d (fileWrite g d fileId offset buf).2.1 := by
  have hrounds : ∀ {s s'}, Relation.ReflTransGen (Round fileId) s s' → SameDevice s.2 s'.2 := by
    intro s s' h
    induction h with
    | refl => exact .refl _
    | tail _ hround ih => exact ih.trans hround.same
  have h := fileWrite_written g d fileId offset buf
  generalize fileWrite g d fileId offset buf = out at h ⊢
  cases h with
  | nothing _ => exact .refl d
  | cut _ _ _ _ _ h _ => exact hrounds h
  | whole _ _ _ _ _ h _ _ => exact hrounds h

theorem fileWrite_below (g : Graph) (d : Blkdev) (fileId : ℤ) (offset : ℕ) (buf : List UInt8)
    {a : ℕ} (ha : a < d.heapOff) :
    (fileWrite g d fileId offset buf).2.1.st.bytes a = d.st.bytes a := by
  have hcomm := fileWrite_reseat d.st.bytes g d fileId offset buf
  rw [Blkdev.reseat_self] at hcomm
  rw [hcomm]
  exact if_pos (ha.trans_eq (fileWrite_same g d fileId offset buf).heapOff.symm)

def laidOut (off len : ℕ) : Blkdev :=
  { computeGeometry d off len with
    cache := fun _ => emptySlot, lruTick := 0, bitmapDirty := false }

def bringUp (fresh : Bool) : Blkdev × ℤ :=
  match stRead d d.regionOff blockSize with
  | none => if fresh then blkdevFormat d else (d, -22)
  | some sb =>
    if fresh || LittleEndian.decode (sb.take 4) != blkdevMagic then blkdevFormat d
    else blkdevAttach d sb

variable {off : ℕ}

theorem blkdevInit_eq {d : Blkdev} {st : Storage} {len : ℕ} {fresh : Bool} :
    blkdevInit d st off len fresh =
      if (computeGeometry { d with st } off len).totalBlocks = 0 then
        (computeGeometry { d with st } off len, -28)
      else bringUp (laidOut { d with st } off len) fresh := rfl

end SotOs.Sotfs
