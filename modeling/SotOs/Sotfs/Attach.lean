import SotOs.Sotfs.Contents

/-! Bringing the block store up (`sotfs_blkdev_init`): whichever way it goes, the store it leaves is
in order over the computed layout. -/

namespace SotOs.Sotfs
open List

theorem fitBlocks_fits {avail : ℕ} : ∀ blocks, fitBlocks avail blocks * blockSize +
    roundUp4k ((fitBlocks avail blocks + 7) / 8) ≤ avail ∨ fitBlocks avail blocks = 0 := by
  intro blocks
  induction blocks with
  | zero => exact .inr rfl
  | succ blocks ih =>
    rw [fitBlocks]
    split_ifs with hfit
    · exact .inl hfit
    · exact ih

variable {len at' a off : ℕ} {d : Blkdev} {st : Storage}

theorem computeGeometry_fits (hlen : blockSize ≤ len) :
    (computeGeometry d off len).heapOff + (computeGeometry d off len).totalBlocks * blockSize ≤
      off + len := by
  obtain ⟨avail, havail⟩ : ∃ avail, avail = if blockSize < len then len - blockSize else 0 := ⟨_, rfl⟩
  obtain ⟨blocks, hblocks⟩ : ∃ blocks, blocks = fitBlocks avail (avail / blockSize) := ⟨_, rfl⟩
  have htotal : (computeGeometry d off len).totalBlocks =
      if blkdevBitmapMax * 8 < blocks then blkdevBitmapMax * 8 else blocks := by
    rw [hblocks, havail]
    rfl
  have hheap : (computeGeometry d off len).heapOff =
      off + blockSize + roundUp4k ((blocks + 7) / 8) := by
    rw [hblocks, havail]
    rfl
  have hle : (computeGeometry d off len).totalBlocks ≤ blocks := by
    rw [htotal]
    split_ifs <;> omega
  have hmul : (computeGeometry d off len).totalBlocks * blockSize ≤ blocks * blockSize :=
    Nat.mul_le_mul_right _ hle
  have hroom : avail + blockSize ≤ len := by
    rw [havail]
    split_ifs <;> omega
  have hfit : blocks * blockSize + roundUp4k ((blocks + 7) / 8) ≤ avail := by
    rcases fitBlocks_fits (avail / blockSize) with hfit | hzero
    · rwa [← hblocks] at hfit
    · rw [hblocks, hzero]
      exact Nat.zero_le _
  rw [hheap]
  omega

theorem healthy_of_empty (hsound : d.st.Sound)
    (hfits : d.heapOff + d.totalBlocks * blockSize ≤ d.st.capacity)
    (hcache : ∀ i, d.cache i = emptySlot) : Healthy d := by
  have hkey : ∀ i k, (d.toCache.line i).key ≠ some k := by
    intro i k hk
    have hid := (CacheSlot.toLine_key.mp hk)
    rw [hcache i] at hid
    exact hid.2 hid.1.symm
  refine ⟨hsound, hfits, ?_, ?_, ⟨?_, ?_⟩⟩
  · intro i hi
    rw [hcache i] at hi
    exact absurd rfl hi
  · intro i _
    rw [hcache i]
    rfl
  · intro i j k hi
    exact absurd hi (hkey i k)
  · intro i k hi
    exact absurd hi (hkey i k)

structure Attached (off len : ℕ) (st : Storage) (d : Blkdev) : Prop where
  sound : d.st.Sound
  capacity : d.st.capacity = st.capacity
  below : ∀ a, a < off → d.st.bytes a = st.bytes a
  region : off ≤ d.regionOff ∧ off ≤ d.bitmapOff
  totalBlocks : ∃ d₀, d.totalBlocks = (computeGeometry d₀ off len).totalBlocks ∧
    d.heapOff = (computeGeometry d₀ off len).heapOff
  cache : ∀ i, d.cache i = emptySlot

theorem stWrite_sound (h : d.st.Sound) (off : ℕ) (buf : List UInt8) :
    (stWrite d off buf).1.st.Sound := by
  unfold Storage.Sound at h ⊢
  unfold stWrite Storage.writeBlock
  split_ifs
  · exact h
  · rw [h]
    rfl

theorem stWrite_below (h : d.st.Sound) (ha : a < at') {buf : List UInt8} :
    (stWrite d at' buf).1.st.bytes a = d.st.bytes a := by
  unfold Storage.Sound at h
  unfold stWrite Storage.writeBlock
  split_ifs
  · rfl
  · rw [h]
    exact Overlay.write_below ha

theorem stWrite_above (h : d.st.Sound) {buf : List UInt8} (ha : at' + buf.length ≤ a) :
    (stWrite d at' buf).1.st.bytes a = d.st.bytes a := by
  unfold Storage.Sound at h
  unfold stWrite Storage.writeBlock
  split_ifs
  · rfl
  · rw [h]
    exact Overlay.write_above _ ha

variable {buf : List UInt8}

theorem stWrite_layout :
    (stWrite d at' buf).1.regionOff = d.regionOff ∧ (stWrite d at' buf).1.bitmapOff = d.bitmapOff :=
  ⟨rfl, rfl⟩

theorem Attached.write (h : Attached off len st d) (hat : off ≤ at') (buf : List UInt8) :
    Attached off len st (stWrite d at' buf).1 := by
  have hsame := stWrite_same d at' buf
  obtain ⟨hregion, hbitmap⟩ := stWrite_layout
  obtain ⟨d₀, htotal, hheap⟩ := h.totalBlocks
  refine ⟨stWrite_sound h.sound .., hsame.capacity.trans h.capacity, ?_, ?_,
    ⟨d₀, hsame.totalBlocks.trans htotal, hsame.heapOff.trans hheap⟩, h.cache⟩
  · intro a ha
    rw [stWrite_below h.sound (ha.trans_le hat)]
    exact h.below a ha
  · rw [hregion, hbitmap]
    exact h.region

theorem blkdevFormat_attached (h : Attached off len st d) :
    Attached off len st (blkdevFormat d).1 := by
  have hclear : Attached off len st { d with bitmap := fun _ => false, used := 0 } :=
    { h with }
  have hsuper := hclear.write h.region.1 (superblock { d with bitmap := fun _ => false, used := 0 })
  unfold blkdevFormat
  simp only
  generalize stWrite { d with bitmap := fun _ => false, used := 0 } d.regionOff _ = out at hsuper ⊢
  split_ifs
  · exact hsuper
  · exact hsuper.write hsuper.region.2 _

variable {sb : List UInt8}

theorem blkdevAttach_attached (h : Attached off len st d) :
    Attached off len st (blkdevAttach d sb).1 := by
  unfold blkdevAttach
  split_ifs
  · exact h
  · exact h
  · cases stRead d d.bitmapOff (bitmapPhys d) <;>
      exact { h with }

theorem blkdevFormat_same : SameDevice d (blkdevFormat d).1 := by
  have hsuper := stWrite_same { d with bitmap := fun _ => false, used := 0 } d.regionOff
    (superblock { d with bitmap := fun _ => false, used := 0 })
  unfold blkdevFormat
  simp only
  generalize stWrite { d with bitmap := fun _ => false, used := 0 } d.regionOff _ = out at hsuper ⊢
  have hclear : SameDevice d out.1 := { hsuper with }
  split_ifs
  · exact hclear
  · exact hclear.trans (stWrite_same ..)

theorem blkdevAttach_same : SameDevice d (blkdevAttach d sb).1 := by
  unfold blkdevAttach
  split_ifs
  · exact .refl d
  · exact .refl d
  · cases stRead d d.bitmapOff (bitmapPhys d) <;> exact ⟨rfl, rfl, rfl⟩

variable {fresh : Bool}

theorem bringUp_same : SameDevice d (bringUp d fresh).1 := by
  unfold bringUp
  cases stRead d d.regionOff blockSize with
  | none =>
    simp only
    split
    · exact blkdevFormat_same
    · exact .refl d
  | some sb =>
    simp only
    split
    · exact blkdevFormat_same
    · exact blkdevAttach_same

theorem laidOut_attached (hs : st.Sound) : Attached off len st (laidOut { d with st } off len) :=
  ⟨hs, rfl, fun _ _ => rfl, ⟨Nat.le_refl _, Nat.le_add_right _ _⟩, ⟨{ d with st }, rfl, rfl⟩,
    fun _ => rfl⟩

theorem bringUp_attached (h : Attached off len st d) : Attached off len st (bringUp d fresh).1 := by
  unfold bringUp
  cases stRead d d.regionOff blockSize with
  | none =>
    simp only
    split
    · exact blkdevFormat_attached h
    · exact h
  | some sb =>
    simp only
    split
    · exact blkdevFormat_attached h
    · exact blkdevAttach_attached h

theorem blkdevInit_attached (hcache : ∀ i, d.cache i = emptySlot) (hs : st.Sound) (off len : ℕ)
    (fresh : Bool) : Attached off len st (blkdevInit d st off len fresh).1 := by
  rw [blkdevInit_eq]
  split_ifs
  · exact ⟨hs, rfl, fun _ _ => rfl, ⟨Nat.le_refl _, Nat.le_add_right _ _⟩,
      ⟨{ d with st }, rfl, rfl⟩, hcache⟩
  · exact bringUp_attached (laidOut_attached hs)

theorem blkdevInit_up (hs : st.Sound) {fresh : Bool} (hup : (blkdevInit d st off len fresh).2 = 0) :
    Attached off len st (blkdevInit d st off len fresh).1 ∧
      (blkdevInit d st off len fresh).1.totalBlocks ≠ 0 := by
  rw [blkdevInit_eq] at hup ⊢
  split_ifs at hup ⊢ with hzero
  · cases hup
  · refine ⟨bringUp_attached (laidOut_attached hs), ?_⟩
    rw [(bringUp_same ..).totalBlocks]
    exact hzero

theorem Attached.healthy (h : Attached off len st d) (hlen : blockSize ≤ len)
    (hcap : off + len ≤ st.capacity) : Healthy d := by
  obtain ⟨d₀, htotal, hheap⟩ := h.totalBlocks
  apply healthy_of_empty h.sound _ h.cache
  rw [htotal, hheap, h.capacity]
  exact (computeGeometry_fits hlen).trans hcap

theorem Attached.heap (h : Attached off len st d) : off ≤ d.heapOff := by
  obtain ⟨d₀, -, hheap⟩ := h.totalBlocks
  rw [hheap]
  change off ≤ off + blockSize + _
  omega

theorem view_of_empty (hcache : ∀ i, d.cache i = emptySlot) {blk : ℤ} :
    d.view blk = diskPage d blk := by
  apply WriteBack.view_miss
  intro i hkey
  have hid := CacheSlot.toLine_key.mp hkey
  rw [hcache i] at hid
  exact hid.2 hid.1.symm

theorem blockSize_le_of_up (d : Blkdev) (off : ℕ)
    (hup : (computeGeometry d off len).totalBlocks ≠ 0) : blockSize ≤ len := by
  by_contra hshort
  apply hup
  simp only [computeGeometry, if_neg (show ¬blockSize < len by omega)]
  rfl

theorem superblock_length (d : Blkdev) : (superblock d).length = blockSize := by
  simp only [superblock, length_append, LittleEndian.length_encode, length_replicate]
  decide

theorem blkdevFormat_heap (h : d.st.Sound) (hsuper : d.regionOff + blockSize ≤ a)
    (hbitmap : d.bitmapOff + bitmapPhys d ≤ a) : (blkdevFormat d).1.st.bytes a = d.st.bytes a := by
  set d₁ : Blkdev := { d with bitmap := fun _ => false, used := 0 } with hd₁
  have hfirst : (stWrite d₁ d.regionOff (superblock d₁)).1.st.bytes a = d.st.bytes a :=
    stWrite_above (d := d₁) h (by rwa [superblock_length])
  have hsound := stWrite_sound (d := d₁) h d.regionOff (superblock d₁)
  have hphys : bitmapPhys (stWrite d₁ d.regionOff (superblock d₁)).1 = bitmapPhys d := rfl
  have hoff : (stWrite d₁ d.regionOff (superblock d₁)).1.bitmapOff = d.bitmapOff := rfl
  unfold blkdevFormat
  simp only [← hd₁]
  generalize stWrite d₁ d.regionOff (superblock d₁) = out at *
  split_ifs
  · exact hfirst
  · rw [stWrite_above hsound, hfirst]
    rw [length_map, length_range, hoff, hphys]
    exact hbitmap

theorem bringUp_heap (h : d.st.Sound) (hsuper : d.regionOff + blockSize ≤ a)
    (hbitmap : d.bitmapOff + bitmapPhys d ≤ a) : (bringUp d fresh).1.st.bytes a = d.st.bytes a := by
  have hformat := blkdevFormat_heap h hsuper hbitmap
  unfold bringUp
  cases stRead d d.regionOff blockSize with
  | none =>
    simp only
    split
    · exact hformat
    · rfl
  | some sb =>
    simp only
    split
    · exact hformat
    · unfold blkdevAttach
      split_ifs
      · rfl
      · rfl
      · cases stRead d d.bitmapOff (bitmapPhys d) <;> rfl

theorem laidOut_bitmap (d : Blkdev) (off len : ℕ) (hup : (laidOut d off len).totalBlocks ≠ 0) :
    (laidOut d off len).bitmapOff + bitmapPhys (laidOut d off len) ≤
      (laidOut d off len).heapOff := by
  simp only [laidOut, computeGeometry] at hup ⊢
  generalize fitBlocks _ _ = blocks at hup ⊢
  have hpos : 0 < blocks := by
    by_contra hzero
    apply hup
    rw [Nat.le_zero.mp (Nat.not_lt.mp hzero)]
    rfl
  simp only [bitmapPhys]
  have hround : roundUp4k ((blocks + 7) / 8) ≠ 0 := by
    unfold roundUp4k blockSize
    omega
  rw [if_neg hround]
  split_ifs <;> omega

theorem blkdevInit_heap (hs : st.Sound) (ha : (blkdevInit d st off len fresh).1.heapOff ≤ a) :
    (blkdevInit d st off len fresh).1.st.bytes a = st.bytes a := by
  rw [blkdevInit_eq] at ha ⊢
  split_ifs at ha ⊢ with hup
  · rfl
  · rw [(bringUp_same ..).heapOff] at ha
    have hbitmap := laidOut_bitmap { d with st } off len hup
    refine bringUp_heap hs ?_ (hbitmap.trans ha)
    refine le_trans ?_ ha
    exact Nat.le_add_right _ _

def plainImage (b : UInt8) : Storage := ⟨fun _ => b, 3 * blockSize, []⟩

def plainStore (b : UInt8) : Blkdev × ℤ :=
  blkdevInit (bssBlkdev (plainImage b)) (plainImage b) 0 (3 * blockSize) true

theorem plainImage_sound {b : UInt8} : (plainImage b).Sound := rfl

end SotOs.Sotfs
