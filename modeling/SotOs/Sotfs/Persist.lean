import SotOs.Sotfs.Attach
import SotOs.Sotfs.BlockLedger

/-! The block store over runs of its own interface: a block that was written reads back, and a flush
leaves an image that brings the same store up again. -/

namespace SotOs.Sotfs

open Machine Function LittleEndian Overlay List Option

structure HeapOnly (d d' : Blkdev) : Prop where
  regionOff : d'.regionOff = d.regionOff
  bitmapOff : d'.bitmapOff = d.bitmapOff
  bitmapBytes : d'.bitmapBytes = d.bitmapBytes
  heapOff : d'.heapOff = d.heapOff
  bitmapDirty : d'.bitmapDirty = d.bitmapDirty
  bits : SameBits d d'
  low : ∀ a, a < d.heapOff → d'.st.bytes a = d.st.bytes a

theorem HeapOnly.refl (d : Blkdev) : HeapOnly d d :=
  ⟨rfl, rfl, rfl, rfl, rfl, .refl d, fun _ _ => rfl⟩

theorem HeapOnly.trans {d₁ d₂ d₃ : Blkdev} (h : HeapOnly d₁ d₂) (h' : HeapOnly d₂ d₃) :
    HeapOnly d₁ d₃ := by
  refine ⟨h'.regionOff.trans h.regionOff, h'.bitmapOff.trans h.bitmapOff,
    h'.bitmapBytes.trans h.bitmapBytes, h'.heapOff.trans h.heapOff,
    h'.bitmapDirty.trans h.bitmapDirty, h.bits.trans h'.bits, fun a ha => ?_⟩
  rw [h'.low a (h.heapOff ▸ ha), h.low a ha]

variable {d : Blkdev}

theorem HeapOnly.recache {d' : Blkdev} (h : HeapOnly d d') {cache : Fin cacheSlots → CacheSlot}
    {tick : ℕ} : HeapOnly d { d' with cache := cache, lruTick := tick } :=
  ⟨h.regionOff, h.bitmapOff, h.bitmapBytes, h.heapOff, h.bitmapDirty,
    ⟨h.bits.totalBlocks, h.bits.bitmap, h.bits.used⟩, h.low⟩

theorem stWrite_heapOnly (h : d.st.Sound) {off : ℕ} (hoff : d.heapOff ≤ off)
    (buf : List UInt8) : HeapOnly d (stWrite d off buf).1 :=
  ⟨rfl, rfl, rfl, rfl, rfl, stWrite_bits d off buf, fun _ ha => stWrite_below h (ha.trans_le hoff)⟩

theorem slotWriteback_heapOnly (h : d.st.Sound) (i : Fin cacheSlots) :
    HeapOnly d (slotWriteback d i) := by
  have hwrite := stWrite_heapOnly h (blockOff_le d (d.cache i).id) (ofFn (d.cache i).data)
  unfold slotWriteback
  simp only
  generalize stWrite d (blockOff d (d.cache i).id) (ofFn (d.cache i).data) = out at hwrite ⊢
  split_ifs
  · exact (HeapOnly.refl d).recache
  · exact hwrite.recache
  · exact hwrite

theorem cacheAcquire_heapOnly (h : d.st.Sound) (blk : ℤ) :
    HeapOnly d (cacheAcquire d blk).1 := by
  unfold cacheAcquire
  split
  · exact .refl d
  · exact (slotWriteback_heapOnly h _).recache

theorem blkRead_heapOnly (h : d.st.Sound) (blk : ℤ) : HeapOnly d (blkRead d blk).1 := by
  have hacquire := cacheAcquire_heapOnly h blk
  unfold blkRead
  split_ifs
  · exact .refl d
  generalize cacheAcquire d blk = out at hacquire ⊢
  obtain ⟨d', i, present⟩ := out
  cases present with
  | true => exact hacquire.recache
  | false =>
    simp only
    split <;> exact hacquire.recache

variable {blk : ℤ}

theorem blkWrite_heapOnly (h : d.st.Sound) {page : Page} :
    HeapOnly d (blkWrite d blk page).1 := by
  unfold blkWrite
  split_ifs
  · exact .refl d
  · exact (cacheAcquire_heapOnly h blk).recache

theorem slotWriteback_clean {i j : Fin cacheSlots} (hj : (d.cache j).dirty = false) :
    ((slotWriteback d i).cache j).dirty = false := by
  have hcache := stWrite_cache d (blockOff d (d.cache i).id) (ofFn (d.cache i).data)
  unfold slotWriteback
  simp only
  generalize stWrite d (blockOff d (d.cache i).id) (ofFn (d.cache i).data) = out at hcache ⊢
  by_cases hij : j = i
  · subst hij
    simp only [hj, Bool.not_false, Bool.true_or, if_true, Blkdev.setSlot, update_self]
  split_ifs
  · rwa [setSlot_cache_ne hij]
  · rwa [setSlot_cache_ne hij, hcache]
  · rwa [hcache]

theorem writebackAll (h : Healthy d) : ∀ slots : List (Fin cacheSlots),
    Stored d (slots.foldl slotWriteback d) d.view ∧ HeapOnly d (slots.foldl slotWriteback d) ∧
      ∀ i ∈ slots, ((slots.foldl slotWriteback d).cache i).dirty = false := by
  intro slots
  induction slots using reverseRecOn with
  | nil => exact ⟨.refl h, .refl d, nofun⟩
  | append_singleton slots i ih =>
    obtain ⟨hstored, hheap, hclean⟩ := ih
    obtain ⟨hback, hdone⟩ := slotWriteback_stored hstored.healthy
    rw [hstored.view] at hback
    rw [foldl_append, foldl_cons, foldl_nil]
    refine ⟨hstored.trans hback, hheap.trans (slotWriteback_heapOnly hstored.healthy.sound i), ?_⟩
    intro j hj
    rw [mem_append, mem_singleton] at hj
    rcases hj with hj | rfl
    · exact slotWriteback_clean (hclean j hj)
    · exact hdone

theorem view_of_clean (h : Healthy d) (hclean : ∀ i, (d.cache i).dirty = false) :
    d.view = diskPage d :=
  h.coherent.view_of_clean hclean

variable {bitmap : ℕ → Bool}

theorem packBits_testBit {k : ℕ} {j : ℕ} (hj : j < 8) :
    (packBits bitmap k).toNat.testBit j = bitmap (8 * k + j) := by
  have hbyte : ∀ (b : Fin 8 → Bool) (i : Fin 8),
      ((range 8).foldl (fun acc j => if b (Fin.ofNat 8 j) then acc + 2 ^ j else acc)
        (0 : UInt8)).toNat.testBit i = b i := by
    decide +kernel
  exact hbyte (fun i => bitmap (8 * k + i)) ⟨j, hj⟩

variable {i : ℕ} {sb : List UInt8} {st : Storage} {blk : ℤ}

theorem unpackBits_packBits (bitmap : ℕ → Bool) {n : ℕ} (hi : i < 8 * n) :
    unpackBits ((List.range n).map (packBits bitmap)) i = bitmap i := by
  have hbyte : i / 8 < n := by omega
  rw [unpackBits, getElem?_map, getElem?_range hbyte, map_some, getD_some,
    packBits_testBit (Nat.mod_lt i (by decide)), Nat.div_add_mod]

theorem countP_update {p : ℕ → Bool} (hi : p i = false) : ∀ {n : ℕ}, i < n →
    (List.range n).countP (update p i true) = (List.range n).countP p + 1 := by
  intro n
  induction n with
  | zero => exact fun h => absurd h (Nat.not_lt_zero i)
  | succ n ih =>
    intro hlt
    rw [range_succ, countP_append, countP_append, countP_singleton,
      countP_singleton]
    by_cases hin : i = n
    · -- the bits before it are the same
      subst hin
      have hrest : (range i).countP (update p i true) = (range i).countP p := by
        apply countP_congr
        intro k hk
        rw [update_of_ne (mem_range.mp hk).ne]
      rw [hrest, update_self, hi]
      rfl
    · rw [ih (by omega), update_of_ne (Ne.symm hin)]
      omega

structure LaidOut (off len : ℕ) (d : Blkdev) : Prop where
  regionOff : d.regionOff = off
  bitmapOff : d.bitmapOff = off + blockSize
  bitmapBytes : d.bitmapBytes = (computeGeometry d off len).bitmapBytes
  totalBlocks : d.totalBlocks = (computeGeometry d off len).totalBlocks
  heapOff : d.heapOff = (computeGeometry d off len).heapOff

def Labelled (total : ℕ) (sb : List UInt8) : Prop := decode (sb.take 4) = blkdevMagic ∧
    decode ((sb.drop 4).take 4) = blkdevVersion ∧
    decode ((sb.drop 8).take 8) = total

def savedBits (d : Blkdev) : ℕ → Bool := unpackBits (read d.st.bytes d.bitmapOff (bitmapPhys d))

structure OnImage (off len : ℕ) (d : Blkdev) : Prop where
  healthy : Healthy d
  layout : LaidOut off len d
  up : d.totalBlocks ≠ 0
  label : Labelled d.totalBlocks (read d.st.bytes d.regionOff blockSize)
  counted : d.used = bitmapPopcount d
  saved : d.bitmapDirty = false → ∀ i < d.totalBlocks, savedBits d i = d.bitmap i

section
variable {off len : ℕ} {d d' : Blkdev}

theorem LaidOut.super_below (h : LaidOut off len d) : d.regionOff + blockSize ≤ d.heapOff := by
  rw [h.regionOff, h.heapOff]
  exact Nat.le_add_right _ _

theorem LaidOut.bitmap_below (h : LaidOut off len d) (hup : d.totalBlocks ≠ 0) :
    d.bitmapOff + bitmapPhys d ≤ d.heapOff := by
  have hbelow := laidOut_bitmap d off len (h.totalBlocks ▸ hup)
  have hphys : bitmapPhys d = bitmapPhys (laidOut d off len) := by
    unfold bitmapPhys
    rw [h.bitmapBytes]
    rfl
  rw [h.bitmapOff, hphys, h.heapOff]
  exact hbelow

theorem LaidOut.covered (h : LaidOut off len d) : d.totalBlocks ≤ 8 * bitmapPhys d := by
  have hround : ∀ v, v ≤ roundUp4k v := by
    intro v
    unfold roundUp4k blockSize
    omega
  obtain ⟨blocks, htotal, hbytes⟩ : ∃ blocks, d.totalBlocks =
      (if blkdevBitmapMax * 8 < blocks then blkdevBitmapMax * 8 else blocks) ∧
        d.bitmapBytes = (blocks + 7) / 8 := ⟨_, h.totalBlocks, h.bitmapBytes⟩
  have hblocks := hround ((blocks + 7) / 8)
  have hpage : 0 < blockSize := by decide
  rw [htotal, bitmapPhys, hbytes]
  generalize roundUp4k ((blocks + 7) / 8) = phys at hblocks ⊢
  generalize blkdevBitmapMax = most
  split_ifs <;> omega

theorem LaidOut.heapOnly (h : LaidOut off len d) (hd : HeapOnly d d') : LaidOut off len d' :=
  ⟨hd.regionOff.trans h.regionOff, hd.bitmapOff.trans h.bitmapOff,
    hd.bitmapBytes.trans h.bitmapBytes, hd.bits.totalBlocks.trans h.totalBlocks,
    hd.heapOff.trans h.heapOff⟩

theorem bitmapPhys_congr (h : d'.bitmapBytes = d.bitmapBytes) : bitmapPhys d' = bitmapPhys d := by
  unfold bitmapPhys
  rw [h]

theorem savedBits_congr (hoff : d'.bitmapOff = d.bitmapOff) (hbytes : d'.bitmapBytes = d.bitmapBytes)
    (hlow : ∀ k < bitmapPhys d, d'.st.bytes (d.bitmapOff + k) = d.st.bytes (d.bitmapOff + k)) :
    savedBits d' = savedBits d := by
  rw [savedBits, savedBits, bitmapPhys_congr hbytes, hoff, read_congr hlow]

theorem OnImage.heapOnly (h : OnImage off len d) (hd : HeapOnly d d') (hhealthy : Healthy d') :
    OnImage off len d' := by
  have hsuper := h.layout.super_below
  have hbitmap := h.layout.bitmap_below h.up
  refine ⟨hhealthy, h.layout.heapOnly hd, hd.bits.totalBlocks ▸ h.up, ?_, ?_, ?_⟩
  · have hread : read d'.st.bytes d.regionOff blockSize = read d.st.bytes d.regionOff blockSize :=
      read_congr fun k hk => hd.low _ (by omega)
    rw [hd.regionOff, hread, hd.bits.totalBlocks]
    exact h.label
  · rw [hd.bits.used, bitmapPopcount, hd.bits.totalBlocks, hd.bits.bitmap]
    exact h.counted
  · have hsaved : savedBits d' = savedBits d :=
      savedBits_congr hd.bitmapOff hd.bitmapBytes fun k hk => hd.low _ (by omega)
    rw [hd.bitmapDirty, hd.bits.totalBlocks, hd.bits.bitmap, hsaved]
    exact h.saved

theorem OnImage.rebit (h : OnImage off len d) {bitmap : ℕ → Bool} {used : ℕ}
    (hcount : used = (List.range d.totalBlocks).countP bitmap) :
    OnImage off len { d with bitmap, used, bitmapDirty := true } :=
  ⟨⟨h.healthy.sound, h.healthy.fits, h.healthy.cached, h.healthy.empty, h.healthy.coherent⟩,
    ⟨h.layout.regionOff, h.layout.bitmapOff, h.layout.bitmapBytes, h.layout.totalBlocks,
      h.layout.heapOff⟩, h.up, h.label, hcount, nofun⟩

theorem OnImage.blkAlloc (h : OnImage off len d) : OnImage off len (blkAlloc d).1 := by
  unfold Sotfs.blkAlloc
  cases hfirst : Slots.first fun i : Fin d.totalBlocks => !d.bitmap i with
  | none => exact h
  | some i =>
    have hclear : d.bitmap i.val = false := by simpa using Slots.first_some hfirst
    apply h.rebit
    rw [countP_update hclear i.isLt, h.counted]
    rfl

theorem OnImage.blkFree (h : OnImage off len d) (blk : ℤ) : OnImage off len (blkFree d blk) := by
  have hfreed := (blkFree_freed h.healthy blk).healthy
  unfold Sotfs.blkFree at hfreed ⊢
  split_ifs at hfreed ⊢ with hvalid hbit
  · exact h
  · exact h
  have hrange : blk.toNat - 1 < d.totalBlocks := by
    have := validBlk_iff.mp (by simpa using hvalid)
    omega
  have hcount : d.used - 1 = (range d.totalBlocks).countP
      (update d.bitmap (blk.toNat - 1) false) := by
    have hset : d.bitmap (blk.toNat - 1) = true := by simpa using hbit
    have hback := countP_update (update_self (blk.toNat - 1) false d.bitmap) hrange
    rw [update_idem, ← hset, update_eq_self] at hback
    rw [h.counted, bitmapPopcount, hback, Nat.add_sub_cancel]
  have hrebit := h.rebit hcount
  simp only at hfreed ⊢
  generalize cacheFind _ blk = found at hfreed ⊢
  cases found with
  | none => exact hrebit
  | some i => exact hrebit.heapOnly ((HeapOnly.refl _).recache) hfreed

theorem OnImage.blkRead (h : OnImage off len d) (blk : ℤ) : OnImage off len (blkRead d blk).1 := by
  by_cases hv : validBlk d blk = true
  · exact h.heapOnly (blkRead_heapOnly h.healthy.sound blk) (blkRead_stored h.healthy hv).1.healthy
  · rw [Sotfs.blkRead, if_pos (by simpa using hv)]
    exact h

theorem OnImage.blkWrite (h : OnImage off len d) (blk : ℤ) (page : Page) :
    OnImage off len (blkWrite d blk page).1 := by
  by_cases hv : validBlk d blk = true
  · exact h.heapOnly (blkWrite_heapOnly h.healthy.sound)
      (blkWrite_stored h.healthy hv page).healthy
  · rw [Sotfs.blkWrite, if_pos (by simpa using hv)]
    exact h

def Blkdev.overwrite (d : Blkdev) (at' : ℕ) (buf : List UInt8) : Blkdev :=
  { d with st := { d.st with bytes := write d.st.bytes at' buf } }

def bitmapImage (d : Blkdev) : List UInt8 := (List.range (bitmapPhys d)).map (packBits d.bitmap)

theorem length_bitmapImage (d : Blkdev) : (bitmapImage d).length = bitmapPhys d := by
  rw [bitmapImage, length_map, length_range]

theorem stWrite_ok (h : d.st.Sound) {at' : ℕ} {buf : List UInt8}
    (hfits : at' + buf.length ≤ d.st.capacity) : stWrite d at' buf = (d.overwrite at' buf, 0) := by
  rw [stWrite, Storage.writeBlock_sound h hfits]
  simp [Blkdev.overwrite]

theorem OnImage.saveBits (h : OnImage off len d) :
    OnImage off len { d.overwrite d.bitmapOff (bitmapImage d) with bitmapDirty := false } ∧
      Stored d { d.overwrite d.bitmapOff (bitmapImage d) with bitmapDirty := false } d.view := by
  have hsuper := h.layout.super_below
  have hbitmap := h.layout.bitmap_below h.up
  have hlen := length_bitmapImage d
  have hregion : d.regionOff + blockSize = d.bitmapOff := by
    rw [h.layout.regionOff, h.layout.bitmapOff]
  have hstored : Stored d (d.overwrite d.bitmapOff (bitmapImage d)) d.view :=
    h.healthy.low_write h.healthy.sound rfl fun a ha => write_above _ (by omega)
  have hhealthy := hstored.healthy
  set d' : Blkdev := { d.overwrite d.bitmapOff (bitmapImage d) with bitmapDirty := false }
  have hd' : Healthy d' :=
    { hhealthy with }
  refine ⟨⟨hd', ⟨h.layout.regionOff, h.layout.bitmapOff, h.layout.bitmapBytes, h.layout.totalBlocks,
    h.layout.heapOff⟩, h.up, ?_, h.counted, ?_⟩, ⟨hd', ⟨rfl, rfl, rfl⟩, rfl, hstored.view⟩⟩
  · have hread : read d'.st.bytes d.regionOff blockSize = read d.st.bytes d.regionOff blockSize :=
      read_congr fun k hk => write_below (by omega)
    have hlabel := h.label
    rw [← hread] at hlabel
    exact hlabel
  · intro _ i hi
    have hread : read d'.st.bytes d.bitmapOff (bitmapPhys d) = bitmapImage d := by
      rw [← hlen]
      exact read_write_same ..
    have hbits : savedBits d' = unpackBits (bitmapImage d) := congrArg unpackBits hread
    rw [hbits]
    exact unpackBits_packBits d.bitmap (lt_of_lt_of_le hi h.layout.covered)

structure Flushed (off len : ℕ) (d d' : Blkdev) : Prop where
  image : OnImage off len d'
  stored : Stored d d' d.view
  used : d'.used = d.used
  clean : ∀ i, (d'.cache i).dirty = false
  saved : d'.bitmapDirty = false

theorem OnImage.blkFlush (h : OnImage off len d) : Flushed off len d (blkFlush d) := by
  obtain ⟨hstored, hheap, hclean⟩ := writebackAll h.healthy (finRange cacheSlots)
  have himage := h.heapOnly hheap hstored.healthy
  unfold Sotfs.blkFlush
  generalize (finRange cacheSlots).foldl slotWriteback d = d₁ at *
  have hclean : ∀ i, (d₁.cache i).dirty = false := fun i => hclean i (mem_finRange i)
  simp only
  split_ifs with hdirty
  · have hbitmap := himage.layout.bitmap_below himage.up
    have hfits := himage.healthy.fits
    have hroom : d₁.bitmapOff + (bitmapImage d₁).length ≤ d₁.st.capacity := by
      rw [length_bitmapImage]
      omega
    have hwrite := stWrite_ok himage.healthy.sound hroom
    obtain ⟨hsaved, hkept⟩ := himage.saveBits
    rw [bitmapFlush, ← bitmapImage, hwrite]
    rw [hstored.view] at hkept
    exact ⟨hsaved, hstored.trans hkept, hheap.bits.used, hclean, rfl⟩
  · exact ⟨himage, hstored, hheap.bits.used, hclean, by simpa using hdirty⟩

theorem LaidOut.total_small (h : LaidOut off len d) : d.totalBlocks < 256 ^ 8 := by
  obtain ⟨blocks, htotal⟩ : ∃ blocks, d.totalBlocks =
      (if blkdevBitmapMax * 8 < blocks then blkdevBitmapMax * 8 else blocks) := ⟨_, h.totalBlocks⟩
  have hmost : blkdevBitmapMax * 8 < 256 ^ 8 := by decide
  rw [htotal]
  generalize blkdevBitmapMax * 8 = most at *
  split_ifs <;> omega

theorem superblock_labelled (h : d.totalBlocks < 256 ^ 8) :
    Labelled d.totalBlocks (superblock d) := by
  have hmagic : blkdevMagic < 256 ^ 4 := by decide
  have hversion : blkdevVersion < 256 ^ 4 := by decide
  unfold Labelled superblock
  simp only [append_assoc]
  refine ⟨?_, ?_, ?_⟩
  · rw [take_left' (length_encode ..), decode_encode 4 hmagic]
  · rw [drop_left' (length_encode ..),
      take_left' (length_encode ..), decode_encode 4 hversion]
  · rw [← append_assoc, drop_left' (by simp),
      take_left' (length_encode ..), decode_encode 8 h]

theorem OnImage.ofSuperblock (h : Healthy d) (hlayout : LaidOut off len d) (hup : d.totalBlocks ≠ 0)
    (hbitmap : d.bitmap = fun _ => false) (hused : d.used = 0) :
    OnImage off len { d.overwrite d.regionOff (superblock d) with bitmapDirty := true } := by
  have hsuper := hlayout.super_below
  have hlen := superblock_length d
  have hstored : Stored d (d.overwrite d.regionOff (superblock d)) d.view :=
    h.low_write h.sound rfl fun a ha => write_above _ (by omega)
  have hlow := hstored.healthy
  refine ⟨{ hlow with },
    { hlayout with }, hup, ?_, ?_, nofun⟩
  · have hread := read_write_same d.st.bytes d.regionOff (superblock d)
    rw [hlen] at hread
    have hlabel := superblock_labelled hlayout.total_small
    rw [← hread] at hlabel
    exact hlabel
  · have hnone : (range d.totalBlocks).countP d.bitmap = 0 := by
      rw [hbitmap, countP_false]
      rfl
    exact hused.trans hnone.symm

theorem OnImage.ofFormat (h : Healthy d) (hlayout : LaidOut off len d) (hup : d.totalBlocks ≠ 0)
    (hdirty : d.bitmapDirty = false) :
    OnImage off len (blkdevFormat d).1 ∧ (blkdevFormat d).2 = 0 := by
  have hfits := h.fits
  obtain ⟨d₀, hd₀⟩ : ∃ d₀ : Blkdev, d₀ = { d with bitmap := fun _ => false, used := 0 } := ⟨_, rfl⟩
  have h₀ : Healthy d₀ := by
    rw [hd₀]
    exact { h with }
  have hlayout₀ : LaidOut off len d₀ := by
    rw [hd₀]
    exact { hlayout with }
  have hup₀ : d₀.totalBlocks ≠ 0 := by rwa [hd₀]
  have hdirty₀ : d₀.bitmapDirty = false := by rwa [hd₀]
  have hsuper : stWrite d₀ d₀.regionOff (superblock d₀) =
      (d₀.overwrite d₀.regionOff (superblock d₀), 0) := by
    have hbelow := hlayout₀.super_below
    have hroom := h₀.fits
    apply stWrite_ok h₀.sound
    rw [superblock_length]
    omega
  have himage := OnImage.ofSuperblock h₀ hlayout₀ hup₀ (by rw [hd₀]) (by rw [hd₀])
  rw [blkdevFormat_eq hd₀ hsuper]
  simp only [ne_eq, not_true_eq_false, if_false]
  -- the bitmap goes down next, from a store whose dirty flag does not count
  generalize hd₁ : d₀.overwrite d₀.regionOff (superblock d₀) = d₁ at himage ⊢
  have hdirty₁ : d₁.bitmapDirty = false := by rw [← hd₁]; exact hdirty₀
  have hsound : d₁.st.Sound := himage.healthy.sound
  have hbitmap : d₁.bitmapOff + bitmapPhys d₁ ≤ d₁.heapOff := himage.layout.bitmap_below himage.up
  have hroom : d₁.heapOff + d₁.totalBlocks * blockSize ≤ d₁.st.capacity := himage.healthy.fits
  have hwrite : stWrite d₁ d₁.bitmapOff (bitmapImage d₁) =
      (d₁.overwrite d₁.bitmapOff (bitmapImage d₁), 0) := by
    apply stWrite_ok hsound
    rw [length_bitmapImage]
    omega
  rw [← bitmapImage, hwrite]
  refine ⟨?_, rfl⟩
  have hsaved := himage.saveBits.1
  have hsame : d₁.overwrite d₁.bitmapOff (bitmapImage d₁) =
      { d₁.overwrite d₁.bitmapOff (bitmapImage d₁) with bitmapDirty := false } := by
    rw [← hdirty₁]
    rfl
  rw [hsame]
  exact hsaved

def recalled (d : Blkdev) : Blkdev :=
  { d with bitmap := savedBits d, used := bitmapPopcount { d with bitmap := savedBits d } }

theorem blkdevAttach_labelled (h : Healthy d) (hlayout : LaidOut off len d)
    (hup : d.totalBlocks ≠ 0) (hlabel : Labelled d.totalBlocks sb) :
    blkdevAttach d sb = (recalled d, 0) := by
  obtain ⟨hmagic, hversion, htotal⟩ := hlabel
  have hbitmap := hlayout.bitmap_below hup
  have hfits := h.fits
  have hread : stRead d d.bitmapOff (bitmapPhys d) =
      some (read d.st.bytes d.bitmapOff (bitmapPhys d)) := by
    rw [stRead, Storage.readBlock, if_neg (by omega)]
  rw [blkdevAttach, if_neg (by simp [hmagic, hversion]), if_neg (by simp [htotal]), hread]
  rfl

theorem labelled_of_attach (h : (blkdevAttach d sb).2 = 0) : Labelled d.totalBlocks sb := by
  unfold blkdevAttach at h
  split_ifs at h with hlabel htotal
  · cases h
  · cases h
  · rw [not_or, not_not, not_not] at hlabel
    exact ⟨hlabel.1, hlabel.2, not_not.mp htotal⟩

theorem OnImage.ofRecalled (h : Healthy d) (hlayout : LaidOut off len d) (hup : d.totalBlocks ≠ 0)
    (hlabel : Labelled d.totalBlocks (read d.st.bytes d.regionOff blockSize)) :
    OnImage off len (recalled d) :=
  ⟨{ h with }, { hlayout with }, hup, hlabel, rfl, fun _ _ _ => rfl⟩

theorem laidOut_layout (d : Blkdev) (off len : ℕ) : LaidOut off len (laidOut d off len) :=
  ⟨rfl, rfl, rfl, rfl, rfl⟩

theorem laidOut_healthy (hs : st.Sound) (hcap : off + len ≤ st.capacity)
    (hup : (laidOut { d with st } off len).totalBlocks ≠ 0) :
    Healthy (laidOut { d with st } off len) :=
  (laidOut_attached hs).healthy (blockSize_le_of_up { d with st } off hup) hcap

theorem stRead_superblock (h : Healthy d) (hlayout : LaidOut off len d) :
    stRead d d.regionOff blockSize = some (read d.st.bytes d.regionOff blockSize) := by
  have hsuper := hlayout.super_below
  have hfits := h.fits
  rw [stRead, Storage.readBlock, if_neg (by omega)]

theorem onImage_init {fresh : Bool} (hs : st.Sound) (hcap : off + len ≤ st.capacity)
    (hup : (blkdevInit d st off len fresh).2 = 0) :
    OnImage off len (blkdevInit d st off len fresh).1 := by
  rw [blkdevInit_eq] at hup ⊢
  split_ifs at hup ⊢ with hzero
  · cases hup
  have hlayout := laidOut_layout { d with st } off len
  have hhealthy := laidOut_healthy (d := d) hs hcap hzero
  have hdirty : (laidOut { d with st } off len).bitmapDirty = false := rfl
  have hzero : (laidOut { d with st } off len).totalBlocks ≠ 0 := hzero
  generalize laidOut { d with st } off len = d₀ at *
  have hread := stRead_superblock hhealthy hlayout
  unfold bringUp at hup ⊢
  rw [hread] at hup ⊢
  simp only at hup ⊢
  split at hup
  · rename_i hformat
    rw [if_pos hformat]
    exact (OnImage.ofFormat hhealthy hlayout hzero hdirty).1
  · rename_i hattach
    rw [if_neg hattach]
    have hlabel := labelled_of_attach hup
    rw [blkdevAttach_labelled hhealthy hlayout hzero hlabel]
    exact .ofRecalled hhealthy hlayout hzero hlabel

theorem LaidOut.agree (h : LaidOut off len d) (h' : LaidOut off len d') :
    d'.totalBlocks = d.totalBlocks ∧ d'.bitmapBytes = d.bitmapBytes ∧ d'.heapOff = d.heapOff ∧
      d'.bitmapOff = d.bitmapOff ∧ d'.regionOff = d.regionOff :=
  ⟨h'.totalBlocks.trans h.totalBlocks.symm, h'.bitmapBytes.trans h.bitmapBytes.symm,
    h'.heapOff.trans h.heapOff.symm, h'.bitmapOff.trans h.bitmapOff.symm,
    h'.regionOff.trans h.regionOff.symm⟩

theorem blkdevInit_recalls (h : OnImage off len d) (hcap : off + len ≤ d.st.capacity)
    (d₀ : Blkdev) :
    blkdevInit d₀ d.st off len false = (recalled (laidOut { d₀ with st := d.st } off len), 0) := by
  have hlayout := laidOut_layout { d₀ with st := d.st } off len
  obtain ⟨htotal, -, -, -, hregion⟩ := h.layout.agree hlayout
  have hup : (laidOut { d₀ with st := d.st } off len).totalBlocks ≠ 0 := htotal ▸ h.up
  have hhealthy := laidOut_healthy (d := d₀) h.healthy.sound hcap hup
  have hlabel : Labelled (laidOut { d₀ with st := d.st } off len).totalBlocks
      (read (laidOut { d₀ with st := d.st } off len).st.bytes
        (laidOut { d₀ with st := d.st } off len).regionOff blockSize) := by
    rw [htotal, hregion]
    exact h.label
  have hgeometry : ¬(computeGeometry { d₀ with st := d.st } off len).totalBlocks = 0 := hup
  rw [blkdevInit_eq, if_neg hgeometry]
  generalize laidOut { d₀ with st := d.st } off len = d₁ at *
  unfold bringUp
  rw [stRead_superblock hhealthy hlayout]
  simp only [hlabel.1, bne_self_eq_false, Bool.or_self, Bool.false_eq_true, if_false]
  exact blkdevAttach_labelled hhealthy hlayout hup hlabel

theorem OnImage.reattach (h : OnImage off len d) (hclean : ∀ i, (d.cache i).dirty = false)
    (hsaved : d.bitmapDirty = false) {d₀ : Blkdev} :
    (∀ i < d.totalBlocks, (recalled (laidOut { d₀ with st := d.st } off len)).bitmap i = d.bitmap i) ∧
      (recalled (laidOut { d₀ with st := d.st } off len)).used = d.used ∧
      (recalled (laidOut { d₀ with st := d.st } off len)).view = d.view := by
  have hlayout := laidOut_layout { d₀ with st := d.st } off len
  obtain ⟨htotal, hbytes, hheap, hoff, -⟩ := h.layout.agree hlayout
  have hst : (laidOut { d₀ with st := d.st } off len).st = d.st := rfl
  have hcache : ∀ i, (laidOut { d₀ with st := d.st } off len).cache i = emptySlot := fun _ => rfl
  generalize laidOut { d₀ with st := d.st } off len = d₁ at *
  have hbits : savedBits d₁ = savedBits d := savedBits_congr hoff hbytes fun k _ => by rw [hst]
  have hsame : ∀ i < d.totalBlocks, (recalled d₁).bitmap i = d.bitmap i := by
    intro i hi
    change savedBits d₁ i = d.bitmap i
    rw [hbits]
    exact h.saved hsaved i hi
  refine ⟨hsame, ?_, ?_⟩
  · change (range d₁.totalBlocks).countP (savedBits d₁) = d.used
    rw [h.counted, bitmapPopcount, htotal]
    apply countP_congr
    intro i hi
    rw [← hsame i (mem_range.mp hi)]
    rfl
  · have hpages : diskPage (recalled d₁) = diskPage d := by
      funext blk
      simp only [diskPage, blockOff, recalled, hheap, hst]
    rw [view_of_clean h.healthy hclean, ← hpages]
    funext blk
    exact view_of_empty hcache

end

inductive BlkOp where
  | alloc
  | free (blk : ℤ)
  | read (blk : ℤ)
  | write (blk : ℤ) (page : Page)
  | flush

inductive BlkReply where
  | id (blk : ℤ)
  | page (page : Option Page)
  | done (ok : Bool)
  | unit

def BlkOp.step (d : Blkdev) : BlkOp → Blkdev × BlkReply
  | .alloc => ((blkAlloc d).1, .id (blkAlloc d).2)
  | .free blk => (blkFree d blk, .unit)
  | .read blk => ((blkRead d blk).1, .page (blkRead d blk).2)
  | .write blk page => ((blkWrite d blk page).1, .done (blkWrite d blk page).2)
  | .flush => (blkFlush d, .unit)

def lastWrite (blk : ℤ) (h : List (Entry Blkdev BlkOp BlkReply)) : Option Page :=
  h.foldl (fun w e =>
    match e.input, e.reply with
    | .alloc, .id b => if b = blk then none else w
    | .write b page, .done true => if b = blk then some page else w
    | _, _ => w) none

structure ShowsLast (off len cap : ℕ) (h : List (Entry Blkdev BlkOp BlkReply)) (d : Blkdev) :
    Prop where
  image : OnImage off len d
  capacity : d.st.capacity = cap
  pages : ∀ blk page, lastWrite blk h = some page → d.taken blk = true → d.view blk = page

section
variable {off len cap : ℕ} {h : List (Entry Blkdev BlkOp BlkReply)} {d d' : Blkdev}

theorem taken_iff :
    d.taken blk = true ↔ validBlk d blk = true ∧ d.bitmap (blk.toNat - 1) = true := by
  rw [Blkdev.taken, Bool.and_eq_true]

theorem ShowsLast.quiet (hh : ShowsLast off len cap h d) (himage : OnImage off len d')
    (hstored : Stored d d' d.view) {e : Entry Blkdev BlkOp BlkReply}
    (hlast : ∀ blk, lastWrite blk (h ++ [e]) = lastWrite blk h) :
    ShowsLast off len cap (h ++ [e]) d' := by
  refine ⟨himage, hstored.device.capacity.trans hh.capacity, fun blk page hpage htaken => ?_⟩
  rw [hlast] at hpage
  rw [taken_iff, hstored.device.validBlk, hstored.bitmap, ← taken_iff] at htaken
  rw [hstored.view]
  exact hh.pages blk page hpage htaken

theorem ShowsLast.alloc (hh : ShowsLast off len cap h d) :
    ShowsLast off len cap (h ++ [entry BlkOp.step d .alloc]) (BlkOp.step d .alloc).1 := by
  have hlast : ∀ blk, lastWrite blk (h ++ [entry BlkOp.step d .alloc]) =
      if (blkAlloc d).2 = blk then none else lastWrite blk h := by
    intro blk
    simp only [lastWrite, foldl_append, foldl_cons, foldl_nil, entry, BlkOp.step]
  have himage := hh.image.blkAlloc
  cases halloc : blkAlloc d with
  | mk d' new =>
    rw [halloc] at himage hlast
    rw [show (BlkOp.step d .alloc).1 = d' from congrArg Prod.fst halloc]
    by_cases hnew : new = 0
    · obtain rfl := blkAlloc_zero (hnew ▸ halloc)
      refine ⟨himage, hh.capacity, fun blk page hpage htaken => ?_⟩
      rw [hlast] at hpage
      split_ifs at hpage
      exact hh.pages blk page hpage htaken
    · have htook := blkAlloc_taken hh.image.healthy halloc hnew
      refine ⟨himage, htook.device.capacity.trans hh.capacity, fun blk page hpage htaken => ?_⟩
      rw [hlast] at hpage
      split_ifs at hpage with hne
      have hbits := taken_update htook.valid htook.device.totalBlocks htook.bitmap
      rw [hbits, update_of_ne (Ne.symm hne)] at htaken
      rw [htook.view]
      exact hh.pages blk page hpage htaken

theorem blkFree_untaken : (blkFree d blk).taken blk = false := by
  by_cases htaken : d.taken blk = true
  · rw [(blkFree_releases htaken).1, update_self]
  have hsame : blkFree d blk = d := by
    rw [taken_iff] at htaken
    unfold blkFree
    split_ifs with hv hbit
    · rfl
    · rfl
    · simp_all
  rw [hsame]
  simpa using htaken

theorem ShowsLast.free (hh : ShowsLast off len cap h d) (blk₀ : ℤ) :
    ShowsLast off len cap (h ++ [entry BlkOp.step d (.free blk₀)]) (blkFree d blk₀) := by
  have hfreed := blkFree_freed hh.image.healthy blk₀
  refine ⟨hh.image.blkFree blk₀, hfreed.device.capacity.trans hh.capacity,
    fun blk page hpage htaken => ?_⟩
  have hlast : lastWrite blk (h ++ [entry BlkOp.step d (.free blk₀)]) = lastWrite blk h := by
    simp only [lastWrite, foldl_append, foldl_cons, foldl_nil, entry]
  rw [hlast] at hpage
  have hne : blk ≠ blk₀ := by
    rintro rfl
    rw [blkFree_untaken] at htaken
    cases htaken
  by_cases hv : validBlk d blk₀ = true
  · obtain ⟨hvalid, hbit⟩ := taken_iff.mp htaken
    rw [hfreed.device.validBlk] at hvalid
    have hindex : blk.toNat - 1 ≠ blk₀.toNat - 1 := by
      have := validBlk_iff.mp hvalid
      have := validBlk_iff.mp hv
      omega
    rw [hfreed.bitmap _ hindex] at hbit
    rw [hfreed.view blk hne]
    exact hh.pages blk page hpage (taken_iff.mpr ⟨hvalid, hbit⟩)
  · rw [blkFree_invalid (by simpa using hv)] at htaken ⊢
    exact hh.pages blk page hpage htaken

theorem ShowsLast.write (hh : ShowsLast off len cap h d) (blk₀ : ℤ) (page₀ : Page) :
    ShowsLast off len cap (h ++ [entry BlkOp.step d (.write blk₀ page₀)])
      (blkWrite d blk₀ page₀).1 := by
  have himage := hh.image.blkWrite blk₀ page₀
  have hlast : ∀ blk, lastWrite blk (h ++ [entry BlkOp.step d (.write blk₀ page₀)]) =
      if validBlk d blk₀ = true ∧ blk₀ = blk then some page₀ else lastWrite blk h := by
    intro blk
    simp only [lastWrite, foldl_append, foldl_cons, foldl_nil, entry,
      BlkOp.step, blkWrite]
    by_cases hv : validBlk d blk₀ = true
    · simp only [hv, Bool.not_true, Bool.false_eq_true, if_false, true_and]
    · simp only [Bool.not_eq_true] at hv
      simp only [hv, Bool.not_false, if_true, Bool.false_eq_true, false_and, if_false]
  by_cases hv : validBlk d blk₀ = true
  · have hstored := blkWrite_stored hh.image.healthy hv page₀
    refine ⟨himage, hstored.device.capacity.trans hh.capacity, fun blk page hpage htaken => ?_⟩
    rw [hlast] at hpage
    rw [taken_iff, hstored.device.validBlk, hstored.bitmap, ← taken_iff] at htaken
    rw [hstored.view]
    split_ifs at hpage with hblk
    · rw [← hblk.2, update_self]
      exact some.inj hpage
    · have hne : blk ≠ blk₀ := fun heq => hblk ⟨hv, heq.symm⟩
      rw [update_of_ne hne]
      exact hh.pages blk page hpage htaken
  · have hsame : (blkWrite d blk₀ page₀).1 = d := by rw [blkWrite, if_pos (by simpa using hv)]
    rw [hsame]
    refine ⟨hh.image, hh.capacity, fun blk page hpage htaken => ?_⟩
    rw [hlast, if_neg fun hblk => hv hblk.1] at hpage
    exact hh.pages blk page hpage htaken

theorem blkRead_invalid (hv : ¬validBlk d blk = true) : blkRead d blk = (d, none) := by
  rw [blkRead, if_pos (by simpa using hv)]

theorem BlkOp.step_showsLast (op : BlkOp) (hh : ShowsLast off len cap h d) :
    ShowsLast off len cap (h ++ [entry BlkOp.step d op]) (op.step d).1 := by
  cases op with
  | alloc => exact hh.alloc
  | free blk => exact hh.free blk
  | write blk page => exact hh.write blk page
  | read blk =>
    refine hh.quiet (hh.image.blkRead blk) ?_ fun b => ?_
    · by_cases hv : validBlk d blk = true
      · exact (blkRead_stored hh.image.healthy hv).1
      · rw [blkRead_invalid hv]
        exact .refl hh.image.healthy
    · simp only [lastWrite, foldl_append, foldl_cons, foldl_nil, entry]
  | flush =>
    have hflushed := hh.image.blkFlush
    -- the fold over the slots must not be unfolded
    simp only [BlkOp.step]
    generalize blkFlush d = d' at hflushed ⊢
    refine hh.quiet hflushed.image hflushed.stored fun b => ?_
    simp only [lastWrite, foldl_append, foldl_cons, foldl_nil, entry]

theorem blkRead_view (hd : Healthy d) (blk : ℤ) :
    (blkRead d blk).2 = if validBlk d blk then some (d.view blk) else none := by
  split_ifs with hv
  · exact (blkRead_stored hd hv).2
  · rw [blkRead_invalid hv]

theorem flush_survives {off len : ℕ} {d : Blkdev} (himage : OnImage off len d)
    (hcap : off + len ≤ d.st.capacity) (d₀ : Blkdev) :
    (blkdevInit d₀ (blkFlush d).st off len false).2 = 0 ∧
      (∀ blk, (blkdevInit d₀ (blkFlush d).st off len false).1.taken blk = d.taken blk) ∧
      blkUsed (blkdevInit d₀ (blkFlush d).st off len false).1 = blkUsed d ∧
      ∀ blk, (blkRead (blkdevInit d₀ (blkFlush d).st off len false).1 blk).2 = (blkRead d blk).2 := by
  have hflushed := himage.blkFlush
  have hcap' : off + len ≤ (blkFlush d).st.capacity := by rwa [hflushed.stored.device.capacity]
  have hrecalls := blkdevInit_recalls hflushed.image hcap' d₀
  have hnew := onImage_init hflushed.image.healthy.sound hcap' (congrArg Prod.snd hrecalls)
  obtain ⟨hbits, hused, hview⟩ := hflushed.image.reattach hflushed.clean hflushed.saved
  rw [hrecalls] at hnew ⊢
  have htotal := (himage.layout.agree hnew.layout).1
  have hvalid : ∀ blk, validBlk (recalled (laidOut { d₀ with st := (blkFlush d).st } off len)) blk =
      validBlk d blk := by
    intro blk
    rw [validBlk, validBlk, htotal]
  generalize recalled (laidOut { d₀ with st := (blkFlush d).st } off len) = d₁ at *
  refine ⟨rfl, fun blk => ?_, ?_, fun blk => ?_⟩
  · rw [Blkdev.taken, Blkdev.taken, hvalid]
    by_cases hv : validBlk d blk = true
    · have hrange : blk.toNat - 1 < (blkFlush d).totalBlocks := by
        have := validBlk_iff.mp hv
        rw [hflushed.stored.device.totalBlocks]
        omega
      rw [hbits _ hrange, hflushed.stored.bitmap]
    · simp only [Bool.not_eq_true] at hv
      rw [hv, Bool.false_and, Bool.false_and]
  · exact hused.trans hflushed.used
  · rw [blkRead_view hnew.healthy, blkRead_view himage.healthy, hvalid, hview, hflushed.stored.view]

end

/-- On a device that fails nothing, a taken block reads as last written, and after a flush the image
comes up with the same blocks and contents. -/
theorem blkdev_coherent_and_persistent {d : Blkdev} {st : Storage} {off len : ℕ} {fresh : Bool}
    (hs : st.Sound) (hcap : off + len ≤ st.capacity)
    (hup : (blkdevInit d st off len fresh).2 = 0) (ops : List BlkOp) :
    let h := trace BlkOp.step (blkdevInit d st off len fresh).1 ops
    let s := exec BlkOp.step (blkdevInit d st off len fresh).1 ops
    (∀ blk page, s.taken blk = true → lastWrite blk h = some page → (blkRead s blk).2 = some page) ∧
    ∀ d₀, (blkdevInit d₀ (blkFlush s).st off len false).2 = 0 ∧
      (∀ blk, (blkdevInit d₀ (blkFlush s).st off len false).1.taken blk = s.taken blk) ∧
      blkUsed (blkdevInit d₀ (blkFlush s).st off len false).1 = blkUsed s ∧
      ∀ blk, (blkRead (blkdevInit d₀ (blkFlush s).st off len false).1 blk).2 =
        (blkRead s blk).2 := by
  intro h s
  have hshows : ShowsLast off len st.capacity h s :=
    trace_induction BlkOp.step (P := ShowsLast off len st.capacity)
      ⟨onImage_init hs hcap hup, (blkdevInit_up hs hup).1.capacity, nofun⟩
      (fun _ _ op hh => op.step_showsLast hh) ops
  refine ⟨fun blk page htaken hpage => ?_, ?_⟩
  · rw [blkRead_view hshows.image.healthy, if_pos (taken_iff.mp htaken).1,
      hshows.pages blk page hpage htaken]
  · exact flush_survives hshows.image (hshows.capacity ▸ hcap)

theorem small_store_survives : (plainStore 7).2 = 0 ∧ blkUsed (blkdevInit (bssBlkdev (plainImage 7))
      (blkFlush (exec BlkOp.step (plainStore 7).1 [.alloc, .write 1 .zero])).st 0
      (3 * blockSize) false).1 = 1 := by
  have hup : (plainStore 7).2 = 0 := by decide +kernel
  have hused : blkUsed (exec BlkOp.step (plainStore 7).1 [.alloc, .write 1 .zero]) = 1 := by
    decide +kernel
  have hsurvives := (blkdev_coherent_and_persistent plainImage_sound (Nat.zero_add _).le hup
    [.alloc, .write 1 .zero]).2 (bssBlkdev (plainImage 7))
  exact ⟨hup, hsurvives.2.2.1.trans hused⟩

end SotOs.Sotfs
