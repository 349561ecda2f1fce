import SotOs.Lib.WriteBack
import SotOs.Sotfs.BlkdevSpec

/-! What the block store holds: the cache and the heap together as one page per block, and with the
block table as the pages of each file. -/

namespace SotOs.Sotfs
open WriteBack Function Slots Overlay List Option CacheSlot Blkdev

def diskPage (d : Blkdev) (id : ℤ) : Page :=
  if 0 < id then .ofList (read d.st.bytes (blockOff d id) blockSize) else .zero

def CacheSlot.toLine (s : CacheSlot) : Line ℤ Page :=
  ⟨if s.id = 0 then none else some s.id, s.dirty, s.data⟩

def Blkdev.toCache (d : Blkdev) : Cache (Fin cacheSlots) ℤ Page :=
  ⟨diskPage d, fun i => (d.cache i).toLine⟩

noncomputable def Blkdev.view (d : Blkdev) : ℤ → Page := WriteBack.view d.toCache

structure Healthy (d : Blkdev) : Prop where
  sound : d.st.Sound
  fits : d.heapOff + d.totalBlocks * blockSize ≤ d.st.capacity
  cached : ∀ i, (d.cache i).id ≠ 0 → validBlk d (d.cache i).id = true
  empty : ∀ i, (d.cache i).id = 0 → (d.cache i).dirty = false
  coherent : Coherent d.toCache

theorem CacheSlot.toLine_key {s : CacheSlot} {k : ℤ} : s.toLine.key = some k ↔ s.id = k ∧ k ≠ 0 := by
  unfold toLine
  constructor
  · intro h
    dsimp only at h
    split_ifs at h with h0
    obtain ⟨⟩ := h
    exact ⟨rfl, h0⟩
  · rintro ⟨rfl, h0⟩
    exact if_neg h0

variable {s s' : Graph × Blkdev} {d d' : Blkdev} {blk fileId : ℤ} {v : ℤ → Page}
  {i j : Fin cacheSlots} {g g' : Graph} {b : Block}

theorem validBlk_iff : validBlk d blk = true ↔ 0 < blk ∧ blk ≤ d.totalBlocks := by
  simp [validBlk]

theorem SameDevice.validBlk (h : SameDevice d d') (blk : ℤ) : validBlk d' blk = validBlk d blk := by
  unfold Sotfs.validBlk
  rw [h.totalBlocks]

theorem Healthy.block_fits (h : Healthy d) (hv : validBlk d blk = true) :
    blockOff d blk + blockSize ≤ d.st.capacity := by
  obtain ⟨hpos, hle⟩ := validBlk_iff.mp hv
  have hfits := h.fits
  have hmul : (blk.toNat - 1 + 1) * blockSize ≤ d.totalBlocks * blockSize :=
    Nat.mul_le_mul_right _ (by omega)
  rw [Nat.add_mul, Nat.one_mul] at hmul
  unfold blockOff
  omega

theorem Page.ofList_ofFn (page : Page) : Page.ofList (List.ofFn page) = page := by
  funext k
  simp [Page.ofList]

structure Stored (d d' : Blkdev) (view : ℤ → Page) : Prop where
  healthy : Healthy d'
  device : SameDevice d d'
  bitmap : d'.bitmap = d.bitmap
  view : d'.view = view

theorem Stored.refl (h : Healthy d) : Stored d d d.view := ⟨h, .refl d, rfl, rfl⟩

theorem Stored.trans {d₁ d₂ d₃ : Blkdev} (h : Stored d₁ d₂ d₁.view) (h' : Stored d₂ d₃ v) :
    Stored d₁ d₃ v :=
  ⟨h'.healthy, h.device.trans h'.device, h'.bitmap.trans h.bitmap, h'.view⟩

def Blkdev.writePage (d : Blkdev) (id : ℤ) (page : Page) : Blkdev :=
  let bytes := write d.st.bytes (blockOff d id) (List.ofFn page)
  { d with st := { d.st with bytes } }

theorem diskPage_writePage (d : Blkdev) {id : ℤ} (hid : 0 < id) (page : Page) :
    diskPage (d.writePage id page) = update (diskPage d) id page := by
  have hoff : ∀ k, blockOff (d.writePage id page) k = blockOff d k := fun _ => rfl
  have hbytes : (d.writePage id page).st.bytes =
      write d.st.bytes (blockOff d id) (ofFn page) := rfl
  funext k
  by_cases hk : k = id
  · have hread := read_write_same d.st.bytes (blockOff d id) (ofFn page)
    rw [length_ofFn] at hread
    rw [hk, update_self, diskPage, if_pos hid, hoff, hbytes, hread, Page.ofList_ofFn]
  · rw [update_of_ne hk]
    unfold diskPage
    split_ifs with hpos
    · rw [hoff, hbytes, read_write_disjoint]
      rw [length_ofFn]
      unfold blockOff blockSize
      omega
    · rfl

theorem stWrite_healthy (h : Healthy d) (hv : validBlk d blk = true) (page : Page) :
    stWrite d (blockOff d blk) (List.ofFn page) = (d.writePage blk page, 0) := by
  have hcap : blockOff d blk + (ofFn page).length ≤ d.st.capacity := by
    rw [length_ofFn]
    exact h.block_fits hv
  rw [stWrite, Storage.writeBlock_sound h.sound hcap]
  simp [writePage]

theorem stWrite_cache (d : Blkdev) (off : ℕ) (buf : List UInt8) :
    (stWrite d off buf).1.cache = d.cache := rfl

theorem toCache_setSlot (d : Blkdev) (i : Fin cacheSlots) (s : CacheSlot) (tick : ℕ) :
    ({ d.setSlot i s with lruTick := tick } : Blkdev).toCache = d.toCache.setLine i s.toLine := by
  have hline : (fun j => (update d.cache i s j).toLine) =
      update (fun j => (d.cache j).toLine) i s.toLine := by
    funext j
    by_cases hj : j = i
    · rw [hj, update_self, update_self]
    · rw [update_of_ne hj, update_of_ne hj]
  unfold toCache Cache.setLine
  rw [← hline]
  rfl

theorem slotWriteback_dirty (h : Healthy d) (hd : (d.cache i).dirty = true) :
    Stored d (slotWriteback d i) d.view ∧ ((slotWriteback d i).cache i).dirty = false := by
  have hne : (d.cache i).id ≠ 0 := by
    intro h0
    rw [h.empty i h0] at hd
    cases hd
  have hv := h.cached i hne
  have hpos : 0 < (d.cache i).id := (validBlk_iff.mp hv).1
  have hwrite := stWrite_healthy h hv (d.cache i).data
  have hback : slotWriteback d i =
      (d.writePage (d.cache i).id (d.cache i).data).setSlot i { d.cache i with dirty := false } := by
    unfold slotWriteback
    simp [hd, hne, hwrite]
  have hflush : (slotWriteback d i).toCache = d.toCache.flush i (d.cache i).id := by
    have hset := toCache_setSlot (d.writePage (d.cache i).id (d.cache i).data) i
      { d.cache i with dirty := false } d.lruTick
    have hmem := diskPage_writePage d hpos (d.cache i).data
    rw [hback]
    refine hset.trans ?_
    unfold Cache.setLine Cache.flush toCache
    rw [hmem]
    rfl
  have hkey : (d.toCache.line i).key = some (d.cache i).id := toLine_key.mpr ⟨rfl, hne⟩
  obtain ⟨hcoh, hview⟩ := h.coherent.flush hkey
  have hslot : ∀ j, ((slotWriteback d i).cache j).id = (d.cache j).id ∧
      (((slotWriteback d i).cache j).dirty = true → (d.cache j).dirty = true) := by
    intro j
    have hcache : (d.writePage (d.cache i).id (d.cache i).data).cache = d.cache := rfl
    rw [hback]
    by_cases hj : j = i
    · subst hj
      simp [setSlot]
    · simp [setSlot, update_of_ne hj, hcache]
  refine ⟨⟨⟨?_, ?_, ?_, ?_, hflush ▸ hcoh⟩, slotWriteback_same d i, ?_, ?_⟩, ?_⟩
  · rw [hback]
    exact h.sound
  · rw [hback]
    exact h.fits
  · intro j hj
    rw [(slotWriteback_same d i).validBlk, (hslot j).1]
    rw [(hslot j).1] at hj
    exact h.cached j hj
  · intro j hj
    rw [(hslot j).1] at hj
    have hclean := h.empty j hj
    by_contra hdirty
    rw [(hslot j).2 (by simpa using hdirty)] at hclean
    cases hclean
  · rw [hback]
    rfl
  · exact (congrArg WriteBack.view hflush).trans hview
  · rw [hback]
    simp [setSlot]

theorem slotWriteback_stored (h : Healthy d) :
    Stored d (slotWriteback d i) d.view ∧ ((slotWriteback d i).cache i).dirty = false := by
  cases hd : (d.cache i).dirty with
  | true => exact slotWriteback_dirty h hd
  | false =>
    have hback : slotWriteback d i = d := by
      have hself : { d.cache i with dirty := false } = d.cache i := by rw [← hd]
      unfold slotWriteback
      simp [hd, hself, setSlot]
    rw [hback]
    exact ⟨.refl h, hd⟩

theorem slotWriteback_id : ((slotWriteback d i).cache j).id = (d.cache j).id := by
  have hset : ∀ d' : Blkdev, d'.cache = d.cache →
      ((d'.setSlot i { d.cache i with dirty := false }).cache j).id = (d.cache j).id := by
    intro d' hd'
    by_cases hj : j = i
    · subst hj
      simp [setSlot]
    · simp [setSlot, update_of_ne hj, hd']
  have hcache := stWrite_cache d (blockOff d (d.cache i).id) (ofFn (d.cache i).data)
  unfold slotWriteback
  simp only
  generalize stWrite d (blockOff d (d.cache i).id) (ofFn (d.cache i).data) = out at hcache ⊢
  split_ifs
  · exact hset d rfl
  · exact hset out.1 hcache
  · rw [hcache]

inductive Acquired (d : Blkdev) (blk : ℤ) : Blkdev × Fin cacheSlots × Bool → Prop
  | hit (i : Fin cacheSlots) (hi : (d.cache i).id = blk) : Acquired d blk (d, i, true)
  | miss (d' : Blkdev) (i : Fin cacheSlots) (hstored : Stored d d' d.view)
      (hclean : (d'.cache i).dirty = false) (habsent : ∀ j, (d'.cache j).id ≠ blk) :
      Acquired d blk (d'.setSlot i { d'.cache i with id := blk, dirty := false }, i, false)

theorem cacheAcquire_acquired (h : Healthy d) (blk : ℤ) : Acquired d blk (cacheAcquire d blk) := by
  unfold cacheAcquire
  cases hfind : cacheFind d blk with
  | some i =>
    have hi : (d.cache i).id = blk := by simpa using first_some hfind
    exact .hit i hi
  | none =>
    obtain ⟨hstored, hclean⟩ := slotWriteback_stored h
    refine .miss _ _ hstored hclean fun j => ?_
    rw [slotWriteback_id]
    simpa using first_none hfind j

theorem Healthy.place (h : Healthy d) (hv : validBlk d blk = true)
    (hother : ∀ j, (d.cache j).id = blk → j = i)
    (hold : (d.cache i).id = blk ∨ (d.cache i).dirty = false) {s : CacheSlot} (hid : s.id = blk)
    (hclean : s.dirty = false → s.data = diskPage d blk) (tick : ℕ) :
    Stored d { d.setSlot i s with lruTick := tick } (update d.view blk s.data) := by
  have hne : blk ≠ 0 := (validBlk_iff.mp hv).1.ne'
  have hput := h.coherent.put (i := i) (k := blk) (l := s.toLine)
    (fun j hj => hother j (toLine_key.mp hj).1)
    (hold.imp_left fun hi => toLine_key.mpr ⟨hi, hne⟩)
    (toLine_key.mpr ⟨hid, hne⟩) hclean
  rw [← toCache_setSlot d i s tick] at hput
  have hslot : ∀ j, update d.cache i s j = if j = i then s else d.cache j := by
    intro j
    rw [update_apply]
  refine ⟨⟨h.sound, h.fits, ?_, ?_, hput.1⟩, ⟨rfl, rfl, rfl⟩, rfl, hput.2⟩
  · intro j hj
    change (update d.cache i s j).id ≠ 0 at hj
    change validBlk d (update d.cache i s j).id = true
    rw [hslot] at hj ⊢
    split_ifs at hj ⊢
    · rw [hid]
      exact hv
    · exact h.cached j hj
  · intro j hj
    change (update d.cache i s j).id = 0 at hj
    change (update d.cache i s j).dirty = false
    rw [hslot] at hj ⊢
    split_ifs at hj ⊢
    · exact absurd (hid.symm.trans hj) hne
    · exact h.empty j hj

theorem Healthy.unique_id (h : Healthy d) (hne : blk ≠ 0) (hi : (d.cache i).id = blk)
    (hj : (d.cache j).id = blk) : j = i :=
  h.coherent.unique j i blk (toLine_key.mpr ⟨hj, hne⟩) (toLine_key.mpr ⟨hi, hne⟩)

theorem setSlot_cache_self (d : Blkdev) (i : Fin cacheSlots) (s : CacheSlot) :
    (d.setSlot i s).cache i = s := update_self ..

theorem setSlot_cache_ne {s : CacheSlot} (h : j ≠ i) :
    (d.setSlot i s).cache j = d.cache j := update_of_ne h ..

theorem setSlot_setSlot {s s' : CacheSlot} : (d.setSlot i s).setSlot i s' = d.setSlot i s' := by
  simp [setSlot]

theorem blkRead_stored (h : Healthy d) (hv : validBlk d blk = true) :
    Stored d (blkRead d blk).1 d.view ∧ (blkRead d blk).2 = some (d.view blk) := by
  have hne : blk ≠ 0 := (validBlk_iff.mp hv).1.ne'
  have hacq := cacheAcquire_acquired h blk
  unfold blkRead
  generalize cacheAcquire d blk = out at hacq ⊢
  simp only [hv, Bool.not_true, Bool.false_eq_true, if_false]
  cases hacq with
  | hit i hi =>
    have hkey : (d.toCache.line i).key = some blk := toLine_key.mpr ⟨hi, hne⟩
    have hpage : d.view blk = (d.cache i).data := view_hit h.coherent hkey
    have hplace := h.place hv (fun j hj => h.unique_id hne hi hj) (.inl hi)
      (s := { d.cache i with lru := d.lruTick + 1 }) hi (fun hc => h.coherent.clean i blk hkey hc)
      (d.lruTick + 1)
    rw [show ({ d.cache i with lru := d.lruTick + 1 } : CacheSlot).data = d.view blk from hpage.symm,
      update_eq_self] at hplace
    exact ⟨hplace, congrArg some hpage.symm⟩
  | miss d' i hstored hclean habsent =>
    have hv' : validBlk d' blk = true := by rw [hstored.device.validBlk, hv]
    have hpos : 0 < blk := (validBlk_iff.mp hv).1
    have hmiss : d'.view blk = diskPage d' blk := by
      apply view_miss
      intro j hj
      exact habsent j (toLine_key.mp hj).1
    have hdisk : diskPage d' blk =
        .ofList (read d'.st.bytes (blockOff d' blk) blockSize) := if_pos hpos
    have hread : stRead (d'.setSlot i { d'.cache i with id := blk, dirty := false })
        (blockOff (d'.setSlot i { d'.cache i with id := blk, dirty := false }) blk) blockSize =
          some (read d'.st.bytes (blockOff d' blk) blockSize) :=
      if_neg (Nat.not_lt.mpr (hstored.healthy.block_fits hv'))
    simp only [hread, setSlot_setSlot, setSlot_cache_self]
    rw [← hdisk]
    have hplace := hstored.healthy.place hv' (fun j hj => absurd hj (habsent j)) (.inr hclean)
      (s := ⟨blk, false, d'.lruTick + 1, diskPage d' blk⟩) rfl (fun _ => rfl) (d'.lruTick + 1)
    rw [show (⟨blk, false, d'.lruTick + 1, diskPage d' blk⟩ : CacheSlot).data = d'.view blk from
      hmiss.symm, update_eq_self, hstored.view] at hplace
    exact ⟨hstored.trans hplace, by rw [← hmiss, hstored.view]⟩

theorem blkWrite_stored (h : Healthy d) (hv : validBlk d blk = true) (page : Page) :
    Stored d (blkWrite d blk page).1 (update d.view blk page) := by
  have hne : blk ≠ 0 := (validBlk_iff.mp hv).1.ne'
  have hacq := cacheAcquire_acquired h blk
  unfold blkWrite
  generalize cacheAcquire d blk = out at hacq ⊢
  simp only [hv, Bool.not_true, Bool.false_eq_true, if_false]
  cases hacq with
  | hit i hi =>
    exact h.place hv (fun j hj => h.unique_id hne hi hj) (.inl hi)
      (s := { d.cache i with data := page, dirty := true, lru := d.lruTick + 1 }) hi
      (fun hc => absurd hc (by simp)) (d.lruTick + 1)
  | miss d' i hstored hclean habsent =>
    have hv' : validBlk d' blk = true := by rw [hstored.device.validBlk, hv]
    have hplace := hstored.healthy.place hv' (fun j hj => absurd hj (habsent j)) (.inr hclean)
      (s := ⟨blk, true, d'.lruTick + 1, page⟩) rfl (fun hc => absurd hc (by simp)) (d'.lruTick + 1)
    rw [hstored.view] at hplace
    simp only [setSlot_setSlot, setSlot_cache_self]
    exact hstored.trans hplace

structure Taken (d d' : Blkdev) (blk : ℤ) : Prop where
  healthy : Healthy d'
  device : SameDevice d d'
  view : d'.view = d.view
  valid : validBlk d blk = true
  clear : d.bitmap (blk.toNat - 1) = false
  bitmap : d'.bitmap = update d.bitmap (blk.toNat - 1) true

theorem blkAlloc_taken (h : Healthy d) (halloc : blkAlloc d = (d', blk)) (hne : blk ≠ 0) :
    Taken d d' blk := by
  unfold blkAlloc at halloc
  rcases hfirst : first fun i : Fin d.totalBlocks => !d.bitmap i with _ | i
  · rw [hfirst] at halloc
    exact absurd (Prod.mk.inj halloc).2.symm hne
  rw [hfirst] at halloc
  obtain ⟨rfl, rfl⟩ := Prod.mk.inj halloc
  have hnat : (toId i).toNat - 1 = i.val := by
    unfold toId
    omega
  have hclear : d.bitmap i.val = false := by simpa using first_some hfirst
  refine ⟨{ h with }, ⟨rfl, rfl, rfl⟩, rfl, ?_, ?_, ?_⟩
  · have hi := i.isLt
    rw [validBlk_iff]
    unfold toId
    omega
  · rw [hnat, hclear]
  · rw [hnat]

structure Freed (d d' : Blkdev) (blk : ℤ) : Prop where
  healthy : Healthy d'
  device : SameDevice d d'
  view : ∀ id, id ≠ blk → d'.view id = d.view id
  bitmap : ∀ n, n ≠ blk.toNat - 1 → d'.bitmap n = d.bitmap n

theorem blkFree_invalid (hv : validBlk d blk = false) : blkFree d blk = d := by
  unfold blkFree
  rw [hv]
  rfl

theorem blkFree_freed (h : Healthy d) (blk : ℤ) : Freed d (blkFree d blk) blk := by
  have hrefl : Freed d d blk := ⟨h, .refl d, fun _ _ => rfl, fun _ _ => rfl⟩
  unfold blkFree
  split_ifs with hv hbit
  · exact hrefl
  · exact hrefl
  have hvalid : validBlk d blk = true := by simpa using hv
  have hne : blk ≠ 0 := (validBlk_iff.mp hvalid).1.ne'
  set d₁ : Blkdev := { d with
    bitmap := update d.bitmap (blk.toNat - 1) false
    used := d.used - 1
    bitmapDirty := true } with hd₁
  have hbitmap : ∀ n, n ≠ blk.toNat - 1 → d₁.bitmap n = d.bitmap n :=
    fun n hn => update_of_ne hn ..
  have h₁ : Healthy d₁ := { h with }
  simp only
  rcases hfind : cacheFind d₁ blk with _ | i
  · exact ⟨h₁, ⟨rfl, rfl, rfl⟩, fun _ _ => rfl, hbitmap⟩
  have hi : (d₁.cache i).id = blk := by simpa using first_some hfind
  have hkey : (d₁.toCache.line i).key = some blk := toLine_key.mpr ⟨hi, hne⟩
  obtain ⟨hcoh, hview⟩ := h₁.coherent.drop hkey
    (l := toLine { d₁.cache i with id := 0, dirty := false }) rfl
  have hcache := toCache_setSlot d₁ i { d₁.cache i with id := 0, dirty := false } d₁.lruTick
  rw [← hcache] at hcoh hview
  refine ⟨⟨h.sound, h.fits, ?_, ?_, hcoh⟩, ⟨rfl, rfl, rfl⟩, ?_, hbitmap⟩
  · intro j hj
    by_cases hji : j = i
    · rw [hji, setSlot_cache_self] at hj
      exact absurd rfl hj
    have hslot : (d₁.setSlot i { d₁.cache i with id := 0, dirty := false }).cache j =
        d₁.cache j := update_of_ne hji ..
    rw [hslot] at hj ⊢
    exact h₁.cached j hj
  · intro j hj
    by_cases hji : j = i
    · rw [hji, setSlot_cache_self]
    have hslot : (d₁.setSlot i { d₁.cache i with id := 0, dirty := false }).cache j =
        d₁.cache j := update_of_ne hji ..
    rw [hslot] at hj ⊢
    exact h₁.empty j hj
  · intro id hid
    have hid' := congrFun hview id
    rw [update_of_ne hid] at hid'
    exact hid'

theorem Healthy.low_write (h : Healthy d) {st : Storage} (hsound : st.Sound)
    (hcap : st.capacity = d.st.capacity) (hbytes : ∀ a, d.heapOff ≤ a → st.bytes a = d.st.bytes a) :
    Stored d { d with st } d.view := by
  have hmem : diskPage { d with st } = diskPage d := by
    funext k
    have hoff : blockOff { d with st } k = blockOff d k := rfl
    have hread : read st.bytes (blockOff d k) blockSize =
        read d.st.bytes (blockOff d k) blockSize := by
      apply read_congr
      intro n _
      exact hbytes _ ((blockOff_le d k).trans (Nat.le_add_right _ _))
    unfold diskPage
    rw [hoff, hread]
  have hcache : ({ d with st } : Blkdev).toCache = d.toCache := by
    unfold toCache
    rw [hmem]
  have hcoh : Coherent ({ d with st } : Blkdev).toCache := by
    rw [hcache]
    exact h.coherent
  refine ⟨⟨hsound, ?_, h.cached, h.empty, hcoh⟩, ⟨rfl, rfl, hcap⟩, rfl, ?_⟩
  · exact h.fits.trans_eq hcap.symm
  · exact congrArg WriteBack.view hcache

theorem loadPage_stored (h : Healthy d) (disk : ℤ) : Stored d (loadPage d disk).1 d.view ∧
      (loadPage d disk).2 = if validBlk d disk then d.view disk else .zero := by
  unfold loadPage
  by_cases h0 : disk = 0
  · rw [if_pos h0, h0]
    exact ⟨.refl h, rfl⟩
  rw [if_neg h0]
  cases hv : validBlk d disk with
  | true =>
    obtain ⟨hstored, hpage⟩ := blkRead_stored h hv
    generalize blkRead d disk = out at hstored hpage ⊢
    obtain ⟨d', page⟩ := out
    simp only at hpage
    rw [hpage]
    exact ⟨hstored, rfl⟩
  | false =>
    have hread : blkRead d disk = (d, none) := by
      unfold blkRead
      rw [hv]
      rfl
    rw [hread]
    exact ⟨.refl h, rfl⟩

open Classical in
noncomputable def pageAt (g : Graph) (d : Blkdev) (id : ℤ) (off : ℕ) : Page :=
  match (findBlock g id off).bind g.blocks with
  | none => .zero
  | some b => if validBlk d b.diskBlk then d.view b.diskBlk else .zero

variable {id : ℤ} {off : ℕ}

theorem pageAt_stored (h : Stored d d' d.view) : pageAt g d' id off = pageAt g d id off := by
  unfold pageAt
  simp only [h.device.validBlk, h.view]

def readPage (g : Graph) (d : Blkdev) (id : ℤ) (off : ℕ) : Blkdev × Page :=
  match findBlock g id off with
  | none => (d, .zero)
  | some i => match g.blocks i with
    | none => (d, .zero)
    | some b => loadPage d b.diskBlk

theorem readPage_stored (h : Healthy d) (id : ℤ) (off : ℕ) :
    Stored d (readPage g d id off).1 d.view ∧ (readPage g d id off).2 = pageAt g d id off := by
  unfold readPage pageAt
  rcases findBlock g id off with _ | i
  · exact ⟨.refl h, rfl⟩
  simp only [bind_some]
  cases g.blocks i with
  | none => exact ⟨.refl h, rfl⟩
  | some b => exact loadPage_stored h b.diskBlk

def readChunk (curOff remaining : ℕ) : ℕ := min remaining (blockSize - (curOff - alignDown curOff))

theorem readLoop_succ {fuel : ℕ} {curOff remaining : ℕ} :
    readLoop g id (fuel + 1) d curOff remaining = if remaining = 0 then (d, [])
      else
        let out := readPage g d id (alignDown curOff)
        let chunk := readChunk curOff remaining
        let rest := readLoop g id fuel out.1 (curOff + chunk) (remaining - chunk)
        (rest.1, out.2.slice (curOff - alignDown curOff) chunk ++ rest.2) := rfl

theorem readLoop_stored {id : ℤ} : ∀ (fuel : ℕ) {d : Blkdev} (curOff remaining : ℕ),
    Healthy d → Stored d (readLoop g id fuel d curOff remaining).1 d.view := by
  intro fuel
  induction fuel with
  | zero =>
    intro d curOff remaining h
    exact .refl h
  | succ fuel ih =>
    intro d curOff remaining h
    rw [readLoop_succ]
    split_ifs
    · exact .refl h
    have hpage := (readPage_stored (g := g) h id (alignDown curOff)).1
    apply hpage.trans
    rw [← hpage.view]
    exact ih _ _ hpage.healthy

theorem readLoop_congr {id : ℤ} : ∀ (fuel : ℕ) {d d' : Blkdev} (curOff remaining : ℕ),
    Healthy d → Healthy d' → (∀ off, pageAt g' d' id off = pageAt g d id off) →
      (readLoop g' id fuel d' curOff remaining).2 = (readLoop g id fuel d curOff remaining).2 := by
  intro fuel
  induction fuel with
  | zero =>
    intro d d' curOff remaining _ _ _
    rfl
  | succ fuel ih =>
    intro d d' curOff remaining h h' hpages
    rw [readLoop_succ, readLoop_succ]
    split_ifs
    · rfl
    obtain ⟨hstored, hpage⟩ := readPage_stored (g := g) h id (alignDown curOff)
    obtain ⟨hstored', hpage'⟩ := readPage_stored (g := g') h' id (alignDown curOff)
    have hrest := ih (curOff + readChunk curOff remaining)
      (remaining - readChunk curOff remaining) hstored.healthy hstored'.healthy (fun off => by
        rw [pageAt_stored hstored, pageAt_stored hstored', hpages])
    simp only
    rw [hpage, hpage', hpages, hrest]

theorem fileRead_stored (h : Healthy d) (g : Graph) (id : ℤ) (offset len : ℕ) :
    Stored d (fileRead g d id offset len).1 d.view := by
  unfold fileRead
  split_ifs
  · exact .refl h
  rcases g.inode id with _ | n
  · exact .refl h
  simp only
  split_ifs
  · exact .refl h
  · exact .refl h
  · exact readLoop_stored _ _ _ h

variable {offset len : ℕ}

theorem fileRead_congr (h : Healthy d) (h' : Healthy d') {id : ℤ}
    (hinode : (g'.inode id).map (fun n => (n.kind, n.size)) = (g.inode id).map fun n => (n.kind, n.size))
    (hpages : ∀ off, pageAt g' d' id off = pageAt g d id off) :
    (fileRead g' d' id offset len).2 = (fileRead g d id offset len).2 := by
  unfold fileRead
  split_ifs
  · rfl
  rcases hn : g.inode id with _ | n
  · rw [hn, map_none, map_eq_none_iff] at hinode
    rw [hinode]
  rw [hn, map_some] at hinode
  obtain ⟨n', hn', heq⟩ := map_eq_some_iff.mp hinode
  obtain ⟨hkind, hsize⟩ := Prod.mk.inj heq
  rw [hn']
  simp only [hkind, hsize]
  split_ifs
  · rfl
  · rfl
  · simp only [readLoop_congr _ _ _ h h' hpages]

structure Mapped (g : Graph) (d : Blkdev) : Prop where
  valid : ∀ i b, g.blocks i = some b → b.diskBlk ≠ 0 → validBlk d b.diskBlk = true
  taken : ∀ i b, g.blocks i = some b → b.diskBlk ≠ 0 → d.bitmap (b.diskBlk.toNat - 1) = true
  distinct : ∀ i j b b', g.blocks i = some b → g.blocks j = some b' → b.diskBlk ≠ 0 →
    b.diskBlk = b'.diskBlk → i = j

structure StoreInv (g : Graph) (d : Blkdev) : Prop where
  healthy : Healthy d
  mapped : Mapped g d

theorem Mapped.of_subset (h : Mapped g d) (hsub : ∀ i b, g'.blocks i = some b → g.blocks i = some b) :
    Mapped g' d :=
  ⟨fun i b hb => h.valid i b (hsub i b hb), fun i b hb => h.taken i b (hsub i b hb),
    fun i j b b' hb hb' => h.distinct i j b b' (hsub i b hb) (hsub j b' hb')⟩

theorem StoreInv.stored (h : StoreInv g d) (hs : Stored d d' v) : StoreInv g d' := by
  refine ⟨hs.healthy, ⟨?_, ?_, h.mapped.distinct⟩⟩
  · intro i b hb hne
    rw [hs.device.validBlk]
    exact h.mapped.valid i b hb hne
  · intro i b hb hne
    rw [hs.bitmap]
    exact h.mapped.taken i b hb hne

theorem findBlock_congr {id : ℤ}
    (hblocks : ∀ i b, b.fileId = id → (g'.blocks i = some b ↔ g.blocks i = some b)) {off : ℕ} :
    (findBlock g' id off).bind g'.blocks = (findBlock g id off).bind g.blocks := by
  have hfind : findBlock g' id off = findBlock g id off := by
    apply first_congr
    intro i
    cases hb' : g'.blocks i with
    | none =>
      rcases hb : g.blocks i with _ | b
      · rfl
      have hne : b.fileId ≠ id := by
        intro hid
        rw [(hblocks i b hid).mpr hb] at hb'
        cases hb'
      simp [hne]
    | some b' =>
      by_cases hid : b'.fileId = id
      · rw [(hblocks i b' hid).mp hb']
      rcases hb : g.blocks i with _ | b
      · simp [hid]
      have hne : b.fileId ≠ id := by
        intro hid'
        rw [(hblocks i b hid').mpr hb] at hb'
        exact hid (some.inj hb' ▸ hid')
      simp only [beq_false_of_ne hid, beq_false_of_ne hne, Bool.false_and]
  rw [hfind]
  cases hi : findBlock g id off with
  | none => rfl
  | some i =>
    obtain ⟨b, hb, hid, -⟩ := findBlock_some hi
    rw [bind_some, bind_some, hb, (hblocks i b hid).mpr hb]

theorem pageAt_congr {id : ℤ}
    (hblocks : ∀ i b, b.fileId = id → (g'.blocks i = some b ↔ g.blocks i = some b))
    (hdev : SameDevice d d')
    (hview : ∀ i b, g.blocks i = some b → b.fileId = id → validBlk d b.diskBlk = true →
      d'.view b.diskBlk = d.view b.diskBlk) (off : ℕ) :
    pageAt g' d' id off = pageAt g d id off := by
  unfold pageAt
  rw [findBlock_congr hblocks]
  rcases hi : findBlock g id off with _ | i
  · rfl
  obtain ⟨b, hb, hid, -⟩ := findBlock_some hi
  simp only [bind_some, hb, hdev.validBlk]
  split_ifs with hv
  · exact hview i b hb hid hv
  · rfl

structure OthersKept (fileId : ℤ) (s s' : Graph × Blkdev) : Prop where
  inv : StoreInv s'.1 s'.2
  pages : ∀ id, id ≠ fileId → ∀ off, pageAt s'.1 s'.2 id off = pageAt s.1 s.2 id off

theorem OthersKept.refl (h : StoreInv s.1 s.2) : OthersKept fileId s s := ⟨h, fun _ _ _ => rfl⟩

theorem OthersKept.trans {s₁ s₂ s₃ : Graph × Blkdev} (h : OthersKept fileId s₁ s₂)
    (h' : OthersKept fileId s₂ s₃) : OthersKept fileId s₁ s₃ :=
  ⟨h'.inv, fun id hid off => (h'.pages id hid off).trans (h.pages id hid off)⟩

theorem Mapped.of_diskBlk (h : Mapped g d)
    (hdisk : ∀ i b', g'.blocks i = some b' → ∃ b, g.blocks i = some b ∧ b'.diskBlk = b.diskBlk) :
    Mapped g' d := by
  refine ⟨?_, ?_, ?_⟩
  · intro i b' hb' hne
    obtain ⟨b, hb, heq⟩ := hdisk i b' hb'
    rw [heq] at hne ⊢
    exact h.valid i b hb hne
  · intro i b' hb' hne
    obtain ⟨b, hb, heq⟩ := hdisk i b' hb'
    rw [heq] at hne ⊢
    exact h.taken i b hb hne
  · intro i j b' c' hb' hc' hne heq
    obtain ⟨b, hb, hbeq⟩ := hdisk i b' hb'
    obtain ⟨c, hc, hceq⟩ := hdisk j c' hc'
    rw [hbeq] at hne heq
    rw [hceq] at heq
    exact h.distinct i j b c hb hc hne heq

theorem Mapped.setBlock (h : Mapped g d) {i : Fin maxBlocks} {b' : Block} (hb : g.blocks i = some b)
    (hdisk : b'.diskBlk = b.diskBlk) : Mapped (g.setBlock i (some b')) d := by
  apply h.of_diskBlk
  intro k c hc
  by_cases hk : k = i
  · subst hk
    simp only [Graph.setBlock, update_self, some.injEq] at hc
    exact ⟨b, hb, hc ▸ hdisk⟩
  · simp only [Graph.setBlock, update_of_ne hk] at hc
    exact ⟨c, hc, rfl⟩

theorem patchBlock_device (h : StoreInv g d) {i : Fin maxBlocks} (hb : g.blocks i = some b)
    (intra : ℕ) (chunk : List UInt8) :
    ∃ v, Stored d (patchBlock g d i b intra chunk).2 v ∧
      ∀ blk, blk ≠ 0 → blk ≠ b.diskBlk → v blk = d.view blk := by
  obtain ⟨hload, -⟩ := loadPage_stored h.healthy b.diskBlk
  unfold patchBlock
  simp only
  split_ifs with h0
  · exact ⟨d.view, hload, fun _ _ _ => rfl⟩
  have hv : validBlk (loadPage d b.diskBlk).1 b.diskBlk = true := by
    rw [hload.device.validBlk]
    exact h.mapped.valid i b hb h0
  have hwrite := blkWrite_stored hload.healthy hv ((loadPage d b.diskBlk).2.patch intra chunk)
  refine ⟨_, hload.trans hwrite, fun blk _ hne => ?_⟩
  rw [update_of_ne hne, hload.view]

theorem patchBlock_kept (h : StoreInv g d) {i : Fin maxBlocks} (hb : g.blocks i = some b)
    (intra : ℕ) (chunk : List UInt8) :
    OthersKept b.fileId (g, d) (patchBlock g d i b intra chunk) := by
  obtain ⟨v, hstored, hview⟩ := patchBlock_device h hb intra chunk
  have hframe := (Round.found g d i b intra chunk hb rfl).frame
  refine ⟨⟨hstored.healthy, ?_⟩, fun id hid off => ?_⟩
  · exact (h.stored hstored).mapped.setBlock hb rfl
  · apply pageAt_congr _ hstored.device
    · intro k c hc hcid hvalid
      have hc0 : c.diskBlk ≠ 0 := (validBlk_iff.mp hvalid).1.ne'
      rw [hstored.view]
      apply hview _ hc0
      intro heq
      -- the same disk block means the same mapping, and so the same file
      have hk := h.mapped.distinct k i c b hc hb hc0 heq
      rw [hk, hb] at hc
      exact hid (hcid.symm.trans (some.inj hc ▸ rfl))
    · intro k c hcid
      exact hframe.others k c (hcid ▸ hid)

theorem claimed_kept (h : StoreInv g d) {i : Fin maxBlocks} (hi : g.blocks i = none) {diskBlk : ℤ}
    (hdisk : Backed d d' diskBlk) (fileId : ℤ) (off : ℕ) :
    OthersKept fileId (g, d) (claimedAt g i fileId off diskBlk, d') := by
  have hframe : ∀ k c, c.fileId ≠ fileId →
      ((claimedAt g i fileId off diskBlk).blocks k = some c ↔ g.blocks k = some c) := by
    have hset : WriteFrame fileId g (g.setBlock i (some ⟨fileId, off, 0, diskBlk⟩)) := by
      apply writeFrame_setBlock
      · intro b' hb'
        rw [hi] at hb'
        cases hb'
      · rfl
    exact hset.others
  have hslot : ∀ k c, (claimedAt g i fileId off diskBlk).blocks k = some c →
      (k = i ∧ c.diskBlk = diskBlk) ∨ (k ≠ i ∧ g.blocks k = some c) := by
    intro k c hc
    by_cases hk : k = i
    · subst hk
      simp only [claimedAt, Graph.setBlock, update_self, some.injEq] at hc
      exact .inl ⟨rfl, hc ▸ rfl⟩
    · simp only [claimedAt, Graph.setBlock, update_of_ne hk] at hc
      exact .inr ⟨hk, hc⟩
  rcases hdisk with ⟨-, rfl, rfl⟩ | ⟨-, hne, halloc⟩
  · -- the store is down: the mapping has no disk block
    refine ⟨⟨h.healthy, ⟨?_, ?_, ?_⟩⟩, fun id hid off => ?_⟩
    · intro k c hc hc0
      rcases hslot k c hc with ⟨-, hz⟩ | ⟨-, hc⟩
      · exact absurd hz hc0
      · exact h.mapped.valid k c hc hc0
    · intro k c hc hc0
      rcases hslot k c hc with ⟨-, hz⟩ | ⟨-, hc⟩
      · exact absurd hz hc0
      · exact h.mapped.taken k c hc hc0
    · intro k l c e hc he hc0 heq
      rcases hslot k c hc with ⟨-, hz⟩ | ⟨-, hc⟩
      · exact absurd hz hc0
      · rcases hslot l e he with ⟨-, hz⟩ | ⟨-, he⟩
        · exact absurd (heq.trans hz) hc0
        · exact h.mapped.distinct k l c e hc he hc0 heq
    · exact pageAt_congr (fun k c hcid => hframe k c (hcid ▸ hid)) (.refl _) (fun _ _ _ _ _ => rfl) off
  · have htaken := blkAlloc_taken h.healthy halloc hne
    have hpos : 0 < diskBlk := (validBlk_iff.mp htaken.valid).1
    have hother : ∀ k c, g.blocks k = some c → c.diskBlk ≠ 0 → c.diskBlk ≠ diskBlk := by
      intro k c hc hc0 heq
      have hused := h.mapped.taken k c hc hc0
      rw [heq, htaken.clear] at hused
      cases hused
    refine ⟨⟨htaken.healthy, ⟨?_, ?_, ?_⟩⟩, fun id hid off => ?_⟩
    · intro k c hc hc0
      rw [htaken.device.validBlk]
      rcases hslot k c hc with ⟨-, hz⟩ | ⟨-, hc⟩
      · rw [hz]
        exact htaken.valid
      · exact h.mapped.valid k c hc hc0
    · intro k c hc hc0
      rw [htaken.bitmap]
      rcases hslot k c hc with ⟨-, hz⟩ | ⟨-, hc⟩
      · rw [hz, update_self]
      have hcpos := (validBlk_iff.mp (h.mapped.valid k c hc hc0)).1
      have hcne := hother k c hc hc0
      rw [update_of_ne (by omega)]
      exact h.mapped.taken k c hc hc0
    · intro k l c e hc he hc0 heq
      rcases hslot k c hc with ⟨hk, hz⟩ | ⟨-, hc⟩
      · rcases hslot l e he with ⟨hl, -⟩ | ⟨-, he⟩
        · rw [hk, hl]
        · exact absurd (heq.symm.trans hz) (hother l e he (heq ▸ hc0))
      · rcases hslot l e he with ⟨-, hz⟩ | ⟨-, he⟩
        · exact absurd (heq.trans hz) (hother k c hc hc0)
        · exact h.mapped.distinct k l c e hc he hc0 heq
    · apply pageAt_congr (fun k c hcid => hframe k c (hcid ▸ hid)) htaken.device
      intro k c _ _ _
      rw [htaken.view]

theorem Round.kept (hr : Round fileId s s') (h : StoreInv s.1 s.2) : OthersKept fileId s s' := by
  cases hr with
  | found g d i b intra chunk hb hfile =>
    rw [← hfile]
    exact patchBlock_kept h hb intra chunk
  | fresh g d d' i off diskBlk intra chunk hi hdisk =>
    have hclaim := claimed_kept h hi hdisk fileId off
    have hb : (claimedAt g i fileId off diskBlk).blocks i = some ⟨fileId, off, 0, diskBlk⟩ :=
      update_self ..
    exact hclaim.trans (patchBlock_kept hclaim.inv hb intra chunk)

theorem rounds_kept (hr : Relation.ReflTransGen (Round fileId) s s') (h : StoreInv s.1 s.2) :
    OthersKept fileId s s' := by
  induction hr with
  | refl => exact .refl h
  | tail _ hround ih => exact ih.trans (hround.kept ih.inv)

theorem StoreInv.of_subset (h : StoreInv g d)
    (hsub : ∀ i b, g'.blocks i = some b → g.blocks i = some b) : StoreInv g' d :=
  ⟨h.healthy, h.mapped.of_subset hsub⟩

theorem pageAt_modifyInode {f : Inode → Inode} {id' : ℤ} :
    pageAt (g.modifyInode id f) d id' off = pageAt g d id' off := by
  apply pageAt_congr _ (.refl d) (fun _ _ _ _ _ => rfl)
  intro i b _
  rw [modifyInode_blocks]

theorem fileWrite_kept (h : StoreInv g d) (fileId : ℤ) (offset : ℕ) (buf : List UInt8) :
    OthersKept fileId (g, d)
      ((fileWrite g d fileId offset buf).1, (fileWrite g d fileId offset buf).2.1) := by
  have hw := fileWrite_written g d fileId offset buf
  generalize fileWrite g d fileId offset buf = out at hw ⊢
  cases hw with
  | nothing rc => exact .refl h
  | cut n _ _ g' d' hrounds rc => exact rounds_kept hrounds h
  | whole n _ _ g' d' hrounds size written =>
    have hkept := rounds_kept hrounds h
    refine ⟨hkept.inv.of_subset fun i b hb => ?_, fun id hid off => ?_⟩
    · rwa [modifyInode_blocks] at hb
    · exact (pageAt_modifyInode ..).trans (hkept.pages id hid off)

end SotOs.Sotfs
