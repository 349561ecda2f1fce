import SotOs.Lib.SparseFile
import SotOs.Sotfs.Attach
import SotOs.Sotfs.WellFormed
import SotOs.Sotfs.WholeWrite

/-! What a file reads as: its own writes over zeros. The pages of a file spell that array as long as
free disk blocks are zero and no write is cut short past the end of the file. -/

namespace SotOs.Sotfs
open SparseFile Function Overlay List Option

structure SparseInv (g : Graph) (d : Blkdev) : Prop where
  store : StoreInv g d
  up : d.totalBlocks ≠ 0
  zero : ∀ blk, validBlk d blk = true → d.bitmap (blk.toNat - 1) = false → d.view blk = .zero
  backed : ∀ i b, g.blocks i = some b → b.diskBlk ≠ 0
  aligned : ∀ i b, g.blocks i = some b → ∃ q, b.offset = q * blockSize
  once : ∀ i j b b', g.blocks i = some b → g.blocks j = some b' → b.fileId = b'.fileId →
    b.offset = b'.offset → i = j

structure OnceInv (g : Graph) (d : Blkdev) : Prop where
  store : StoreInv g d
  up : d.totalBlocks ≠ 0
  backed : ∀ i b, g.blocks i = some b → b.diskBlk ≠ 0
  aligned : ∀ i b, g.blocks i = some b → ∃ q, b.offset = q * blockSize
  once : ∀ i j b b', g.blocks i = some b → g.blocks j = some b' → b.fileId = b'.fileId →
    b.offset = b'.offset → i = j

variable {g g' g₁ : Graph} {d d' d₁ : Blkdev} {i j : Fin maxBlocks} {b c : Block} {off q len o : ℕ}
  {m : ℕ → UInt8} {diskBlk : ℤ} {chunk : List UInt8}

theorem SparseInv.onceInv (h : SparseInv g d) : OnceInv g d := { h with }

theorem OnceInv.sparseInv (h : OnceInv g d)
    (hzero : ∀ blk, validBlk d blk = true → d.bitmap (blk.toNat - 1) = false →
      d.view blk = .zero) : SparseInv g d :=
  { h with zero := hzero }

theorem OnceInv.valid (h : OnceInv g d) (hb : g.blocks i = some b) : validBlk d b.diskBlk = true :=
  h.store.mapped.valid i b hb (h.backed i b hb)

variable {f : ℤ} {origSize pos : ℕ}

theorem pageAt_unmapped (h : ∀ i b, g.blocks i = some b → b.fileId = f → b.offset ≠ off) :
    pageAt g d f off = .zero := by
  unfold pageAt
  cases hfind : findBlock g f off with
  | none => rfl
  | some i =>
    obtain ⟨b, hb, hfile, hoff⟩ := findBlock_some hfind
    exact absurd hoff (h i b hb hfile)

theorem OnceInv.pageAt_mapped (h : OnceInv g d) (hb : g.blocks i = some b) :
    pageAt g d b.fileId b.offset = d.view b.diskBlk := by
  unfold pageAt
  cases hfind : findBlock g b.fileId b.offset with
  | none => exact absurd rfl (findBlock_none hfind hb rfl)
  | some j =>
    obtain ⟨b', hb', hfile, hoff⟩ := findBlock_some hfind
    obtain rfl := h.once j i b' b hb' hb hfile hoff
    simp only [bind_some, hb, h.valid hb, if_true]

theorem OnceInv.of_subset (h : OnceInv g d)
    (hsub : ∀ i b, g'.blocks i = some b → g.blocks i = some b) : OnceInv g' d :=
  ⟨h.store.of_subset hsub, h.up, fun i b hb => h.backed i b (hsub i b hb),
    fun i b hb => h.aligned i b (hsub i b hb),
    fun i j b b' hb hb' => h.once i j b b' (hsub i b hb) (hsub j b' hb')⟩

theorem SparseInv.of_subset (h : SparseInv g d)
    (hsub : ∀ i b, g'.blocks i = some b → g.blocks i = some b) : SparseInv g' d :=
  (h.onceInv.of_subset hsub).sparseInv h.zero

theorem alignDown_mul {pos : ℕ} : alignDown pos = pos / blockSize * blockSize := rfl

theorem readLoop_paged : ∀ (fuel : ℕ) {d : Blkdev} (pos len : ℕ),
    Healthy d → Paged (pageAt g d f) m → len ≤ fuel →
      (readLoop g f fuel d pos len).2 = read m pos len := by
  intro fuel
  induction fuel with
  | zero =>
    intro d pos len _ _ hlen
    rw [Nat.le_zero.mp hlen]
    rfl
  | succ fuel ih =>
    intro d pos len hd hpaged hlen
    rw [readLoop_succ]
    split_ifs with hzero
    · rw [hzero]
      rfl
    obtain ⟨hstored, hpage⟩ := readPage_stored (g := g) hd f (alignDown pos)
    have hpaged' : Paged (pageAt g (readPage g d f (alignDown pos)).1 f) m := by
      intro q k
      rw [pageAt_stored hstored]
      exact hpaged q k
    have hpos : 0 < readChunk pos len ∧ readChunk pos len ≤ len ∧
        pos - alignDown pos + readChunk pos len ≤ blockSize ∧
        alignDown pos + (pos - alignDown pos) = pos := by
      unfold readChunk alignDown blockSize
      omega
    have hslice : (pageAt g d f (alignDown pos)).slice (pos - alignDown pos) (readChunk pos len) =
        read m pos (readChunk pos len) := by
      have hread := hpaged.read (pos / blockSize) hpos.2.2.1 0
      rw [← alignDown_mul, hpos.2.2.2] at hread
      exact hread
    simp only
    rw [hpage, hslice, ih _ _ hstored.healthy hpaged' (by omega), ← read_append]
    congr 1
    omega

theorem fileRead_paged {n : Inode} (hd : Healthy d) (hn : g.inode f = some n)
    (hkind : n.kind = .file) (hpaged : Paged (pageAt g d f) m) {offset : ℕ} :
    (fileRead g d f offset len).2 = .ok (read m offset (min (n.size - offset) len)) := by
  unfold fileRead
  split_ifs with hlen
  · rw [hlen, Nat.min_zero]
    rfl
  rw [hn]
  simp only [hkind, ne_eq, not_true_eq_false, if_false]
  split_ifs with hpast
  · rw [Nat.sub_eq_zero_of_le hpast, Nat.zero_min]
    rfl
  · simp only [readLoop_paged _ offset _ hd hpaged le_rfl]

theorem patchBlock_view (h : StoreInv g d) (hb : g.blocks i = some b) (hne : b.diskBlk ≠ 0)
    (intra : ℕ) (chunk : List UInt8) :
    Stored d (patchBlock g d i b intra chunk).2
      (update d.view b.diskBlk ((d.view b.diskBlk).patch intra chunk)) := by
  have hv := h.mapped.valid i b hb hne
  obtain ⟨hload, hpage⟩ := loadPage_stored h.healthy b.diskBlk
  have hv' : validBlk (loadPage d b.diskBlk).1 b.diskBlk = true := by
    rw [hload.device.validBlk, hv]
  have hwrite := blkWrite_stored hload.healthy hv' ((loadPage d b.diskBlk).2.patch intra chunk)
  rw [hload.view, hpage, if_pos hv] at hwrite
  unfold patchBlock
  simp only [hne, if_false]
  rw [hpage, if_pos hv]
  exact hload.trans hwrite

theorem patchBlock_blocks (hb : g.blocks i = some b) (intra : ℕ) (chunk : List UInt8)
    (hc : (patchBlock g d i b intra chunk).1.blocks j = some c) :
    ∃ c₀, g.blocks j = some c₀ ∧ c.fileId = c₀.fileId ∧ c.offset = c₀.offset ∧
      c.diskBlk = c₀.diskBlk := by
  by_cases hj : j = i
  · subst hj
    simp only [patchBlock, Graph.setBlock, update_self, some.injEq] at hc
    subst hc
    exact ⟨b, hb, rfl, rfl, rfl⟩
  · simp only [patchBlock, Graph.setBlock, update_of_ne hj] at hc
    exact ⟨c, hc, rfl, rfl, rfl⟩

theorem OnceInv.patched (h : OnceInv g d) (hb : g.blocks i = some b) (intra : ℕ)
    (chunk : List UInt8) :
    OnceInv (patchBlock g d i b intra chunk).1 (patchBlock g d i b intra chunk).2 := by
  have hstored := patchBlock_view h.store hb (h.backed i b hb) intra chunk
  refine ⟨(patchBlock_kept h.store hb intra chunk).inv, ?_, ?_, ?_, ?_⟩
  · rw [hstored.device.totalBlocks]
    exact h.up
  · intro j c hc
    obtain ⟨c₀, hc₀, -, -, hdisk⟩ := patchBlock_blocks hb intra chunk hc
    rw [hdisk]
    exact h.backed j c₀ hc₀
  · intro j c hc
    obtain ⟨c₀, hc₀, -, hoff, -⟩ := patchBlock_blocks hb intra chunk hc
    rw [hoff]
    exact h.aligned j c₀ hc₀
  · intro j k c e hc he hfile hoff
    obtain ⟨c₀, hc₀, hcfile, hcoff, -⟩ := patchBlock_blocks hb intra chunk hc
    obtain ⟨e₀, he₀, hefile, heoff, -⟩ := patchBlock_blocks hb intra chunk he
    exact h.once j k c₀ e₀ hc₀ he₀ (by rw [← hcfile, ← hefile, hfile]) (by rw [← hcoff, ← heoff, hoff])

theorem SparseInv.patched (h : SparseInv g d) (hb : g.blocks i = some b) (intra : ℕ)
    (chunk : List UInt8) :
    SparseInv (patchBlock g d i b intra chunk).1 (patchBlock g d i b intra chunk).2 := by
  have hstored := patchBlock_view h.store hb (h.backed i b hb) intra chunk
  refine (h.onceInv.patched hb intra chunk).sparseInv ?_
  intro blk hv hclear
  rw [hstored.device.validBlk] at hv
  rw [hstored.bitmap] at hclear
  have hne : blk ≠ b.diskBlk := by
    rintro rfl
    rw [h.store.mapped.taken i b hb (h.backed i b hb)] at hclear
    cases hclear
  rw [hstored.view, update_of_ne hne]
  exact h.zero blk hv hclear

theorem mapped_or_not (g : Graph) (f : ℤ) (off : ℕ) :
    (∃ i b, g.blocks i = some b ∧ b.fileId = f ∧ b.offset = off) ∨
      ∀ i b, g.blocks i = some b → b.fileId = f → b.offset ≠ off := by
  by_cases h : ∃ i b, g.blocks i = some b ∧ b.fileId = f ∧ b.offset = off
  · exact .inl h
  · exact .inr fun i b hb hfile hoff => h ⟨i, b, hb, hfile, hoff⟩

theorem OnceInv.pageAt_patched (h : OnceInv g d) (hb : g.blocks i = some b) (intra : ℕ)
    (chunk : List UInt8) (off : ℕ) :
    pageAt (patchBlock g d i b intra chunk).1 (patchBlock g d i b intra chunk).2 b.fileId off =
      if off = b.offset then (pageAt g d b.fileId off).patch intra chunk
      else pageAt g d b.fileId off := by
  have h' := h.patched hb intra chunk
  have hstored := patchBlock_view h.store hb (h.backed i b hb) intra chunk
  have hself : (patchBlock g d i b intra chunk).1.blocks i =
      some { b with length := max b.length (intra + chunk.length) } := update_self ..
  split_ifs with hoff
  · subst hoff
    have hpage := h'.pageAt_mapped hself
    rw [hpage, h.pageAt_mapped hb, hstored.view, update_self]
  · rcases mapped_or_not g b.fileId off with ⟨j, c, hc, hfile, rfl⟩ | hnone
    · have hj : j ≠ i := by
        rintro rfl
        rw [hb] at hc
        exact hoff (some.inj hc ▸ rfl)
      have hc' : (patchBlock g d i b intra chunk).1.blocks j = some c :=
        (update_of_ne hj ..).trans hc
      have hdisk : c.diskBlk ≠ b.diskBlk := fun heq =>
        hj (h.store.mapped.distinct j i c b hc hb (h.backed j c hc) heq)
      rw [← hfile, h'.pageAt_mapped hc', h.pageAt_mapped hc, hstored.view, update_of_ne hdisk]
    · rw [pageAt_unmapped hnone]
      apply pageAt_unmapped
      intro j c hc hfile
      obtain ⟨c₀, hc₀, hcfile, hcoff, -⟩ := patchBlock_blocks hb intra chunk hc
      rw [hcoff]
      exact hnone j c₀ hc₀ (hcfile ▸ hfile)

theorem claimedAt_blocks (hc : (claimedAt g i f off diskBlk).blocks j = some c) :
    j = i ∧ c = ⟨f, off, 0, diskBlk⟩ ∨ j ≠ i ∧ g.blocks j = some c := by
  by_cases hj : j = i
  · subst hj
    simp only [claimedAt, Graph.setBlock, update_self, some.injEq] at hc
    exact .inl ⟨rfl, hc.symm⟩
  · simp only [claimedAt, Graph.setBlock, update_of_ne hj] at hc
    exact .inr ⟨hj, hc⟩

theorem OnceInv.claimed (h : OnceInv g d) (hi : g.blocks i = none) (hdisk : Backed d d' diskBlk)
    (haligned : ∃ q, off = q * blockSize)
    (hnone : ∀ j b, g.blocks j = some b → b.fileId = f → b.offset ≠ off) :
    OnceInv (claimedAt g i f off diskBlk) d' ∧
      ∀ o, o ≠ off → pageAt (claimedAt g i f off diskBlk) d' f o = pageAt g d f o := by
  obtain ⟨-, hne, halloc⟩ := hdisk.resolve_left fun hdown => h.up hdown.1
  have htaken := blkAlloc_taken h.store.healthy halloc hne
  have hinv : OnceInv (claimedAt g i f off diskBlk) d' := by
    refine ⟨(claimed_kept h.store hi hdisk f off).inv, ?_, ?_, ?_, ?_⟩
    · rw [htaken.device.totalBlocks]
      exact h.up
    · intro j c hc
      rcases claimedAt_blocks hc with ⟨-, rfl⟩ | ⟨-, hc⟩
      · exact hne
      · exact h.backed j c hc
    · intro j c hc
      rcases claimedAt_blocks hc with ⟨-, rfl⟩ | ⟨-, hc⟩
      · exact haligned
      · exact h.aligned j c hc
    · intro j k c e hc he hfile hoff
      rcases claimedAt_blocks hc with ⟨hj, rfl⟩ | ⟨-, hc⟩ <;>
        rcases claimedAt_blocks he with ⟨hk, rfl⟩ | ⟨-, he⟩
      · rw [hj, hk]
      · exact absurd hoff.symm (hnone k e he hfile.symm)
      · exact absurd hoff (hnone j c hc hfile)
      · exact h.once j k c e hc he hfile hoff
  refine ⟨hinv, fun o ho => ?_⟩
  rcases mapped_or_not g f o with ⟨j, c, hc, rfl, rfl⟩ | hunmapped
  · have hj : j ≠ i := by
      rintro rfl
      rw [hi] at hc
      cases hc
    have hc' : (claimedAt g i c.fileId off diskBlk).blocks j = some c :=
      (update_of_ne hj ..).trans hc
    rw [hinv.pageAt_mapped hc', h.pageAt_mapped hc, htaken.view]
  · rw [pageAt_unmapped hunmapped]
    apply pageAt_unmapped
    intro j c hc hfile
    rcases claimedAt_blocks hc with ⟨-, rfl⟩ | ⟨-, hc⟩
    · exact fun heq => ho heq.symm
    · exact hunmapped j c hc hfile

theorem SparseInv.claimed (h : SparseInv g d) (hi : g.blocks i = none) (hdisk : Backed d d' diskBlk)
    (haligned : ∃ q, off = q * blockSize)
    (hnone : ∀ j b, g.blocks j = some b → b.fileId = f → b.offset ≠ off) :
    SparseInv (claimedAt g i f off diskBlk) d' ∧
      ∀ o, pageAt (claimedAt g i f off diskBlk) d' f o = pageAt g d f o := by
  obtain ⟨-, hne, halloc⟩ := hdisk.resolve_left fun hdown => h.up hdown.1
  have htaken := blkAlloc_taken h.store.healthy halloc hne
  obtain ⟨hinv, hpages⟩ := h.onceInv.claimed hi hdisk haligned hnone
  refine ⟨hinv.sparseInv ?_, fun o => ?_⟩
  · intro blk hv hclear
    rw [htaken.device.validBlk] at hv
    rw [htaken.bitmap] at hclear
    rw [htaken.view]
    apply h.zero blk hv
    by_cases hbit : blk.toNat - 1 = diskBlk.toNat - 1
    · rw [hbit, update_self] at hclear
      cases hclear
    · rwa [update_of_ne hbit] at hclear
  · by_cases ho : o = off
    · -- the block just taken was free, and so zero
      subst ho
      have hself : (claimedAt g i f o diskBlk).blocks i = some ⟨f, o, 0, diskBlk⟩ := update_self ..
      have hpage := hinv.pageAt_mapped hself
      rw [pageAt_unmapped hnone, ← h.zero diskBlk htaken.valid htaken.clear, ← htaken.view]
      exact hpage
    · exact hpages o ho

def Ahead (g : Graph) (f : ℤ) (origSize off : ℕ) : Prop :=
  ∀ i b, g.blocks i = some b → b.fileId = f → b.offset < origSize ∨ b.offset < off

theorem Ahead.unmapped {origSize : ℕ} (h : Ahead g f origSize off)
    (hmiss : origSize ≤ off ∨ findBlock g f off = none) :
    ∀ j b, g.blocks j = some b → b.fileId = f → b.offset ≠ off := by
  intro j c hc hfile hoff
  rcases hmiss with hsize | hnone
  · have := h j c hc hfile
    omega
  · exact findBlock_none hnone hc hfile hoff

theorem Target.once {origSize : ℕ} (ht : Target f origSize (q * blockSize) g d g₁ d₁ i b)
    (h : OnceInv g d) (hahead : Ahead g f origSize (q * blockSize)) :
    OnceInv g₁ d₁ ∧ (∀ o, o ≠ q * blockSize → pageAt g₁ d₁ f o = pageAt g d f o) ∧ b.fileId = f ∧
      b.offset = q * blockSize := by
  cases ht with
  | found _ _ _ _ _ hfile hoff => exact ⟨h, fun _ _ => rfl, hfile, hoff⟩
  | fresh _ _ diskBlk hmiss hi hdisk =>
    obtain ⟨hinv, hpages⟩ := h.claimed hi hdisk ⟨q, rfl⟩ (hahead.unmapped hmiss)
    exact ⟨hinv, hpages, rfl, rfl⟩

theorem Target.sparse {origSize : ℕ} (ht : Target f origSize (q * blockSize) g d g₁ d₁ i b)
    (h : SparseInv g d) (hahead : Ahead g f origSize (q * blockSize)) :
    SparseInv g₁ d₁ ∧ (∀ o, pageAt g₁ d₁ f o = pageAt g d f o) ∧ b.fileId = f ∧
      b.offset = q * blockSize := by
  cases ht with
  | found _ _ _ _ _ hfile hoff => exact ⟨h, fun _ => rfl, hfile, hoff⟩
  | fresh _ _ diskBlk hmiss hi hdisk =>
    obtain ⟨hinv, hpages⟩ := h.claimed hi hdisk ⟨q, rfl⟩ (hahead.unmapped hmiss)
    exact ⟨hinv, hpages, rfl, rfl⟩

theorem OnceInv.paged_patched (h : OnceInv g d) (hb : g.blocks i = some b) {pos : ℕ}
    (hoff : b.offset = alignDown pos) (hpaged : Paged (pageAt g d b.fileId) m)
    (hchunk : chunk.length ≤ blockRest pos) :
    Paged (pageAt (patchBlock g d i b (pos - alignDown pos) chunk).1
      (patchBlock g d i b (pos - alignDown pos) chunk).2 b.fileId) (write m pos chunk) := by
  have hpos : pos / blockSize * blockSize + (pos - alignDown pos) = pos := by
    unfold alignDown blockSize
    omega
  have hfit : pos - alignDown pos + chunk.length ≤ blockSize := by
    unfold blockRest alignDown blockSize at *
    omega
  have hover : write m pos chunk =
      write m (pos / blockSize * blockSize + (pos - alignDown pos)) chunk := by rw [hpos]
  rw [hover]
  refine hpaged.patched hfit ?_ ?_
  · have hpage := h.pageAt_patched hb (pos - alignDown pos) chunk (alignDown pos)
    rw [if_pos hoff.symm] at hpage
    exact hpage
  · intro q' hq'
    have hne : q' * blockSize ≠ b.offset := by
      rw [hoff]
      exact fun heq => hq' (Nat.eq_of_mul_eq_mul_right (by decide) heq)
    rw [h.pageAt_patched hb, if_neg hne]

theorem Target.paged
    (ht : Target f origSize (alignDown pos) g d g₁ d₁ i b) (hb : g₁.blocks i = some b)
    (h : SparseInv g d) (hahead : Ahead g f origSize (alignDown pos))
    (hpaged : Paged (pageAt g d f) m) (hchunk : chunk.length ≤ blockRest pos) :
    SparseInv (patchBlock g₁ d₁ i b (pos - alignDown pos) chunk).1
        (patchBlock g₁ d₁ i b (pos - alignDown pos) chunk).2 ∧
      Paged (pageAt (patchBlock g₁ d₁ i b (pos - alignDown pos) chunk).1
        (patchBlock g₁ d₁ i b (pos - alignDown pos) chunk).2 f) (write m pos chunk) := by
  obtain ⟨h₁, hpages, rfl, hoff⟩ := ht.sparse h hahead
  refine ⟨h₁.patched hb _ chunk, h₁.onceInv.paged_patched hb hoff ?_ hchunk⟩
  intro q k
  rw [hpages]
  exact hpaged q k

theorem Target.paged_below
    (ht : Target f origSize (alignDown pos) g d g₁ d₁ i b) (hb : g₁.blocks i = some b)
    (h : OnceInv g d) (hahead : Ahead g f origSize (alignDown pos))
    (hpaged : Paged (pageAt g d f) m) (hchunk : chunk.length ≤ blockRest pos) :
    ∃ m', (∀ a, a < alignDown pos → m' a = m a) ∧
      Paged (pageAt (patchBlock g₁ d₁ i b (pos - alignDown pos) chunk).1
        (patchBlock g₁ d₁ i b (pos - alignDown pos) chunk).2 f) (write m' pos chunk) := by
  obtain ⟨h₁, hpages, rfl, hoff⟩ := ht.once h hahead
  have hother : ∀ q', q' ≠ pos / blockSize →
      pageAt g₁ d₁ b.fileId (q' * blockSize) = pageAt g d b.fileId (q' * blockSize) :=
    fun q' hq' => hpages _ fun heq => hq' (Nat.eq_of_mul_eq_mul_right (by decide) heq)
  obtain ⟨m', hbelow, hpaged'⟩ := hpaged.replaced hother
  exact ⟨m', hbelow, h₁.paged_patched hb hoff hpaged' hchunk⟩

def freeSlots (g : Graph) : ℕ := (Finset.univ.filter fun i => (g.blocks i).isNone).card

def freeBlocks (d : Blkdev) : ℕ :=
  ((Finset.range d.totalBlocks).filter fun k => d.bitmap k = false).card

def avail (g : Graph) (d : Blkdev) : ℕ := min (freeSlots g) (freeBlocks d)

def touched (pos len : ℕ) : List ℕ :=
  if len = 0 then []
  else (List.range' (pos / blockSize) ((pos + len - 1) / blockSize - pos / blockSize + 1)).map
    (· * blockSize)

def missing (g : Graph) (f : ℤ) (size pos len : ℕ) : List ℕ :=
  (touched pos len).filter fun o => decide (size ≤ o) || (findBlock g f o).isNone

def stopsAt (g : Graph) (d : Blkdev) (f : ℤ) (size pos len : ℕ) : Option ℕ :=
  (missing g f size pos len)[avail g d]?

theorem touched_cons {pos : ℕ} (hlen : 0 < len) : touched pos len = alignDown pos ::
      touched (pos + min (blockRest pos) len) (len - blockRest pos) := by
  rw [touched, if_neg hlen.ne', range'_succ, map_cons, touched]
  congr 1
  rcases le_or_gt len (blockRest pos) with hle | hlt
  · have hlast : (pos + len - 1) / blockSize - pos / blockSize = 0 := by
      unfold blockRest alignDown blockSize at *
      omega
    rw [hlast, Nat.sub_eq_zero_of_le hle]
    rfl
  · have hnext : (pos + min (blockRest pos) len) / blockSize = pos / blockSize + 1 := by
      unfold blockRest alignDown blockSize at *
      omega
    have hcount : (pos + min (blockRest pos) len + (len - blockRest pos) - 1) / blockSize -
        (pos / blockSize + 1) + 1 = (pos + len - 1) / blockSize - pos / blockSize := by
      unfold blockRest alignDown blockSize at *
      omega
    rw [if_neg (Nat.sub_ne_zero_of_lt hlt), hnext, hcount]

theorem mem_touched_rest {pos : ℕ}
    (h : o ∈ touched (pos + min (blockRest pos) len) (len - blockRest pos)) :
    pos + min (blockRest pos) len ≤ o ∧ alignDown pos < o := by
  unfold touched at h
  split_ifs at h with hlen
  · cases h
  obtain ⟨k, hk, rfl⟩ := mem_map.mp h
  obtain ⟨hle, -⟩ := mem_range'_1.mp hk
  unfold blockRest alignDown blockSize at *
  omega

variable {f : ℤ}

theorem missing_cons {size : ℕ} {pos : ℕ} (hlen : 0 < len) : missing g f size pos len =
      (if size ≤ alignDown pos ∨ findBlock g f (alignDown pos) = none then [alignDown pos] else []) ++
        missing g f size (pos + min (blockRest pos) len) (len - blockRest pos) := by
  rw [missing, touched_cons hlen, filter_cons, missing]
  simp only [Bool.or_eq_true, decide_eq_true_eq, isNone_iff_eq_none]
  split_ifs <;> rfl

theorem findBlock_isNone_iff :
    findBlock g f o = none ↔ ∀ i b, g.blocks i = some b → b.fileId = f → b.offset ≠ o := by
  constructor
  · exact fun hnone i b hb hfile => findBlock_none hnone hb hfile
  · intro hall
    by_contra hsome
    obtain ⟨i, hi⟩ := ne_none_iff_exists'.mp hsome
    obtain ⟨b, hb, hfile, hoff⟩ := findBlock_some hi
    exact hall i b hb hfile hoff

variable {intra : ℕ}

theorem findBlock_patchBlock (hb : g.blocks i = some b) :
    findBlock (patchBlock g d i b intra chunk).1 f o = none ↔ findBlock g f o = none := by
  rw [findBlock_isNone_iff, findBlock_isNone_iff]
  constructor
  · intro hall j c hc hfile
    by_cases hj : j = i
    · subst hj
      obtain rfl := some.inj (hb.symm.trans hc)
      exact hall j { b with length := max b.length (intra + chunk.length) }
        (update_self ..) hfile
    · exact hall j c ((update_of_ne hj ..).trans hc) hfile
  · intro hall j c hc hfile
    obtain ⟨c₀, hc₀, hcfile, hcoff, -⟩ := patchBlock_blocks hb intra chunk hc
    rw [hcoff]
    exact hall j c₀ hc₀ (hcfile ▸ hfile)

theorem findBlock_claimedAt (hi : g.blocks i = none) (ho : o ≠ off) :
    findBlock (claimedAt g i f off diskBlk) f o = none ↔ findBlock g f o = none := by
  rw [findBlock_isNone_iff, findBlock_isNone_iff]
  constructor
  · intro hall j c hc hfile
    have hj : j ≠ i := by
      rintro rfl
      rw [hi] at hc
      cases hc
    exact hall j c ((update_of_ne hj ..).trans hc) hfile
  · intro hall j c hc hfile
    rcases claimedAt_blocks hc with ⟨-, rfl⟩ | ⟨-, hc⟩
    · exact fun heq => ho heq.symm
    · exact hall j c hc hfile

theorem missing_congr {size pos : ℕ}
    (h : ∀ o ∈ touched pos len, findBlock g' f o = none ↔ findBlock g f o = none) :
    missing g' f size pos len = missing g f size pos len := by
  apply filter_congr
  intro o ho
  have hiff := h o ho
  rw [← isNone_iff_eq_none, ← isNone_iff_eq_none, Bool.coe_iff_coe] at hiff
  rw [hiff]

theorem freeSlots_patchBlock (hb : g.blocks i = some b) :
    freeSlots (patchBlock g d i b intra chunk).1 = freeSlots g := by
  have hset : (Finset.univ.filter fun j => ((patchBlock g d i b intra chunk).1.blocks j).isNone) =
      Finset.univ.filter fun j => (g.blocks j).isNone := by
    apply Finset.filter_congr
    intro j _
    by_cases hj : j = i
    · subst hj
      simp [patchBlock, Graph.setBlock, hb]
    · simp [patchBlock, Graph.setBlock, hj]
  rw [freeSlots, hset, freeSlots]

theorem freeSlots_claimedAt (hi : g.blocks i = none) (f : ℤ) (off : ℕ) (diskBlk : ℤ) :
    freeSlots g = freeSlots (claimedAt g i f off diskBlk) + 1 := by
  have hset : (Finset.univ.filter fun j => (g.blocks j).isNone) =
      insert i (Finset.univ.filter fun j => ((claimedAt g i f off diskBlk).blocks j).isNone) := by
    ext j
    by_cases hj : j = i
    · simp [hj, hi]
    · simp [claimedAt, Graph.setBlock, hj]
  rw [freeSlots, hset, Finset.card_insert_of_notMem, freeSlots]
  simp [claimedAt, Graph.setBlock]

theorem freeBlocks_taken {blk : ℤ} (h : Taken d d' blk) : freeBlocks d = freeBlocks d' + 1 := by
  obtain ⟨hpos, hle⟩ := validBlk_iff.mp h.valid
  have hset : ((Finset.range d.totalBlocks).filter fun k => d.bitmap k = false) =
      insert (blk.toNat - 1) ((Finset.range d'.totalBlocks).filter fun k => d'.bitmap k = false) := by
    ext k
    rw [h.device.totalBlocks, h.bitmap]
    by_cases hk : k = blk.toNat - 1
    · subst hk
      simp [h.clear]
      omega
    · simp [hk]
  rw [freeBlocks, hset, Finset.card_insert_of_notMem, freeBlocks]
  simp [h.bitmap]

theorem Target.stopsAt
    (ht : Target f origSize (alignDown pos) g d g₁ d₁ i b) (hb : g₁.blocks i = some b)
    (h : OnceInv g d) (hahead : Ahead g f origSize (alignDown pos)) (hlen : 0 < len)
    (chunk : List UInt8) :
    stopsAt (patchBlock g₁ d₁ i b (pos - alignDown pos) chunk).1
        (patchBlock g₁ d₁ i b (pos - alignDown pos) chunk).2 f origSize
        (pos + min (blockRest pos) len) (len - blockRest pos) =
      stopsAt g d f origSize pos len := by
  have h₁ := (ht.once h hahead).1
  have hstored := patchBlock_view h₁.store hb (h₁.backed i b hb) (pos - alignDown pos) chunk
  have hblocks : freeBlocks (patchBlock g₁ d₁ i b (pos - alignDown pos) chunk).2 = freeBlocks d₁ := by
    rw [freeBlocks, hstored.device.totalBlocks, hstored.bitmap, freeBlocks]
  have hmissing : ∀ {g' : Graph},
      (∀ o, o ≠ alignDown pos → (findBlock g₁ f o = none ↔ findBlock g' f o = none)) →
      missing (patchBlock g₁ d₁ i b (pos - alignDown pos) chunk).1 f origSize
        (pos + min (blockRest pos) len) (len - blockRest pos) =
      missing g' f origSize (pos + min (blockRest pos) len) (len - blockRest pos) := by
    intro g' hsame
    apply missing_congr
    intro o ho
    rw [findBlock_patchBlock hb]
    exact hsame o (mem_touched_rest ho).2.ne'
  unfold Sotfs.stopsAt avail
  rw [freeSlots_patchBlock hb, hblocks, missing_cons hlen]
  cases ht with
  | found _ _ hsize hfind _ _ _ =>
    have hmapped : ¬(origSize ≤ alignDown pos ∨ findBlock g f (alignDown pos) = none) := by
      rw [hfind]
      simpa using hsize
    rw [if_neg hmapped, nil_append, hmissing fun _ _ => Iff.rfl]
  | fresh _ _ diskBlk hmiss hi hdisk =>
    obtain ⟨-, hne, halloc⟩ := hdisk.resolve_left fun hdown => h.up hdown.1
    have hslots := freeSlots_claimedAt hi f (alignDown pos) diskBlk
    have hdisks := freeBlocks_taken (blkAlloc_taken h.store.healthy halloc hne)
    rw [if_pos hmiss, hslots, hdisks, Nat.add_min_add_right, singleton_append,
      getElem?_cons_succ,
      hmissing fun o ho => findBlock_claimedAt hi ho]

theorem Stuck.stopsAt (hs : Stuck f origSize (alignDown pos) g d)
    (hlen : 0 < len) : stopsAt g d f origSize pos len = some (alignDown pos) := by
  have hzero : avail g d = 0 := by
    by_contra hpos
    have hboth : 0 < freeSlots g ∧ 0 < freeBlocks d := by
      unfold avail at hpos
      omega
    obtain ⟨j, hj⟩ := Finset.card_pos.mp hboth.1
    obtain ⟨k, hk⟩ := Finset.card_pos.mp hboth.2
    have hroom : Room (0 + 1) g d := by
      refine ⟨⟨{j}, by simp, ?_⟩, .inr ⟨{k}, by simp, ?_⟩⟩
      · simpa using hj
      · simpa using hk
    exact hroom.not_full f (alignDown pos) hs.full
  rw [Sotfs.stopsAt, hzero, missing_cons hlen, if_pos hs.miss]
  rfl

def bytesIn (g : Graph) (d : Blkdev) (f : ℤ) (size pos len : ℕ) : ℕ :=
  match stopsAt g d f size pos len with
  | none => len
  | some q => q - pos

variable {size pos : ℕ}

theorem stopsAt_zero : stopsAt g d f size pos 0 = none := by
  simp [stopsAt, missing, touched]

theorem bytesIn_zero : bytesIn g d f size pos 0 = 0 := by
  rw [bytesIn, stopsAt_zero]

theorem stopsAt_mem {size pos : ℕ} (h : stopsAt g d f size pos len = some q) :
    q ∈ touched pos len :=
  (mem_filter.mp (mem_of_getElem? h)).1

theorem Target.bytesIn
    (ht : Target f origSize (alignDown pos) g d g₁ d₁ i b) (hb : g₁.blocks i = some b)
    (h : OnceInv g d) (hahead : Ahead g f origSize (alignDown pos)) (hlen : 0 < len)
    (chunk : List UInt8) :
    bytesIn g d f origSize pos len = min (blockRest pos) len +
      bytesIn (patchBlock g₁ d₁ i b (pos - alignDown pos) chunk).1
        (patchBlock g₁ d₁ i b (pos - alignDown pos) chunk).2 f origSize
        (pos + min (blockRest pos) len) (len - blockRest pos) := by
  have hstops := ht.stopsAt hb h hahead hlen chunk
  unfold Sotfs.bytesIn
  rw [← hstops]
  cases hq : Sotfs.stopsAt (patchBlock g₁ d₁ i b (pos - alignDown pos) chunk).1
      (patchBlock g₁ d₁ i b (pos - alignDown pos) chunk).2 f origSize
      (pos + min (blockRest pos) len) (len - blockRest pos) with
  | none =>
    simp only
    omega
  | some q =>
    have hle := (mem_touched_rest (stopsAt_mem hq)).1
    simp only
    omega

structure Laid (f : ℤ) (origSize pos n : ℕ) (m : ℕ → UInt8) (data : List UInt8) (g : Graph)
    (d : Blkdev) : Prop where
  inv : SparseInv g d
  paged : Paged (pageAt g d f) (write m pos (data.take n))
  ahead : Ahead g f origSize (pos + n)

theorem Target.ahead
    (ht : Target f origSize (alignDown pos) g d g₁ d₁ i b) (hb : g₁.blocks i = some b)
    (hahead : Ahead g f origSize (alignDown pos)) (intra : ℕ) (chunk : List UInt8)
    (hoff : alignDown pos < off) : Ahead (patchBlock g₁ d₁ i b intra chunk).1 f origSize off := by
  intro j c hc hfile
  obtain ⟨c₀, hc₀, hcfile, hcoff, -⟩ := patchBlock_blocks hb intra chunk hc
  rw [hcfile] at hfile
  rw [hcoff]
  cases ht with
  | found =>
    have := hahead j c₀ hc₀ hfile
    omega
  | fresh _ _ diskBlk _ _ _ =>
    rcases claimedAt_blocks hc₀ with ⟨-, rfl⟩ | ⟨-, hc₀⟩
    · exact .inr hoff
    · have := hahead j c₀ hc₀ hfile
      omega

def chunkAt (data : List UInt8) (offset k : ℕ) : List UInt8 :=
  (data.drop k).take (blockRest (offset + k))

theorem chunkAt_length (data : List UInt8) (offset k : ℕ) :
    (chunkAt data offset k).length = min (blockRest (offset + k)) (data.length - k) := by
  rw [chunkAt, length_take, length_drop]

variable {data : List UInt8} {offset : ℕ}

theorem take_chunkAt {k : ℕ} :
    data.take (k + (chunkAt data offset k).length) = data.take k ++ chunkAt data offset k := by
  rw [take_add, chunkAt, length_take, ← take_eq_take_min]

theorem drop_chunkAt {k : ℕ} :
    (data.drop k).drop (blockRest (offset + k)) = data.drop (k + (chunkAt data offset k).length) := by
  rw [chunkAt_length, ← drop_drop]
  rcases Nat.le_total (blockRest (offset + k)) (data.length - k) with hle | hge
  · rw [Nat.min_eq_left hle]
  · rw [Nat.min_eq_right hge, drop_of_length_le, drop_of_length_le] <;>
      rw [length_drop]
    exact hge

section
variable {f : ℤ} {offset origSize : ℕ} {data : List UInt8}

theorem writeLoop_induction {J : ℕ → Graph → Blkdev → Prop}
    (honce : ∀ {k g d}, J k g d → OnceInv g d)
    (hround : ∀ {k g d g₁ d₁ i b}, k < data.length →
      (k = 0 ∨ alignDown (offset + k) = offset + k) → J k g d →
      Ahead g f origSize (alignDown (offset + k)) →
      Target f origSize (alignDown (offset + k)) g d g₁ d₁ i b → g₁.blocks i = some b →
      J (k + (chunkAt data offset k).length)
        (patchBlock g₁ d₁ i b (offset + k - alignDown (offset + k)) (chunkAt data offset k)).1
        (patchBlock g₁ d₁ i b (offset + k - alignDown (offset + k)) (chunkAt data offset k)).2) :
    ∀ (fuel : ℕ) (g : Graph) (d : Blkdev) (k : ℕ), J k g d →
      (k < data.length → (k = 0 ∨ alignDown (offset + k) = offset + k) ∧
        Ahead g f origSize (alignDown (offset + k))) →
      Ahead g f origSize (offset + k) → data.length - k ≤ fuel →
      offset + k + bytesIn g d f origSize (offset + k) (data.length - k) < 2 ^ 32 →
      let out := writeLoop f offset origSize fuel g d k (data.drop k)
      let n := bytesIn g d f origSize (offset + k) (data.length - k)
      J (k + n) out.1 out.2.1 ∧ Ahead out.1 f origSize (offset + k + n) ∧
        out.2.2 = (k + n, (stopsAt g d f origSize (offset + k) (data.length - k)).isNone) := by
  intro fuel
  have hdone : ∀ {fuel g d k}, data.length - k = 0 → J k g d → Ahead g f origSize (offset + k) →
      let out := writeLoop f offset origSize fuel g d k (data.drop k)
      let n := bytesIn g d f origSize (offset + k) (data.length - k)
      J (k + n) out.1 out.2.1 ∧ Ahead out.1 f origSize (offset + k + n) ∧
        out.2.2 = (k + n, (stopsAt g d f origSize (offset + k) (data.length - k)).isNone) := by
    intro fuel g d k hzero hJ hend
    rw [drop_eq_nil_of_le (Nat.le_of_sub_eq_zero hzero), writeLoop_nil, hzero, bytesIn_zero,
      stopsAt_zero]
    exact ⟨hJ, hend, rfl⟩
  induction fuel with
  | zero => exact fun g d k hJ _ hend hfuel _ => hdone (Nat.le_zero.mp hfuel) hJ hend
  | succ fuel ih =>
    intro g d k hJ hstart hend hfuel hbound
    rcases Nat.eq_zero_or_pos (data.length - k) with hzero | hlen
    · exact hdone hzero hJ hend
    have hk : k < data.length := Nat.lt_of_sub_pos hlen
    obtain ⟨hfirst, hahead⟩ := hstart hk
    have hdrop : data.drop k ≠ [] := by
      rw [Ne, drop_eq_nil_iff]
      omega
    have hwrite : writePos offset k = offset + k := Nat.mod_eq_of_lt (by omega)
    have hcases := writeLoop_cases f offset origSize fuel g d k hdrop
    rw [hwrite] at hcases
    rcases hcases with ⟨hstuck, hstop⟩ | ⟨g₁, d₁, i, b, htarget, hb, hgo⟩
    · have hstops := hstuck.stopsAt hlen
      have hin : bytesIn g d f origSize (offset + k) (data.length - k) = 0 := by
        rw [bytesIn, hstops]
        exact Nat.sub_eq_zero_of_le (alignDown_le _)
      rw [hstop, hin, hstops]
      exact ⟨hJ, hend, rfl⟩
    · -- the chunk goes in, the rest by induction from the end of it
      have h := honce hJ
      have hin := htarget.bytesIn hb h hahead hlen (chunkAt data offset k)
      have hstops := htarget.stopsAt hb h hahead hlen (chunkAt data offset k)
      have hclen := chunkAt_length data offset k
      have hrestpos := blockRest_pos (offset + k)
      have hnext : offset + (k + (chunkAt data offset k).length) =
          offset + k + min (blockRest (offset + k)) (data.length - k) := by omega
      have hdlen : data.length - (k + (chunkAt data offset k).length) =
          data.length - k - blockRest (offset + k) := by omega
      have hstep := ih _ _ _ (hround hk hfirst hJ hahead htarget hb) ?_ ?_ ?_ ?_
      · rw [hnext, hdlen, hstops] at hstep
        rw [drop_chunkAt] at hgo
        rw [← chunkAt] at hgo
        rw [hgo, hin]
        simpa only [hclen, Nat.add_assoc] using hstep
      · intro hmore
        rw [hnext]
        refine ⟨.inr ?_, htarget.ahead hb hahead _ _ ?_⟩ <;>
        · unfold blockRest alignDown blockSize at *
          omega
      · rw [hnext]
        apply htarget.ahead hb hahead
        have := alignDown_le (offset + k)
        omega
      · omega
      · rw [hnext, hdlen]
        omega

theorem writeLoop_laid (h : SparseInv g d) (hpaged : Paged (pageAt g d f) m)
    (hahead : ∀ off, Ahead g f origSize off)
    (hbound : offset + bytesIn g d f origSize offset data.length < 2 ^ 32) :
    let out := writeLoop f offset origSize data.length g d 0 data
    let n := bytesIn g d f origSize offset data.length
    Laid f origSize offset n m data out.1 out.2.1 ∧
      out.2.2 = (n, (stopsAt g d f origSize offset data.length).isNone) := by
  have hloop := writeLoop_induction
    (J := fun k g d => SparseInv g d ∧ Paged (pageAt g d f) (write m offset (data.take k)))
    (fun hJ => hJ.1.onceInv) ?_ data.length g d 0 ⟨h, ?_⟩ (fun _ => ⟨.inl rfl, hahead _⟩)
    (hahead _) le_rfl hbound
  · simp only [Nat.add_zero, Nat.zero_add, Nat.sub_zero, drop_zero] at hloop
    exact ⟨⟨hloop.1.1, hloop.1.2, hloop.2.1⟩, hloop.2.2⟩
  · rintro k g d g₁ d₁ i b hk - ⟨hinv, hsofar⟩ hahead htarget hb
    have hfit := (chunkAt_length data offset k).trans_le (Nat.min_le_left _ _)
    have hlen : (data.take k).length = k := length_take_of_le hk.le
    have hnext := htarget.paged hb hinv hahead hsofar hfit
    rw [take_chunkAt, ← write_append, hlen]
    exact hnext
  · rwa [take_zero, write_nil]

theorem writeLoop_put (h : OnceInv g d) (hahead : ∀ off, Ahead g f origSize off)
    (hbound : offset + bytesIn g d f origSize offset data.length < 2 ^ 32) :
    let out := writeLoop f offset origSize data.length g d 0 data
    let n := bytesIn g d f origSize offset data.length
    OnceInv out.1 out.2.1 ∧ (∃ m, Paged (pageAt out.1 out.2.1 f) (write m offset (data.take n))) ∧
      Ahead out.1 f origSize (offset + n) ∧
      out.2.2 = (n, (stopsAt g d f origSize offset data.length).isNone) := by
  have hloop := writeLoop_induction
    (J := fun k g d => OnceInv g d ∧ ∃ m, Paged (pageAt g d f) (write m offset (data.take k)))
    (fun hJ => hJ.1) ?_ data.length g d 0 ⟨h, ?_⟩ (fun _ => ⟨.inl rfl, hahead _⟩) (hahead _)
    le_rfl hbound
  · simp only [Nat.add_zero, Nat.zero_add, Nat.sub_zero, drop_zero] at hloop
    exact ⟨hloop.1.1, hloop.1.2, hloop.2⟩
  · rintro k g d g₁ d₁ i b hk hfirst ⟨hinv, m, hsofar⟩ hahead htarget hb
    refine ⟨(htarget.once hinv hahead).1.patched hb _ _, ?_⟩
    have hfit := (chunkAt_length data offset k).trans_le (Nat.min_le_left _ _)
    have hlen : (data.take k).length = k := length_take_of_le hk.le
    obtain ⟨m', hbelow, hnext⟩ := htarget.paged_below hb hinv hahead hsofar hfit
    refine ⟨m', ?_⟩
    rw [take_chunkAt, ← write_append, hlen]
    -- a round after the first starts at its block, so the bytes so far are below it
    have hsame : write m' offset (data.take k) = m' := by
      rcases hfirst with rfl | haligned
      · rw [take_zero, write_nil]
      funext a
      by_cases ha : offset ≤ a ∧ a < offset + k
      · obtain ⟨j, rfl⟩ := Nat.exists_eq_add_of_le ha.1
        rw [hbelow _ (by omega), write_within (by omega), write_within (by omega)]
      · rcases Nat.lt_or_ge a offset with hlt | hge
        · exact write_below hlt
        · exact write_above _ (by omega)
    rw [hsame]
    exact hnext
  · refine ⟨spelled (by decide) (pageAt g d f), ?_⟩
    rw [take_zero, write_nil]
    exact paged_spelled _

end

end SotOs.Sotfs
