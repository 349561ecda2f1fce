import SotOs.Sotfs.Contents

/-! When a write puts down all of its bytes: the write loop goes on as long as each round finds a
mapping, and a failed first round leaves everything as it was. -/

namespace SotOs.Sotfs

open Function Slots List

def Covers : ℕ → ℕ → ℕ → ℕ → Prop
  | 0, _, _, len => len = 0
  | k + 1, offset, written, len =>
    Covers k offset (written + min (blockRest (writePos offset written)) len)
      (len - blockRest (writePos offset written))

theorem alignDown_le (off : ℕ) : alignDown off ≤ off := Nat.div_mul_le_self off blockSize

theorem blockRest_pos (pos : ℕ) : 0 < blockRest pos := by
  unfold blockRest alignDown blockSize
  omega

variable {offset len k origSize off : ℕ} {g g₁ g' : Graph} {d d₁ d' : Blkdev} {fileId : ℤ}
  {i : Fin maxBlocks} {b : Block} {buf : List UInt8}

theorem covers_two (hlen : len ≤ blockSize) : Covers 2 offset 0 len := by
  change len - blockRest (writePos offset 0) -
    blockRest (writePos offset (0 + min (blockRest (writePos offset 0)) len)) = 0
  rcases Nat.le_total len (blockRest (writePos offset 0)) with hle | hge
  · rw [Nat.sub_eq_zero_of_le hle, Nat.zero_sub]
  · rw [Nat.min_eq_left hge]
    unfold blockRest writePos alignDown blockSize at *
    omega

theorem covers_one : Covers 1 offset 0 len ↔ len ≤ blockRest (writePos offset 0) :=
  Nat.sub_eq_zero_iff_le

structure Room (k : ℕ) (g : Graph) (d : Blkdev) : Prop where
  slots : ∃ S : Finset (Fin maxBlocks), k ≤ S.card ∧ ∀ i ∈ S, g.blocks i = none
  disk : d.totalBlocks = 0 ∨
    ∃ T : Finset ℕ, k ≤ T.card ∧ ∀ a ∈ T, a < d.totalBlocks ∧ d.bitmap a = false

theorem Room.not_full (h : Room (k + 1) g d) (fileId : ℤ) (off : ℕ) :
    (allocBlock g d fileId off).2.2 ≠ none := by
  obtain ⟨S, hcard, hS⟩ := h.slots
  obtain ⟨j, hj⟩ := Finset.card_pos.mp (Nat.zero_lt_of_lt hcard)
  unfold allocBlock
  rcases hi : firstFrom g.nextBlockHint fun i => (g.blocks i).isNone with _ | i
  · have := firstFrom_none hi j
    simp [hS j hj] at this
  simp only
  split_ifs with htotal hzero
  · simp
  · -- a clear bit is one that an allocation finds
    obtain ⟨T, hcardT, hT⟩ := h.disk.resolve_left htotal
    obtain ⟨a, ha⟩ := Finset.card_pos.mp (Nat.zero_lt_of_lt hcardT)
    obtain ⟨hlt, hclear⟩ := hT a ha
    obtain ⟨k, hk⟩ := first_isSome (p := fun i : Fin d.totalBlocks => !d.bitmap i)
      (j := ⟨a, hlt⟩) (by simp [hclear])
    unfold blkAlloc at hzero
    simp [hk, toId_pos.ne'] at hzero
  · simp

theorem Target.room (h : Target fileId origSize off g d g₁ d₁ i b) (hinv : StoreInv g d)
    (hroom : Room (k + 1) g d) : Room k g₁ d₁ := by
  obtain ⟨S, hcard, hS⟩ := hroom.slots
  cases h with
  | found _ _ _ _ _ _ _ =>
    refine ⟨⟨S, by omega, hS⟩, hroom.disk.imp_right ?_⟩
    rintro ⟨T, hcardT, hT⟩
    exact ⟨T, by omega, hT⟩
  | fresh _ _ diskBlk _ _ hdisk =>
    refine ⟨⟨S.erase i, ?_, ?_⟩, ?_⟩
    · have := S.pred_card_le_card_erase (a := i)
      omega
    · intro j hj
      obtain ⟨hne, hmem⟩ := Finset.mem_erase.mp hj
      exact (update_of_ne hne _ _).trans (hS j hmem)
    · rcases hdisk with ⟨htotal, -, rfl⟩ | ⟨htotal, hne, halloc⟩
      · exact .inl htotal
      have htaken := blkAlloc_taken hinv.healthy halloc hne
      obtain ⟨T, hcardT, hT⟩ := hroom.disk.resolve_left htotal
      refine .inr ⟨T.erase (diskBlk.toNat - 1), ?_, ?_⟩
      · have := T.pred_card_le_card_erase (a := diskBlk.toNat - 1)
        omega
      · intro a ha
        obtain ⟨hne', hmem⟩ := Finset.mem_erase.mp ha
        rw [htaken.device.totalBlocks, htaken.bitmap, update_of_ne hne']
        exact hT a hmem

theorem Target.inv (h : Target fileId origSize off g d g₁ d₁ i b) (hinv : StoreInv g d) :
    StoreInv g₁ d₁ := by
  cases h with
  | found _ _ _ _ _ _ _ => exact hinv
  | fresh _ _ diskBlk _ hi hdisk => exact (claimed_kept hinv hi hdisk fileId off).inv

theorem Room.patched (h : Room k g d) (hinv : StoreInv g d) (hb : g.blocks i = some b) (intra : ℕ)
    (chunk : List UInt8) :
    Room k (patchBlock g d i b intra chunk).1 (patchBlock g d i b intra chunk).2 := by
  obtain ⟨v, hstored, -⟩ := patchBlock_device hinv hb intra chunk
  obtain ⟨S, hcard, hS⟩ := h.slots
  refine ⟨⟨S, hcard, fun j hj => ?_⟩, ?_⟩
  · have hne : j ≠ i := by
      rintro rfl
      rw [hS j hj] at hb
      cases hb
    exact (update_of_ne hne _ _).trans (hS j hj)
  · rw [hstored.device.totalBlocks, hstored.bitmap]
    exact h.disk

theorem writeLoop_nil (fileId : ℤ) (offset origSize fuel : ℕ) (g : Graph) (d : Blkdev) (written : ℕ) :
    writeLoop fileId offset origSize fuel g d written [] = (g, d, written, true) := by
  cases fuel with
  | zero => rfl
  | succ fuel => rw [writeLoop, if_pos rfl]

theorem writeLoop_whole (fileId : ℤ) (offset origSize k : ℕ) :
    ∀ (fuel : ℕ) (g : Graph) (d : Blkdev) (written : ℕ) (rest : List UInt8), StoreInv g d →
      Room k g d → Covers k offset written rest.length → rest.length ≤ fuel →
      (writeLoop fileId offset origSize fuel g d written rest).2.2 =
        (written + rest.length, true) := by
  induction k with
  | zero =>
    intro fuel g d written rest _ _ hcovers _
    rw [length_eq_zero_iff.mp hcovers, writeLoop_nil]
    rfl
  | succ k ih =>
    intro fuel g d written rest hinv hroom hcovers hfuel
    by_cases hrest : rest = []
    · rw [hrest, writeLoop_nil]
      rfl
    have hpos := length_pos_of_ne_nil hrest
    obtain ⟨fuel, rfl⟩ := Nat.exists_eq_add_of_lt (hpos.trans_le hfuel)
    rw [Nat.zero_add]
    rcases writeLoop_cases fileId offset origSize fuel g d written hrest with
      ⟨hstuck, -⟩ | ⟨g₁, d₁, i, b, htarget, hb, hgo⟩
    · exact absurd hstuck.full (hroom.not_full fileId _)
    · have hinv₁ := htarget.inv hinv
      have hnext := (patchBlock_kept hinv₁ hb
        (writePos offset written - alignDown (writePos offset written))
        (rest.take (blockRest (writePos offset written)))).inv
      have hroom₁ := (htarget.room hinv hroom).patched hinv₁ hb
        (writePos offset written - alignDown (writePos offset written))
        (rest.take (blockRest (writePos offset written)))
      have hrestpos := blockRest_pos (writePos offset written)
      rw [hgo, ih fuel _ _ _ _ hnext hroom₁ ?_ ?_]
      · rw [length_take, length_drop]
        simp only [Prod.mk.injEq, and_true]
        omega
      · rw [length_take, length_drop]
        exact hcovers
      · rw [length_drop]
        omega

theorem writeLoop_written_mem (fileId : ℤ) (offset origSize fuel : ℕ) :
    ∀ (g : Graph) (d : Blkdev) (written : ℕ) (rest : List UInt8),
      written ≤ (writeLoop fileId offset origSize fuel g d written rest).2.2.1 ∧
        (writeLoop fileId offset origSize fuel g d written rest).2.2.1 ≤ written + rest.length := by
  induction fuel with
  | zero =>
    intro g d written rest
    exact ⟨le_rfl, Nat.le_add_right ..⟩
  | succ fuel ih =>
    intro g d written rest
    by_cases hrest : rest = []
    · rw [hrest, writeLoop_nil]
      exact ⟨le_rfl, Nat.le_add_right ..⟩
    rcases writeLoop_cases fileId offset origSize fuel g d written hrest with
      ⟨-, hstop⟩ | ⟨g₁, d₁, i, b, -, -, hgo⟩
    · rw [hstop]
      exact ⟨le_rfl, Nat.le_add_right ..⟩
    · rw [hgo]
      refine ⟨(Nat.le_add_right _ _).trans (ih ..).1, (ih ..).2.trans ?_⟩
      rw [length_take, length_drop]
      omega

theorem fileWrite_error {id : ℤ} {e : Err} (h : fileWrite g d id off buf = (g', d', .error e)) :
    g' = g ∧ d' = d := by
  unfold fileWrite at h
  split_ifs at h with hbuf
  · cases h
  rcases hn : g.inode id with _ | n
  · rw [hn] at h
    cases h
    exact ⟨rfl, rfl⟩
  simp only [hn] at h
  split_ifs at h with hkind
  · cases h
    exact ⟨rfl, rfl⟩
  obtain ⟨fuel, hfuel⟩ := Nat.exists_eq_succ_of_ne_zero
    (Nat.pos_iff_ne_zero.mp (length_pos_of_ne_nil hbuf))
  rw [hfuel] at h
  rcases writeLoop_cases id off n.size fuel g d 0 hbuf with
    ⟨-, hstop⟩ | ⟨g₁, d₁, i, b, -, -, hgo⟩
  · rw [hstop] at h
    cases h
    exact ⟨rfl, rfl⟩
  · -- the first round wrote at least one byte
    have hle := (writeLoop_written_mem id off n.size (fuel + 1) g d 0 buf).1
    have hpos : 0 < (writeLoop id off n.size (fuel + 1) g d 0 buf).2.2.1 := by
      rw [hgo]
      refine lt_of_lt_of_le ?_ (writeLoop_written_mem ..).1
      have := length_pos_of_ne_nil hbuf
      have := blockRest_pos (writePos off 0)
      rw [length_take]
      omega
    generalize writeLoop id off n.size (fuel + 1) g d 0 buf = out at h hpos
    obtain ⟨g₂, d₂, written, whole⟩ := out
    cases whole with
    | false =>
      simp only [if_pos hpos] at h
      cases h
    | true => cases h

def WriteFits (g : Graph) (d : Blkdev) (off len : ℕ) : Prop := Covers 1 off 0 len ∨ Room 2 g d

theorem fileWrite_ok (hinv : StoreInv g d) {id : ℤ} {n : ℕ} (hlen : buf.length ≤ blockSize)
    (hfits : WriteFits g d off buf.length) (h : fileWrite g d id off buf = (g', d', .ok n)) :
    n = buf.length := by
  unfold fileWrite at h
  split_ifs at h with hbuf
  · cases h
    rw [hbuf]
    rfl
  rcases hn : g.inode id with _ | m
  · rw [hn] at h
    cases h
  simp only [hn] at h
  split_ifs at h with hkind
  · cases h
  have hwhole : (writeLoop id off m.size buf.length g d 0 buf).2.2 = (0 + buf.length, true) ∨
      (writeLoop id off m.size buf.length g d 0 buf).2.2 = (0, false) := by
    rcases hfits with hone | hroom
    · have hpos := length_pos_of_ne_nil hbuf
      obtain ⟨fuel, hfuel⟩ := Nat.exists_eq_succ_of_ne_zero (Nat.pos_iff_ne_zero.mp hpos)
      have hle := covers_one.mp hone
      rcases writeLoop_cases id off m.size fuel g d 0 hbuf with
        ⟨-, hstop⟩ | ⟨g₁, d₁, i, b, -, -, hgo⟩
      · rw [hfuel, hstop]
        exact .inr rfl
      · rw [hfuel, hgo, drop_eq_nil_of_le hle, take_of_length_le hle, writeLoop_nil,
          ← hfuel]
        exact .inl rfl
    · exact .inl (writeLoop_whole id off m.size 2 _ g d 0 buf hinv hroom (covers_two hlen) le_rfl)
  generalize writeLoop id off m.size buf.length g d 0 buf = out at h hwhole
  obtain ⟨g₂, d₂, written, whole⟩ := out
  rcases hwhole with hout | hout
  · obtain ⟨rfl, rfl⟩ := Prod.mk.inj hout
    cases h
    exact Nat.zero_add _
  · obtain ⟨rfl, rfl⟩ := Prod.mk.inj hout
    cases h

theorem fileWrite_succeeds (hinv : StoreInv g d) {id : ℤ}
    (hlive : ∃ n, g.inode id = some n ∧ n.kind = .file) (hcovers : Covers k off 0 buf.length)
    (hroom : buf ≠ [] → Room k g d) :
    ∃ g' d', fileWrite g d id off buf = (g', d', .ok buf.length) := by
  obtain ⟨n, hn, hkind⟩ := hlive
  by_cases hbuf : buf = []
  · rw [hbuf]
    exact ⟨g, d, by rw [fileWrite, if_pos rfl]; rfl⟩
  have hwhole := writeLoop_whole id off n.size k buf.length g d 0 buf hinv (hroom hbuf) hcovers le_rfl
  rw [fileWrite, if_neg hbuf, hn]
  simp only [hkind, ne_eq, not_true_eq_false, if_false]
  generalize writeLoop id off n.size buf.length g d 0 buf = out at hwhole
  obtain ⟨g₂, d₂, written, whole⟩ := out
  obtain ⟨rfl, rfl⟩ := Prod.mk.inj hwhole
  exact ⟨_, _, by rw [Nat.zero_add]⟩

end SotOs.Sotfs
