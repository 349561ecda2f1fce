import SotOs.Sotfs.Io
import SotOs.Sotfs.RewriteSpec

/-! What a write does to the block table and the store, round by round. -/

namespace SotOs.Sotfs

open Function Slots Option

def claimedAt (g : Graph) (i : Fin maxBlocks) (fileId : ℤ) (offset : ℕ) (diskBlk : ℤ) : Graph :=
  { g.setBlock i (some ⟨fileId, offset, 0, diskBlk⟩) with nextBlockHint := (i.val + 1) % maxBlocks }

def Backed (d d' : Blkdev) (diskBlk : ℤ) : Prop := d.totalBlocks = 0 ∧ diskBlk = 0 ∧ d' = d ∨
    d.totalBlocks ≠ 0 ∧ diskBlk ≠ 0 ∧ blkAlloc d = (d', diskBlk)

inductive Allocated (g : Graph) (d : Blkdev) (fileId : ℤ) (offset : ℕ) :
    Graph × Blkdev × Option (Fin maxBlocks) → Prop
  | failed : Allocated g d fileId offset (g, d, none)
  | allocated (i : Fin maxBlocks) (d' : Blkdev) (diskBlk : ℤ) (hi : g.blocks i = none)
      (hdisk : Backed d d' diskBlk) :
      Allocated g d fileId offset (claimedAt g i fileId offset diskBlk, d', some i)

variable {d : Blkdev} {g g₁ : Graph} {fileId : ℤ} {off offset : ℕ} {i : Fin maxBlocks} {b : Block}
  {s s' : Graph × Blkdev} {buf : List UInt8} {out : Graph × Blkdev × Except Err ℕ}

theorem blkAlloc_zero {d' : Blkdev} (h : blkAlloc d = (d', 0)) : d' = d := by
  unfold blkAlloc at h
  split at h
  · exact (Prod.mk.inj h).1.symm
  · rename_i i hi
    exact absurd (Prod.mk.inj h).2 toId_pos.ne'

theorem allocBlock_allocated (g : Graph) (d : Blkdev) (fileId : ℤ) (offset : ℕ) :
    Allocated g d fileId offset (allocBlock g d fileId offset) := by
  unfold allocBlock
  rcases hi : firstFrom g.nextBlockHint fun i => (g.blocks i).isNone with _ | i
  · exact .failed
  have hfree : g.blocks i = none := by simpa using firstFrom_some hi
  generalize ha : blkAlloc d = out
  obtain ⟨d', diskBlk⟩ := out
  simp only
  split_ifs with htotal hzero
  · exact .allocated i d 0 hfree (.inl ⟨htotal, rfl, rfl⟩)
  · rw [hzero] at ha
    rw [blkAlloc_zero ha]
    exact .failed
  · exact .allocated i d' diskBlk hfree (.inr ⟨htotal, hzero, ha⟩)

theorem findBlock_some (h : findBlock g fileId off = some i) :
    ∃ b, g.blocks i = some b ∧ b.fileId = fileId ∧ b.offset = off := by
  have hi := first_some h
  cases hb : g.blocks i with
  | none => simp [hb] at hi
  | some b => exact ⟨b, rfl, by simpa [hb] using hi⟩

theorem findBlock_none (h : findBlock g fileId off = none) (hb : g.blocks i = some b)
    (hf : b.fileId = fileId) : b.offset ≠ off := by
  have hi := first_none h i
  rintro rfl
  simp [hb, hf] at hi

inductive Round (fileId : ℤ) : Graph × Blkdev → Graph × Blkdev → Prop
  | found (g : Graph) (d : Blkdev) (i : Fin maxBlocks) (b : Block) (intra : ℕ) (chunk : List UInt8)
      (hb : g.blocks i = some b) (hfile : b.fileId = fileId) :
      Round fileId (g, d) (patchBlock g d i b intra chunk)
  | fresh (g : Graph) (d d' : Blkdev) (i : Fin maxBlocks) (off : ℕ) (diskBlk : ℤ) (intra : ℕ)
      (chunk : List UInt8) (hi : g.blocks i = none) (hdisk : Backed d d' diskBlk) :
      Round fileId (g, d)
        (patchBlock (claimedAt g i fileId off diskBlk) d' i ⟨fileId, off, 0, diskBlk⟩ intra chunk)

inductive Target (fileId : ℤ) (origSize off : ℕ) (g : Graph) (d : Blkdev) :
    Graph → Blkdev → Fin maxBlocks → Block → Prop
  | found (i : Fin maxBlocks) (b : Block) (hsize : off < origSize)
      (hfind : findBlock g fileId off = some i) (hb : g.blocks i = some b)
      (hfile : b.fileId = fileId) (hoff : b.offset = off) : Target fileId origSize off g d g d i b
  | fresh (i : Fin maxBlocks) (d' : Blkdev) (diskBlk : ℤ)
      (hmiss : origSize ≤ off ∨ findBlock g fileId off = none) (hi : g.blocks i = none)
      (hdisk : Backed d d' diskBlk) :
      Target fileId origSize off g d (claimedAt g i fileId off diskBlk) d' i
        ⟨fileId, off, 0, diskBlk⟩

structure Stuck (fileId : ℤ) (origSize off : ℕ) (g : Graph) (d : Blkdev) : Prop where
  miss : origSize ≤ off ∨ findBlock g fileId off = none
  full : (allocBlock g d fileId off).2.2 = none

theorem acquireBlock_cases (g : Graph) (d : Blkdev) (fileId : ℤ) (origSize off : ℕ) :
    (Stuck fileId origSize off g d ∧ acquireBlock g d fileId origSize off = (g, d, none)) ∨
      ∃ g₁ d₁ i b, Target fileId origSize off g d g₁ d₁ i b ∧ g₁.blocks i = some b ∧
        acquireBlock g d fileId origSize off = (g₁, d₁, some i) := by
  have hfresh : (origSize ≤ off ∨ findBlock g fileId off = none) →
      acquireBlock g d fileId origSize off = allocBlock g d fileId off →
      (Stuck fileId origSize off g d ∧ acquireBlock g d fileId origSize off = (g, d, none)) ∨
        ∃ g₁ d₁ i b, Target fileId origSize off g d g₁ d₁ i b ∧ g₁.blocks i = some b ∧
          acquireBlock g d fileId origSize off = (g₁, d₁, some i) := by
    intro hmiss hacq
    have halloc := allocBlock_allocated g d fileId off
    rw [hacq]
    generalize hout : allocBlock g d fileId off = out at halloc ⊢
    cases halloc with
    | failed => exact .inl ⟨⟨hmiss, by rw [hout]⟩, rfl⟩
    | allocated i d' diskBlk hi hdisk =>
      exact .inr ⟨_, _, i, _, .fresh i d' diskBlk hmiss hi hdisk, update_self .., rfl⟩
  by_cases hsize : origSize ≤ off
  · exact hfresh (.inl hsize) (by rw [acquireBlock, if_pos hsize])
  · rcases hfind : findBlock g fileId off with _ | i
    · exact hfresh (.inr hfind) (by rw [acquireBlock, if_neg hsize, hfind])
    obtain ⟨b, hb, hfile, hoff⟩ := findBlock_some hfind
    refine .inr ⟨g, d, i, b, .found i b (Nat.not_le.mp hsize) hfind hb hfile hoff, hb, ?_⟩
    rw [acquireBlock, if_neg hsize, hfind]

def writePos (offset written : ℕ) : ℕ := (offset + written) % 2 ^ 32

def blockRest (pos : ℕ) : ℕ := blockSize - (pos - alignDown pos)

theorem writeLoop_cases (fileId : ℤ) (offset origSize fuel : ℕ) (g : Graph) (d : Blkdev)
    (written : ℕ) {rest : List UInt8} (hrest : rest ≠ []) :
    (Stuck fileId origSize (alignDown (writePos offset written)) g d ∧
      writeLoop fileId offset origSize (fuel + 1) g d written rest = (g, d, written, false)) ∨
    ∃ g₁ d₁ i b, Target fileId origSize (alignDown (writePos offset written)) g d g₁ d₁ i b ∧
      g₁.blocks i = some b ∧
      writeLoop fileId offset origSize (fuel + 1) g d written rest =
        writeLoop fileId offset origSize fuel
          (patchBlock g₁ d₁ i b (writePos offset written - alignDown (writePos offset written))
            (rest.take (blockRest (writePos offset written)))).1
          (patchBlock g₁ d₁ i b (writePos offset written - alignDown (writePos offset written))
            (rest.take (blockRest (writePos offset written)))).2
          (written + (rest.take (blockRest (writePos offset written))).length)
          (rest.drop (blockRest (writePos offset written))) := by
  have hcases := acquireBlock_cases g d fileId origSize (alignDown (writePos offset written))
  rw [writeLoop, if_neg hrest]
  simp only
  rcases hcases with ⟨hstuck, hacq⟩ | ⟨g₁, d₁, i, b, htarget, hb, hacq⟩
  · refine .inl ⟨hstuck, ?_⟩
    rw [writePos] at hacq
    rw [hacq]
  · refine .inr ⟨g₁, d₁, i, b, htarget, hb, ?_⟩
    rw [writePos] at hacq
    rw [hacq]
    simp only [hb]
    rfl

theorem Target.round {origSize : ℕ} {d₁ : Blkdev} (h : Target fileId origSize off g d g₁ d₁ i b)
    (intra : ℕ) (chunk : List UInt8) : Round fileId (g, d) (patchBlock g₁ d₁ i b intra chunk) := by
  cases h with
  | found _ _ _ hfind hb hfile hoff => exact .found g d i b intra chunk hb hfile
  | fresh _ _ diskBlk hmiss hi hdisk => exact .fresh g d d₁ i off diskBlk intra chunk hi hdisk

theorem writeLoop_rounds (fileId : ℤ) (offset origSize fuel : ℕ) :
    ∀ (g : Graph) (d : Blkdev) (written : ℕ) (rest : List UInt8),
      Relation.ReflTransGen (Round fileId) (g, d)
        ((writeLoop fileId offset origSize fuel g d written rest).1,
          (writeLoop fileId offset origSize fuel g d written rest).2.1) := by
  induction fuel with
  | zero =>
    intro g d written rest
    exact .refl
  | succ fuel ih =>
    intro g d written rest
    by_cases hrest : rest = []
    · rw [writeLoop, if_pos hrest]
    · rcases writeLoop_cases fileId offset origSize fuel g d written hrest with
        ⟨-, hstop⟩ | ⟨g₁, d₁, i, b, htarget, -, hgo⟩
      · rw [hstop]
      · rw [hgo]
        exact .head (htarget.round _ _) (ih _ _ _ _)

structure WriteFrame (fileId : ℤ) (g g' : Graph) : Prop where
  inodes : g'.inodes = g.inodes
  edges : g'.edges = g.edges
  rootId : g'.rootId = g.rootId
  others : ∀ i b, b.fileId ≠ fileId → (g'.blocks i = some b ↔ g.blocks i = some b)

theorem WriteFrame.refl (fileId : ℤ) (g : Graph) : WriteFrame fileId g g :=
  ⟨rfl, rfl, rfl, fun _ _ _ => Iff.rfl⟩

theorem WriteFrame.trans {g₂ g₃ : Graph} (h : WriteFrame fileId g₁ g₂)
    (h' : WriteFrame fileId g₂ g₃) : WriteFrame fileId g₁ g₃ :=
  ⟨h'.inodes.trans h.inodes, h'.edges.trans h.edges, h'.rootId.trans h.rootId,
    fun i b hb => (h'.others i b hb).trans (h.others i b hb)⟩

theorem writeFrame_setBlock (hi : ∀ b', g.blocks i = some b' → b'.fileId = fileId)
    (hb : b.fileId = fileId) : WriteFrame fileId g (g.setBlock i (some b)) := by
  refine ⟨rfl, rfl, rfl, fun k b' hb' => ?_⟩
  by_cases hki : k = i
  · subst hki
    simp only [Graph.setBlock, update_self, some.injEq]
    constructor
    · rintro rfl
      exact absurd hb hb'
    · intro h
      exact absurd (hi b' h) hb'
  · simp only [Graph.setBlock, update_of_ne hki]

theorem Round.frame (h : Round fileId s s') : WriteFrame fileId s.1 s'.1 := by
  cases h with
  | found g d i b intra chunk hb hfile =>
    apply writeFrame_setBlock
    · intro b' hb'
      rw [hb] at hb'
      rwa [← some.inj hb']
    · exact hfile
  | fresh g d d' i off diskBlk intra chunk hi hdisk =>
    have hclaim : WriteFrame fileId g (claimedAt g i fileId off diskBlk) := by
      have hset : WriteFrame fileId g (g.setBlock i (some ⟨fileId, off, 0, diskBlk⟩)) := by
        apply writeFrame_setBlock
        · intro b' hb'
          rw [hi] at hb'
          cases hb'
        · rfl
      exact { hset with }
    apply hclaim.trans
    apply writeFrame_setBlock
    · intro b' hb'
      have hself : (claimedAt g i fileId off diskBlk).blocks i =
          some ⟨fileId, off, 0, diskBlk⟩ := update_self ..
      rw [hself] at hb'
      rw [← some.inj hb']
    · rfl

theorem rounds_frame (h : Relation.ReflTransGen (Round fileId) s s') :
    WriteFrame fileId s.1 s'.1 := by
  induction h with
  | refl => exact .refl ..
  | tail _ hround ih => exact ih.trans hround.frame

inductive FileWritten (g : Graph) (d : Blkdev) (fileId : ℤ) (offset : ℕ) (buf : List UInt8) :
    Graph × Blkdev × Except Err ℕ → Prop
  | nothing (rc : Except Err ℕ) : FileWritten g d fileId offset buf (g, d, rc)
  | cut (n : Inode) (hn : g.inode fileId = some n) (hkind : n.kind = .file) (g' : Graph)
      (d' : Blkdev) (hrounds : Relation.ReflTransGen (Round fileId) (g, d) (g', d'))
      (rc : Except Err ℕ) : FileWritten g d fileId offset buf (g', d', rc)
  | whole (n : Inode) (hn : g.inode fileId = some n) (hkind : n.kind = .file) (g' : Graph)
      (d' : Blkdev) (hrounds : Relation.ReflTransGen (Round fileId) (g, d) (g', d')) (size : ℕ)
      (written : ℕ) :
      FileWritten g d fileId offset buf
        (g'.modifyInode fileId fun n => if n.size < size then { n with size } else n, d',
          .ok written)

theorem FileWritten.edges (h : FileWritten g d fileId offset buf out) : out.1.edges = g.edges := by
  cases h with
  | nothing => rfl
  | cut _ _ _ _ _ hrounds => exact (rounds_frame hrounds).edges
  | whole _ _ _ _ _ hrounds => exact (modifyInode_edges ..).trans (rounds_frame hrounds).edges

theorem FileWritten.rootId (h : FileWritten g d fileId offset buf out) :
    out.1.rootId = g.rootId := by
  cases h with
  | nothing => rfl
  | cut _ _ _ _ _ hrounds => exact (rounds_frame hrounds).rootId
  | whole _ _ _ _ _ hrounds => exact (modifyInode_rootId ..).trans (rounds_frame hrounds).rootId

theorem fileWrite_written (g : Graph) (d : Blkdev) (fileId : ℤ) (offset : ℕ) (buf : List UInt8) :
    FileWritten g d fileId offset buf (fileWrite g d fileId offset buf) := by
  unfold fileWrite
  split_ifs
  · exact .nothing _
  rcases hn : g.inode fileId with _ | n
  · exact .nothing _
  simp only
  split_ifs with hkind
  · exact .nothing _
  have hrounds := writeLoop_rounds fileId offset n.size buf.length g d 0 buf
  generalize writeLoop fileId offset n.size buf.length g d 0 buf = out at hrounds ⊢
  obtain ⟨g', d', written, all⟩ := out
  cases all with
  | false => exact .cut n hn (not_not.mp hkind) g' d' hrounds _
  | true => exact .whole n hn (not_not.mp hkind) g' d' hrounds _ written

end SotOs.Sotfs
