import SotOs.Lib.Ledger
import SotOs.Sotfs.Contents
import SotOs.Sotfs.WellFormed

/-! The disk blocks as a ledger: the mappings of the graph hold them, the bitmap of the store marks
them. -/

namespace SotOs.Sotfs
open Ledger Function Slots Option

def Block.backing (b : Block) : Option ℤ := if b.diskBlk = 0 then none else some b.diskBlk

def Graph.backing (g : Graph) (i : Fin maxBlocks) : Option ℤ := (g.blocks i).bind Block.backing

def Blkdev.taken (d : Blkdev) (blk : ℤ) : Bool := validBlk d blk && d.bitmap (blk.toNat - 1)

def ledger (g : Graph) (d : Blkdev) : Book (Fin maxBlocks) ℤ := ⟨g.backing, d.taken, blkUsed d⟩

variable {g g' : Graph} {i : Fin maxBlocks} {blk fileId f : ℤ} {d d' : Blkdev} {b : Block}
  {s s' : Graph × Blkdev} {op : GraphOp} {u : ℕ}

theorem backing_some :
    g.backing i = some blk ↔ ∃ b, g.blocks i = some b ∧ b.diskBlk = blk ∧ blk ≠ 0 := by
  unfold Graph.backing
  rw [bind_eq_some_iff]
  constructor
  · rintro ⟨b, hb, hblk⟩
    unfold Block.backing at hblk
    split_ifs at hblk with hzero
    obtain ⟨⟩ := hblk
    exact ⟨b, hb, rfl, hzero⟩
  · rintro ⟨b, hb, rfl, hne⟩
    exact ⟨b, hb, if_neg hne⟩

theorem backing_none (h : g.blocks i = none) : g.backing i = none := by
  rw [Graph.backing, h]
  rfl

structure SameBits (d d' : Blkdev) : Prop where
  totalBlocks : d'.totalBlocks = d.totalBlocks
  bitmap : d'.bitmap = d.bitmap
  used : d'.used = d.used

theorem SameBits.refl (d : Blkdev) : SameBits d d := ⟨rfl, rfl, rfl⟩

theorem SameBits.trans {d₁ d₂ d₃ : Blkdev} (h : SameBits d₁ d₂) (h' : SameBits d₂ d₃) :
    SameBits d₁ d₃ :=
  ⟨h'.totalBlocks.trans h.totalBlocks, h'.bitmap.trans h.bitmap, h'.used.trans h.used⟩

theorem SameBits.ledger (h : SameBits d d') (g : Graph) : ledger g d' = ledger g d := by
  have htaken : d'.taken = d.taken := by
    funext blk
    rw [Blkdev.taken, Blkdev.taken, validBlk, validBlk, h.totalBlocks, h.bitmap]
  rw [Sotfs.ledger, Sotfs.ledger, htaken, blkUsed, blkUsed, h.used]

theorem stWrite_bits (d : Blkdev) (off : ℕ) (buf : List UInt8) : SameBits d (stWrite d off buf).1 :=
  ⟨rfl, rfl, rfl⟩

theorem slotWriteback_bits (d : Blkdev) (i : Fin cacheSlots) : SameBits d (slotWriteback d i) := by
  have hwrite := stWrite_bits d (blockOff d (d.cache i).id) (List.ofFn (d.cache i).data)
  unfold slotWriteback
  simp only
  generalize stWrite d (blockOff d (d.cache i).id) (List.ofFn (d.cache i).data) = out at hwrite ⊢
  split_ifs
  · exact ⟨rfl, rfl, rfl⟩
  · exact { hwrite with }
  · exact hwrite

theorem cacheAcquire_bits (d : Blkdev) (blk : ℤ) : SameBits d (cacheAcquire d blk).1 := by
  unfold cacheAcquire
  split
  · exact .refl d
  · have hback := slotWriteback_bits d (victimFrom d.cache (List.finRange cacheSlots) 0)
    exact { hback with }

theorem blkRead_bits (d : Blkdev) (blk : ℤ) : SameBits d (blkRead d blk).1 := by
  have hacquire := cacheAcquire_bits d blk
  unfold blkRead
  split_ifs
  · exact .refl d
  generalize cacheAcquire d blk = out at hacquire ⊢
  obtain ⟨d', i, present⟩ := out
  cases present with
  | true => exact { hacquire with }
  | false =>
    simp only
    split <;> exact { hacquire with }

theorem blkWrite_bits (d : Blkdev) (blk : ℤ) (page : Page) : SameBits d (blkWrite d blk page).1 := by
  have hacquire := cacheAcquire_bits d blk
  unfold blkWrite
  split_ifs
  · exact .refl d
  · exact { hacquire with }

theorem loadPage_bits (d : Blkdev) (disk : ℤ) : SameBits d (loadPage d disk).1 := by
  have hread := blkRead_bits d disk
  unfold loadPage
  split_ifs
  · exact .refl d
  · generalize blkRead d disk = out at hread ⊢
    obtain ⟨d', page⟩ := out
    cases page <;> exact hread

variable {intra : ℕ} {chunk : List UInt8}

theorem patchBlock_bits : SameBits d (patchBlock g d i b intra chunk).2 := by
  unfold patchBlock
  simp only
  split_ifs
  · exact loadPage_bits ..
  · exact (loadPage_bits ..).trans (blkWrite_bits ..)

theorem taken_update {v : Bool} (hv : validBlk d blk = true)
    (htotal : d'.totalBlocks = d.totalBlocks)
    (hbitmap : d'.bitmap = update d.bitmap (blk.toNat - 1) v) :
    d'.taken = update d.taken blk v := by
  have hvalid : ∀ id, validBlk d' id = validBlk d id := by
    intro id
    rw [validBlk, validBlk, htotal]
  funext id
  rw [Blkdev.taken, hvalid, hbitmap]
  by_cases hid : id = blk
  · rw [hid, update_self, update_self, hv, Bool.true_and]
  rw [update_of_ne hid, Blkdev.taken]
  rcases hv' : validBlk d id with _ | _
  · rfl
  have hpos := (validBlk_iff.mp hv).1
  have hpos' := (validBlk_iff.mp hv').1
  rw [update_of_ne (by omega)]

theorem blkAlloc_claims (halloc : blkAlloc d = (d', blk)) (hne : blk ≠ 0) :
    d.taken blk = false ∧ d'.taken = update d.taken blk true ∧ d'.used = d.used + 1 := by
  unfold blkAlloc at halloc
  split at halloc
  · exact absurd (Prod.mk.inj halloc).2.symm hne
  · rename_i i hi
    obtain ⟨rfl, rfl⟩ := Prod.mk.inj halloc
    have hclear : d.bitmap i.val = false := by simpa using first_some hi
    have hlt := i.isLt
    have hnat : (toId i).toNat - 1 = i.val := by
      unfold toId
      omega
    have hvalid : validBlk d (toId i) = true := by
      rw [validBlk_iff]
      unfold toId
      omega
    refine ⟨by rw [Blkdev.taken, hnat, hclear, Bool.and_false], taken_update hvalid rfl ?_, rfl⟩
    rw [hnat]

theorem blkFree_releases (htaken : d.taken blk = true) :
    (blkFree d blk).taken = update d.taken blk false ∧ (blkFree d blk).used = d.used - 1 := by
  obtain ⟨hv, hbit⟩ := Bool.and_eq_true_iff.mp htaken
  unfold blkFree
  rw [hv, hbit]
  simp only [Bool.not_true, Bool.false_eq_true, if_false]
  split
  · exact ⟨taken_update hv rfl rfl, rfl⟩
  · exact ⟨taken_update hv rfl rfl, rfl⟩

theorem backing_update {x : Option Block} (h : g'.blocks = update g.blocks i x) :
    g'.backing = update g.backing i (x.bind Block.backing) := by
  funext j
  by_cases hj : j = i
  · rw [hj, update_self, Graph.backing, h, update_self]
  · rw [update_of_ne hj, Graph.backing, h, update_of_ne hj, Graph.backing]

theorem backing_setBlock {b' : Block} (hb : g.blocks i = some b) (hdisk : b'.diskBlk = b.diskBlk) :
    (g.setBlock i (some b')).backing = g.backing := by
  have hself : (some b').bind Block.backing = g.backing i := by
    rw [Graph.backing, hb, bind_some, bind_some, Block.backing, Block.backing, hdisk]
  rw [backing_update (g := g) (i := i) rfl, hself, update_eq_self]

theorem ledger_patchBlock (hb : g.blocks i = some b) :
    ledger (patchBlock g d i b intra chunk).1 (patchBlock g d i b intra chunk).2 = ledger g d := by
  rw [patchBlock_bits.ledger]
  have hsame : (patchBlock g d i b intra chunk).1.backing = g.backing := backing_setBlock hb rfl
  rw [ledger, hsame, ledger]

theorem ledger_claimedAt (hi : g.blocks i = none) {diskBlk : ℤ} (hdisk : Backed d d' diskBlk)
    {off : ℕ} :
    Relation.ReflTransGen Step (ledger g d) (ledger (claimedAt g i fileId off diskBlk) d') := by
  have hbacking : (claimedAt g i fileId off diskBlk).backing =
      update g.backing i (if diskBlk = 0 then none else some diskBlk) :=
    backing_update (x := some ⟨fileId, off, 0, diskBlk⟩) rfl
  rcases hdisk with ⟨-, rfl, rfl⟩ | ⟨-, hne, halloc⟩
  · -- no disk block: the slot stays empty in the ledger
    rw [if_pos rfl, ← backing_none hi, update_eq_self] at hbacking
    have hsame : ledger (claimedAt g i fileId off 0) d' = ledger g d' := by
      rw [ledger, hbacking, ledger]
    rw [hsame]
  · obtain ⟨hclear, htaken, hused⟩ := blkAlloc_claims halloc hne
    have hclaim : ledger (claimedAt g i fileId off diskBlk) d' = (ledger g d).claim i diskBlk := by
      rw [ledger, hbacking, if_neg hne, htaken, blkUsed, hused]
      rfl
    rw [hclaim]
    exact .single (.claim i diskBlk (backing_none hi) hclear)

theorem Round.ledger (h : Round fileId s s') :
    Relation.ReflTransGen Step (ledger s.1 s.2) (ledger s'.1 s'.2) := by
  cases h with
  | found g d i b intra chunk hb hfile =>
    rw [ledger_patchBlock hb]
  | fresh g d d' i off diskBlk intra chunk hi hdisk =>
    rw [ledger_patchBlock (update_self ..)]
    exact ledger_claimedAt hi hdisk

theorem rounds_ledger (h : Relation.ReflTransGen (Round fileId) s s') :
    Relation.ReflTransGen Step (ledger s.1 s.2) (ledger s'.1 s'.2) := by
  induction h with
  | refl => exact .refl
  | tail _ hround ih => exact ih.trans hround.ledger

theorem ledger_congr (h : g'.blocks = g.blocks) : ledger g' d = ledger g d := by
  have hbacking : g'.backing = g.backing := by
    funext i
    rw [Graph.backing, h, Graph.backing]
  rw [ledger, hbacking, ledger]

inductive Frees (g : Graph) : GraphOp → ℤ → Prop
  | unlink (p : ℤ) (name : Name) (i : Fin maxEdges) (c : Fin maxInodes) (n : Inode)
      (hname : name ≠ []) (hlookup : lookupChild g p name = .ok (i, c)) (hn : g.inodes c = some n)
      (hkind : n.kind ≠ .dir) (hlink : n.nlink ≤ 1) (hclosed : n.openCount = 0) :
      Frees g (.unlink p name) (toId c)
  | inodeClose (id : ℤ) (n : Inode) (hn : g.inode id = some n) (horphan : n.orphan = true)
      (hlast : n.openCount ≤ 1) : Frees g (.inodeClose id) id

theorem Frees.unique {f' : ℤ} (h : Frees g op f) (h' : Frees g op f') : f = f' := by
  cases h with
  | unlink p name i c n hname hlookup =>
    cases h' with
    | unlink _ _ i' c' n' _ hlookup' =>
      rw [hlookup] at hlookup'
      rw [(Prod.mk.inj (Except.ok.inj hlookup')).2]
  | inodeClose id n hn =>
    cases h'
    rfl

theorem freeFileStorage_blocks {id : ℤ} {n : Inode} (hn : g.inode id = some n) :
    (freeFileStorage g id).blocks = (dropBlocks g id).blocks := by
  rw [freeFileStorage, hn]
  unfold freeInode
  simp only
  split <;> rfl

theorem Frees.step_blocks (h : Frees g op f) (d : Blkdev) :
    (op.step (g, d)).1.1.blocks = (dropBlocks g f).blocks ∧ (op.step (g, d)).1.2 = d := by
  cases h with
  | unlink p name i c n hname hlookup hn hkind hlink hclosed =>
    refine ⟨?_, rfl⟩
    have hdir : (g.inodes c).map (·.kind) ≠ some .dir := by simpa [hn] using hkind
    have hlast : ¬0 < n.nlink - 1 := by omega
    have hshut : ¬0 < n.openCount := by omega
    have hlive : (((g.setEdge i none).setInode c (some { n with nlink := n.nlink - 1 })).inode
        (toId c)) = some { n with nlink := n.nlink - 1 } := by
      rw [Graph.inode_setInode, if_pos rfl]
    have hdrop : dropLink (g.setEdge i none) c = freeFileStorage
        ((g.setEdge i none).setInode c (some { n with nlink := n.nlink - 1 })) (toId c) := by
      unfold dropLink
      rw [show (g.setEdge i none).inodes c = some n from hn]
      simp only [hlast, hshut, if_false]
    have hunlink : Sotfs.unlink g p name = (dropLink (g.setEdge i none) c, .ok ()) := by
      rw [Sotfs.unlink, if_neg hname, hlookup]
      simp only [hdir, if_false]
    simp only [GraphOp.step, hunlink]
    rw [hdrop, freeFileStorage_blocks hlive]
    rfl
  | inodeClose id n hn horphan hlast =>
    refine ⟨?_, rfl⟩
    have hlive : (g.modifyInode f fun n => { n with openCount := n.openCount - 1 }).inode f =
        some { n with openCount := n.openCount - 1 } := by
      rw [Graph.inode_modifyInode, if_pos rfl, hn]
      rfl
    simp only [GraphOp.step, Sotfs.inodeClose, hn]
    rw [if_pos ⟨by omega, horphan⟩, freeFileStorage_blocks hlive]
    simp only [dropBlocks, modifyInode_blocks]

theorem unlink_blocks {p : ℤ} {name : Name} (h : ∀ f, ¬Frees g (.unlink p name) f) :
    (unlink g p name).1.blocks = g.blocks := by
  unfold unlink
  split_ifs with hname
  · rfl
  rcases hlookup : lookupChild g p name with e | ic
  · rfl
  obtain ⟨i, c⟩ := ic
  simp only
  split_ifs with hkind
  · rfl
  unfold dropLink
  cases hn : (g.setEdge i none).inodes c with
  | none => rfl
  | some n =>
    simp only
    split_ifs with hlink hopen
    · rfl
    · rfl
    have hn' : g.inodes c = some n := hn
    refine absurd ?_ (h (toId c))
    exact .unlink p name i c n hname hlookup hn' (by simpa [hn'] using hkind) (by omega)
      (by omega)

theorem inodeClose_blocks {id : ℤ} (h : ∀ f, ¬Frees g (.inodeClose id) f) :
    (inodeClose g id).blocks = g.blocks := by
  unfold inodeClose
  rcases hn : g.inode id with _ | n
  · rfl
  simp only
  split_ifs with hlast
  · exact absurd (.inodeClose id n hn hlast.2 (by omega)) (h id)
  · exact modifyInode_blocks ..

theorem FileWritten.ledger {offset : ℕ} {buf : List UInt8} {out : Graph × Blkdev × Except Err ℕ}
    (h : FileWritten g d fileId offset buf out) :
    Relation.ReflTransGen Step (ledger g d) (ledger out.1 out.2.1) := by
  cases h with
  | nothing => exact .refl
  | cut _ _ _ _ _ hrounds => exact rounds_ledger hrounds
  | whole _ _ _ _ _ hrounds =>
    rw [ledger_congr (modifyInode_blocks ..)]
    exact rounds_ledger hrounds

theorem GraphOp.step_ledger (op : GraphOp) (h : ∀ f, ¬Frees s.1 op f) :
    Relation.ReflTransGen Step (ledger s.1 s.2) (ledger (op.step s).1.1 (op.step s).1.2) := by
  have hsame : ∀ {g' : Graph}, g'.blocks = s.1.blocks →
      Relation.ReflTransGen Step (ledger s.1 s.2) (ledger g' s.2) := by
    intro g' hblocks
    rw [ledger_congr hblocks]
  cases op with
  | createFile p name mode => exact hsame (createNode_created .file s.1 p name mode).blocks
  | mkdir p name mode => exact hsame (createNode_created .dir s.1 p name mode).blocks
  | unlink p name => exact hsame (unlink_blocks h)
  | rmdir p name => exact hsame (rmdir_removed s.1 p name).blocks
  | rename pSrc oldName pDst newName =>
    exact hsame (rename_renamed s.1 pSrc oldName pDst newName).blocks
  | inodeOpen id => exact hsame (modifyInode_blocks ..)
  | inodeClose id => exact hsame (inodeClose_blocks h)
  | fileWrite id offset buf => exact (fileWrite_written s.1 s.2 id offset buf).ledger

def mappedBlocks (g : Graph) : ℕ := count g.backing

/-- The mappings have each a block of its own that is taken, and the store counts them, over `u`
blocks that no mapping has. -/
structure Conserved (u : ℕ) (g : Graph) (d : Blkdev) : Prop extends Mapped g d where
  count : blkUsed d = mappedBlocks g + u

theorem conserved_iff : Conserved u g d ↔ Sound (ledger g d) ∧ Balanced u (ledger g d) := by
  constructor
  · rintro ⟨hmapped, hcount⟩
    refine ⟨⟨?_, ?_⟩, hcount⟩
    · intro i blk hi
      obtain ⟨b, hb, rfl, hne⟩ := backing_some.mp hi
      exact Bool.and_eq_true_iff.mpr ⟨hmapped.valid i b hb hne, hmapped.taken i b hb hne⟩
    · intro i j blk hi hj
      obtain ⟨b, hb, rfl, hne⟩ := backing_some.mp hi
      obtain ⟨b', hb', hdisk, -⟩ := backing_some.mp hj
      exact hmapped.distinct i j b b' hb hb' hne hdisk.symm
  · rintro ⟨hsound, hcount⟩
    have hheld : ∀ {i b}, g.blocks i = some b → b.diskBlk ≠ 0 →
        (ledger g d).held i = some b.diskBlk :=
      fun hb hne => backing_some.mpr ⟨_, hb, rfl, hne⟩
    refine ⟨⟨?_, ?_, ?_⟩, hcount⟩
    · exact fun i b hb hne => (Bool.and_eq_true_iff.mp (hsound.taken i _ (hheld hb hne))).1
    · exact fun i b hb hne => (Bool.and_eq_true_iff.mp (hsound.taken i _ (hheld hb hne))).2
    · intro i j b b' hb hb' hne hdisk
      refine hsound.distinct i j b.diskBlk (hheld hb hne) ?_
      rw [hdisk]
      exact hheld hb' (hdisk ▸ hne)

theorem conserved_init : Conserved u graphInit d ↔ blkUsed d = u := by
  have hblocks : ∀ i, graphInit.blocks i = none := by
    rw [graphInit_eq]
    exact fun _ => rfl
  have hnone : mappedBlocks graphInit = 0 := by
    simp [mappedBlocks, Ledger.count, backing_none (hblocks _)]
  constructor
  · intro h
    rw [h.count, hnone, Nat.zero_add]
  · intro h
    refine ⟨⟨?_, ?_, ?_⟩, by rw [hnone, Nat.zero_add, h]⟩
    · exact fun i b hb => by simp [hblocks] at hb
    · exact fun i b hb => by simp [hblocks] at hb
    · exact fun i j b b' hb => by simp [hblocks] at hb

def HasDisk (g : Graph) (f : ℤ) : Prop := ∃ i b, g.blocks i = some b ∧ b.fileId = f ∧ b.diskBlk ≠ 0

def GraphOp.leaks (g : Graph) (op : GraphOp) : Prop := ∃ f, Frees g op f ∧ HasDisk g f

theorem backing_dropBlocks (h : (dropBlocks g f).backing i = some blk) :
    g.backing i = some blk := by
  obtain ⟨b, hb, rfl, hne⟩ := backing_some.mp h
  exact backing_some.mpr ⟨b, (dropBlocks_blocks.mp hb).1, rfl, hne⟩

theorem mappedBlocks_dropBlocks :
    mappedBlocks (dropBlocks g f) = mappedBlocks g ↔ ¬HasDisk g f := by
  unfold mappedBlocks
  rw [count_forget]
  · constructor
    · rintro hall ⟨i, b, hb, hfile, hne⟩
      have hheld : g.backing i = some b.diskBlk := backing_some.mpr ⟨b, hb, rfl, hne⟩
      obtain ⟨blk, hblk⟩ := isSome_iff_exists.mp (hall i (by rw [hheld]; rfl))
      obtain ⟨b', hb', -⟩ := backing_some.mp hblk
      obtain ⟨hold, hother⟩ := dropBlocks_blocks.mp hb'
      rw [hb] at hold
      exact hother (some.inj hold ▸ hfile)
    · intro hnone i hi
      obtain ⟨blk, hblk⟩ := isSome_iff_exists.mp hi
      obtain ⟨b, hb, rfl, hne⟩ := backing_some.mp hblk
      have hother : b.fileId ≠ f := fun hfile => hnone ⟨i, b, hb, hfile, hne⟩
      rw [backing_some.mpr ⟨b, dropBlocks_blocks.mpr ⟨hb, hother⟩, rfl, hne⟩]
      rfl
  · intro i hi
    obtain ⟨blk, hblk⟩ := isSome_iff_exists.mp hi
    rw [backing_dropBlocks hblk]
    rfl

theorem GraphOp.step_conserved_iff (op : GraphOp) (h : Conserved u s.1 s.2) :
    Conserved u (op.step s).1.1 (op.step s).1.2 ↔ ¬op.leaks s.1 := by
  obtain ⟨hsound, hbalanced⟩ := conserved_iff.mp h
  by_cases hfrees : ∃ f, Frees s.1 op f
  · obtain ⟨f, hf⟩ := hfrees
    obtain ⟨hblocks, hdev⟩ := hf.step_blocks s.2
    have hleaks : op.leaks s.1 ↔ HasDisk s.1 f := by
      constructor
      · rintro ⟨f', hf', hdisk⟩
        rwa [hf.unique hf']
      · exact fun hdisk => ⟨f, hf, hdisk⟩
    have hafter : ledger (op.step s).1.1 (op.step s).1.2 = ledger (dropBlocks s.1 f) s.2 := by
      rw [hdev, ledger_congr hblocks]
    rw [conserved_iff, hafter, hleaks, ← mappedBlocks_dropBlocks]
    constructor
    · rintro ⟨-, hcount⟩
      exact Nat.add_right_cancel (hcount.symm.trans hbalanced)
    · intro hcount
      refine ⟨hsound.forget fun i blk => backing_dropBlocks, ?_⟩
      exact hbalanced.trans (congrArg (· + u) hcount.symm)
  · rw [conserved_iff]
    have hsteps := op.step_ledger (s := s) fun f hf => hfrees ⟨f, hf⟩
    refine iff_of_true ⟨steps_sound hsteps hsound, steps_balanced hsteps hbalanced⟩ ?_
    rintro ⟨f, hf, -⟩
    exact hfrees ⟨f, hf⟩

end SotOs.Sotfs
