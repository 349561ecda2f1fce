import SotOs.Lucas.Reach
import SotOs.Sotfs.BlockLedger

/-! Disk blocks over runs of the rewrite rules and session reaps: the store counts what is mapped as
long as no file with disk blocks goes by an unlink or a last close. -/

namespace SotOs.Lucas
open Sotfs Ledger Machine Function

variable {u : ℕ} {s : Graph × Blkdev}

theorem reapBlock_conserved {id : ℤ} (h : Conserved u s.1 s.2) {i : Fin maxBlocks} :
    Conserved u (reapBlock id s i).1 (reapBlock id s i).2 := by
  unfold reapBlock
  cases hb : s.1.blocks i with
  | none => exact h
  | some b =>
    simp only
    split_ifs
    · obtain ⟨hsound, hbalanced⟩ := conserved_iff.mp h
      have hbacking : (s.1.setBlock i none).backing = update s.1.backing i none :=
        backing_update (x := none) rfl
      by_cases hzero : b.diskBlk = 0
      · -- nothing behind the mapping
        have hinvalid : validBlk s.2 b.diskBlk = false := by rw [hzero]; rfl
        have hempty : s.1.backing i = none := by
          rw [Graph.backing, hb, Option.bind_some, Block.backing, if_pos hzero]
        have hsame : ledger (s.1.setBlock i none) s.2 = ledger s.1 s.2 := by
          rw [ledger, hbacking, ← hempty, update_eq_self, ledger]
        rw [blkFree_invalid hinvalid, conserved_iff, hsame]
        exact ⟨hsound, hbalanced⟩
      · have hheld : (ledger s.1 s.2).held i = some b.diskBlk :=
          backing_some.mpr ⟨b, hb, rfl, hzero⟩
        obtain ⟨htaken, hused⟩ := blkFree_releases (hsound.taken i _ hheld)
        have hrelease : ledger (s.1.setBlock i none) (blkFree s.2 b.diskBlk) =
            (ledger s.1 s.2).release i b.diskBlk := by
          rw [ledger, hbacking, htaken, blkUsed, hused]
          rfl
        have hstep := Step.release i b.diskBlk hheld
        rw [conserved_iff, hrelease]
        exact ⟨hstep.sound hsound, hstep.balanced hbalanced⟩
    · exact h

theorem reapEdges_conserved (inode : ℤ) (h : Conserved u s.1 s.2) :
    Conserved u (s.map (reapEdges inode) id).1 (s.map (reapEdges inode) id).2 := by
  have hblocks : (reapEdges inode s.1).blocks = s.1.blocks := freeInode_blocks ..
  rw [conserved_iff] at h ⊢
  rwa [Prod.map_fst, Prod.map_snd, ledger_congr hblocks]

theorem foldl_conserved {α : Type} {f : Graph × Blkdev → α → Graph × Blkdev}
    (hf : ∀ t a, Conserved u t.1 t.2 → Conserved u (f t a).1 (f t a).2) (l : List α)
    (h : Conserved u s.1 s.2) : Conserved u (l.foldl f s).1 (l.foldl f s).2 :=
  List.foldlRecOn (motive := fun t : Graph × Blkdev => Conserved u t.1 t.2) l f h
    fun t ht a _ => hf t a ht

theorem reapInode_conserved (h : Conserved u s.1 s.2) (i : Fin maxInodes) :
    Conserved u (reapInode s i).1 (reapInode s i).2 := by
  have hblocks := foldl_conserved (f := reapBlock (Slots.toId i))
    (fun t k ht => reapBlock_conserved ht) (List.finRange maxBlocks) h
  have hedges := reapEdges_conserved (Slots.toId i) hblocks
  rwa [← reapInode] at hedges

theorem sessionReap_conserved {s : Fs} (h : Conserved u s.graph s.dev) (session : UInt32) :
    Conserved u (sessionReap session s).graph (sessionReap session s).dev := by
  unfold sessionReap
  split_ifs
  · exact h
  simp only
  generalize (List.finRange maxInodes).filter (fun i => s.sessions.owner i == session) = owned
  exact foldl_conserved (fun t i ht => reapInode_conserved ht i) owned h

inductive StoreOp where
  | graph (op : GraphOp)
  | tag (inodeId : ℤ) (session : UInt32)
  | reap (session : UInt32)

def storeStep (s : Fs) : StoreOp → Fs × ℤ
  | .graph op =>
    let ((graph, dev), rc) := op.step (s.graph, s.dev)
    ({ s with graph, dev }, rc)
  | .tag inodeId session => ({ s with sessions := sessionTag s.sessions inodeId session }, 0)
  | .reap session => (sessionReap session s, 0)

def StoreOp.leaks (s : Fs) : StoreOp → Prop
  | .graph op => op.leaks s.graph
  | _ => False

theorem storeStep_conserved_iff {s : Fs} (op : StoreOp) (h : Conserved u s.graph s.dev) :
    Conserved u (storeStep s op).1.graph (storeStep s op).1.dev ↔ ¬op.leaks s := by
  cases op with
  | graph op => exact op.step_conserved_iff (s := (s.graph, s.dev)) h
  | tag inodeId session => exact iff_of_true h not_false
  | reap session => exact iff_of_true (sessionReap_conserved h session) not_false

/-- Blocks are conserved exactly as long as no file with disk blocks is unlinked or closed last. -/
theorem blocks_conserved_iff (u : ℕ) (s : Fs) (ops : List StoreOp) : (∀ k, Conserved u
        (exec storeStep { s with graph := graphInit } (ops.take k)).graph
        (exec storeStep { s with graph := graphInit } (ops.take k)).dev) ↔
      blkUsed s.dev = u ∧
        ∀ e ∈ trace storeStep { s with graph := graphInit } ops, ¬e.input.leaks e.pre := by
  have hrun : ∀ hstart : Conserved u graphInit s.dev, (∀ k, Conserved u
        (exec storeStep { s with graph := graphInit } (ops.take k)).graph
        (exec storeStep { s with graph := graphInit } (ops.take k)).dev) ↔
      ∀ e ∈ trace storeStep { s with graph := graphInit } ops, ¬e.input.leaks e.pre := by
    intro hstart
    apply always_iff storeStep (P := fun s : Fs => Conserved u s.graph s.dev)
    · exact fun s op h => storeStep_conserved_iff op h
    · exact hstart
  constructor
  · intro hall
    exact ⟨conserved_init.mp (hall 0), (hrun (hall 0)).mp hall⟩
  · rintro ⟨hused, hsafe⟩
    exact (hrun (conserved_init.mpr hused)).mpr hsafe

def oneBlockFs : Fs :=
  { freshFs ⟨fun _ => 0, 3 * blockSize, []⟩ 0 with
    graph := graphInit
    dev := (blkdevInit (bssBlkdev ⟨fun _ => 0, 3 * blockSize, []⟩)
      ⟨fun _ => 0, 3 * blockSize, []⟩ 0 (3 * blockSize) true).1 }

theorem unlink_leaks : ¬Conserved 0
      (exec storeStep oneBlockFs
        [.graph (.createFile 1 [97] 0), .graph (.fileWrite 2 0 [1]), .graph (.unlink 1 [97])]).graph
      (exec storeStep oneBlockFs
        [.graph (.createFile 1 [97] 0), .graph (.fileWrite 2 0 [1]), .graph (.unlink 1 [97])]).dev := by
  have h₀ : Conserved 0 oneBlockFs.graph oneBlockFs.dev := conserved_init.mpr (by decide +kernel)
  have h₁ := (storeStep_conserved_iff (.graph (.createFile 1 [97] 0)) h₀).mpr
    (by rintro ⟨f, hf, -⟩; cases hf)
  have h₂ := (storeStep_conserved_iff (.graph (.fileWrite 2 0 [1])) h₁).mpr
    (by rintro ⟨f, hf, -⟩; cases hf)
  intro h
  apply (storeStep_conserved_iff (.graph (.unlink 1 [97])) h₂).mp h
  refine ⟨2, ?_, 0, ⟨2, 0, 1, 1⟩, by decide +kernel, rfl, by decide⟩
  exact .unlink 1 [97] 0 1 { Inode.fresh .file 0 with size := 1 } (by decide) (by decide +kernel)
    (by decide +kernel) (by decide) (by decide) rfl

end SotOs.Lucas
