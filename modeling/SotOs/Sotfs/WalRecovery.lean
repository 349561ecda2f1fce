import SotOs.Sotfs.WalRegion
import SotOs.Sotfs.WalScan

/-! What a run of appends leaves in the log, and what a replay makes of it. A frame cut short does
no harm while it stops before the length field of its header. -/

namespace SotOs.Sotfs

open Machine List

structure Holds (frames : List Frame) (w : Wal) (st : Storage) : Prop where
  cursor : w.cursor = walOffset + (framesBytes frames).length
  upper : w.cursor ≤ walEnd
  seq : w.seq = frames.length + 1
  seqs : frames.map Frame.seq = List.range' 1 frames.length
  frames : FramesAt st walOffset frames
  tail : ∀ a, w.cursor + lengthField ≤ a → a < walEnd → st.bytes a = 0

variable {st st' : Storage} {off : ℕ} {fs frames : List Frame} {w w' : Wal} {req : AppendReq}
  {s : Log} {out : Log × AppendReply}

theorem framesAt_concat {f : Frame} : FramesAt st off (fs ++ [f]) ↔
      FramesAt st off fs ∧ FrameAt st (off + (framesBytes fs).length) f := by
  induction fs generalizing off with
  | nil => simp [FramesAt]
  | cons g fs ih =>
    simp only [cons_append, FramesAt, ih, framesBytes_cons, length_append,
      Frame.length_bytes, Nat.add_assoc, and_assoc]

theorem FramesAt.congr (h : FramesAt st off fs) (hcap : st'.capacity = st.capacity)
    (hbytes : ∀ a, a < off + (framesBytes fs).length → st'.bytes a = st.bytes a) :
    FramesAt st' off fs := by
  induction fs generalizing off with
  | nil => trivial
  | cons f fs ih =>
    obtain ⟨hf, hrest⟩ := h
    rw [framesBytes_cons, length_append, Frame.length_bytes, ← Nat.add_assoc] at hbytes
    refine ⟨⟨?_, hf.inside, hcap ▸ hf.room, hf.seq_pos, hf.seq_lt⟩, ih hrest hbytes⟩
    rw [← hf.bytes]
    apply Overlay.read_congr
    intro k hk
    exact hbytes _ (by omega)

theorem length_le_framesBytes (fs : List Frame) : 40 * fs.length ≤ (framesBytes fs).length := by
  induction fs with
  | nil => rfl
  | cons f fs ih =>
    have hf := f.req.le_frameLen
    rw [framesBytes_cons, length_append, Frame.length_bytes, length_cons]
    omega

theorem Holds.seq_lt (h : Holds frames w st) : w.seq + 1 < 2 ^ 64 := by
  have hlen := length_le_framesBytes frames
  have hcursor := h.cursor
  have hupper := h.upper
  have hseq := h.seq
  have hregion : walEnd = walOffset + 4194304 := rfl
  omega

theorem Holds.of_eq (h : Holds frames w st) (hcursor : w'.cursor = w.cursor) (hseq : w'.seq = w.seq) :
    Holds frames w' st :=
  ⟨hcursor ▸ h.cursor, hcursor ▸ h.upper, hseq ▸ h.seq, h.seqs, h.frames, hcursor ▸ h.tail⟩

theorem Holds.congr (h : Holds frames w st) (hcap : st'.capacity = st.capacity)
    (hbytes : ∀ a, a < walEnd → st'.bytes a = st.bytes a) : Holds frames w st' := by
  have hcursor := h.cursor
  have hupper := h.upper
  refine ⟨h.cursor, h.upper, h.seq, h.seqs, h.frames.congr hcap ?_, ?_⟩
  · intro a ha
    exact hbytes a (by omega)
  · intro a hlo hhi
    rw [hbytes a hhi]
    exact h.tail a hlo hhi

theorem holds_init (hzero : ∀ a, walOffset ≤ a → a < walEnd → st.bytes a = 0) (w : Wal) :
    Holds [] (walInit w) st where
  cursor := rfl
  upper := Nat.le_add_right _ _
  seq := rfl
  seqs := rfl
  frames := trivial
  tail := fun a hlo hhi => hzero a ((Nat.le_add_right _ _).trans hlo) hhi

theorem Holds.written (h : Holds frames w st) (hw : FrameWritten req w st w' st')
    (hin : w.cursor + req.frameLen ≤ walEnd) : Holds (frames ++ [⟨w.seq, req⟩]) w' st' := by
  have hseq := h.seq_lt
  have hlong := req.le_frameLen
  have hshort : lengthField = 12 := rfl
  have hbelow : ∀ a, a < w.cursor → st'.bytes a = st.bytes a := by
    intro a ha
    rw [hw.bytes]
    exact Overlay.write_below ha
  have hlen : (Frame.mk w.seq req).bytes.length = req.frameLen := Frame.length_bytes _
  have hnew : Overlay.read st'.bytes w.cursor req.frameLen = (Frame.mk w.seq req).bytes := by
    rw [hw.bytes]
    exact hlen ▸ Overlay.read_write_same st.bytes w.cursor (Frame.mk w.seq req).bytes
  refine ⟨?_, hw.cursor ▸ hin, ?_, ?_, framesAt_concat.mpr ⟨?_, ?_⟩, ?_⟩
  · rw [hw.cursor, h.cursor, framesBytes_concat, length_append, Frame.length_bytes,
      Nat.add_assoc]
  · rw [hw.seq, Nat.mod_eq_of_lt hseq, h.seq, length_append, length_singleton]
  · rw [map_append, h.seqs, length_append, length_singleton,
      range'_concat, map_singleton, h.seq, Nat.one_mul, Nat.add_comm 1]
  · exact h.frames.congr hw.capacity (fun a ha => hbelow a (h.cursor ▸ ha))
  · rw [← h.cursor]
    refine ⟨hnew, hin, hw.capacity ▸ hw.room, ?_, ?_⟩
    · rw [h.seq]
      exact Nat.succ_pos _
    · exact (Nat.lt_succ_self _).trans hseq
  · intro a hlo hhi
    rw [hw.cursor] at hlo
    rw [hw.bytes, Overlay.write_above _ (by omega)]
    exact h.tail a (by omega) hhi

theorem Holds.cut {bs : List UInt8} (h : Holds frames w st)
    (hbytes : st'.bytes = Overlay.write st.bytes w.cursor bs) (hlen : bs.length ≤ lengthField)
    (hcap : st'.capacity = st.capacity) : Holds frames w st' := by
  refine ⟨h.cursor, h.upper, h.seq, h.seqs, h.frames.congr hcap ?_, ?_⟩
  · intro a ha
    rw [hbytes]
    exact Overlay.write_below (h.cursor ▸ ha)
  · intro a hlo hhi
    rw [hbytes, Overlay.write_above _ (by omega)]
    exact h.tail a hlo hhi

def Tidy (st : Storage) (off len : ℕ) : Prop := ∀ k, CutShort st off len k → k ≤ lengthField

theorem FrameOutcome.holds {cap : ℕ} {rc : AppendRc} (h : FrameOutcome cap req w st (w', st', rc))
    (hh : Holds frames w st)
    (hin : w.cursor + req.frameLen ≤ cap → w.cursor + req.frameLen ≤ walEnd)
    (htidy : ∀ code, rc = .io code → w.cursor + req.frameLen ≤ walEnd →
      Tidy st w.cursor req.frameLen) :
    Holds (if rc = .ok then frames ++ [⟨w.seq, req⟩] else frames) w' st' := by
  cases h with
  | full _ =>
    rw [if_neg (by simp)]
    exact hh
  | cut _ hfit hk hbytes hcap =>
    have hshort := htidy _ rfl (hin hfit) _ hk
    rw [if_neg (by simp)]
    exact hh.cut hbytes ((length_take_le _ _).trans hshort) hcap
  | done hfit hroom hnone hbytes hcap hfaults =>
    rw [if_pos rfl]
    exact hh.written ⟨rfl, rfl, hroom, hbytes, hcap, hnone, hfaults⟩ (hin hfit)

def entryFrames (seq : ℕ) (req : AppendReq) : AppendReply → List Frame
  | ⟨.ok, some .ok⟩ => [⟨seq, req⟩, ⟨seq + 1, .payload (checkpointPayload (seq + 1))⟩]
  | ⟨.ok, _⟩ => [⟨seq, req⟩]
  | _ => []

def appendedFrames (h : List (Entry Log AppendReq AppendReply)) : List Frame :=
  h.flatMap fun e => entryFrames e.pre.wal.seq e.input e.reply

structure TidyAppend (s : Log) (req : AppendReq) (reply : AppendReply) : Prop where
  fits : RecordFits s req
  frame : ∀ code, reply.rc = .io code → s.wal.cursor + req.frameLen ≤ walEnd →
    Tidy s.st s.wal.cursor req.frameLen
  checkpoint : ∀ code, reply.checkpoint = some (.io code) →
    checkpointInterval ≤ s.wal.recordsSinceCheckpoint + 1 →
    (∀ o ∈ s.st.faults.take 2, o = none) →
    s.wal.cursor + req.frameLen + 48 ≤ walEnd →
    ∀ st : Storage, st.capacity = s.st.capacity → st.faults = s.st.faults.drop 2 →
      Tidy st (s.wal.cursor + req.frameLen) 48

theorem RecordFits.inside (h : RecordFits s req)
    (hfit : s.wal.cursor + req.frameLen ≤ req.limit s.st) :
    s.wal.cursor + req.frameLen ≤ walEnd := by
  cases req with
  | record r => exact h
  | payload p => exact hfit

theorem Appended.holds (h : Appended req s out) (hh : Holds frames s.wal s.st)
    (ht : TidyAppend s req out.2) :
    Holds (frames ++ entryFrames s.wal.seq req out.2) out.1.wal out.1.st := by
  cases h with
  | uninit _ =>
    rw [entryFrames, append_nil]
    · exact hh
    all_goals simp
  | @failed w st rc hframe hrc =>
    have hnow := hframe.holds hh ht.fits.inside ht.frame
    rw [if_neg hrc] at hnow
    rw [entryFrames, append_nil]
    · exact hnow
    all_goals simp [hrc]
  | alone hframe _ hcursor hseq =>
    have hnow := hframe.holds hh ht.fits.inside ht.frame
    rw [if_pos rfl] at hnow
    exact hnow.of_eq hcursor hseq
  | @checkpoint w wc w' w'' st st' rc hframe hdue hck _ hcursor hseq _ hcursor' hseq' =>
    have hwritten := hframe.written
    have hnow := hframe.holds hh ht.fits.inside ht.frame
    rw [if_pos rfl] at hnow
    have hwc : wc.cursor = s.wal.cursor + req.frameLen := hcursor.trans hwritten.cursor
    have hlen : (AppendReq.payload (checkpointPayload w.seq)).frameLen = 48 :=
      checkpoint_frameLen w.seq
    have hthen := hck.holds (hnow.of_eq hcursor hseq) id (by
      intro code hrc hin
      rw [hlen, hwc] at hin ⊢
      exact ht.checkpoint code (by rw [hrc]) hdue hwritten.clean hin st hwritten.capacity
        hwritten.faults)
    have hnext : w.seq = s.wal.seq + 1 := by
      rw [hwritten.seq, Nat.mod_eq_of_lt hh.seq_lt]
    rw [hseq, hnext] at hthen
    refine Holds.of_eq ?_ hcursor' hseq'
    by_cases hrc : rc = .ok
    · rw [if_pos hrc, append_assoc] at hthen
      rw [hrc]
      exact hthen
    · rw [if_neg hrc] at hthen
      have hone : entryFrames s.wal.seq req ⟨.ok, some rc⟩ = [⟨s.wal.seq, req⟩] := by
        cases rc <;> first | rfl | exact absurd rfl hrc
      rw [hone]
      exact hthen

theorem appends_hold {Q : Entry Log AppendReq AppendReply → Prop}
    (hzero : ∀ a, walOffset ≤ a → a < walEnd → st.bytes a = 0)
    (htidy : ∀ s req, s.st.capacity = st.capacity → Q (entry logStep s req) →
      TidyAppend s req (logStep s req).2)
    {reqs : List AppendReq} (hQ : ∀ e ∈ trace logStep ⟨walInit w, st⟩ reqs, Q e) :
    Holds (appendedFrames (trace logStep ⟨walInit w, st⟩ reqs))
      (exec logStep ⟨walInit w, st⟩ reqs).wal
      (exec logStep ⟨walInit w, st⟩ reqs).st := by
  refine (trace_induction_of logStep (P := fun h s =>
    Holds (appendedFrames h) s.wal s.st ∧ s.st.capacity = st.capacity) ?_ ?_ reqs hQ).1
  · exact ⟨holds_init hzero w, rfl⟩
  · intro h s req hnow ⟨hh, hcap⟩
    have hout := logStep_appended s req
    refine ⟨?_, hout.capacity.trans hcap⟩
    rw [appendedFrames, flatMap_append, flatMap_singleton]
    exact hout.holds hh (htidy s req hcap hnow)

theorem Holds.nextHeader_cursor (h : Holds frames w st) : nextHeader st w.cursor = none := by
  have hhdr : headerBytes = lengthField + (4 + 8) := rfl
  unfold nextHeader
  split_ifs with hend
  · rfl
  unfold Storage.readBlock
  split_ifs
  · rfl
  have hzero : (Header.decode (Overlay.read st.bytes w.cursor headerBytes)).len = 0 := by
    apply Header.decode_len_zero
    intro b hb
    rw [hhdr, Overlay.read_append, Overlay.read_append, drop_left' (Overlay.length_read ..),
      take_left' (Overlay.length_read ..), Overlay.read, mem_ofFn] at hb
    obtain ⟨k, rfl⟩ := hb
    exact h.tail _ (Nat.le_add_right _ _) (by omega)
  simp only
  rw [if_pos (.inr (by rw [hzero]; decide))]

theorem getLastD_range' {n : ℕ} : (List.range' 1 n).getLastD 0 = n := by
  cases n with
  | zero => rfl
  | succ n => rw [range'_concat, getLastD_concat]; omega

/-- A re-init and replay visits exactly `frames`, in order, and restores cursor and sequence number.
-/
def Recovers (frames : List Frame) (w : Wal) (st : Storage) : Prop :=
  ∀ (w₀ : Wal) (g : Graph) (d : Blkdev), SameLog d.st st → walEnd ≤ d.heapOff →
    ∃ w' out, walReplayFiles (walInit w₀) (g, d) = some (w', out) ∧
      List.Forall₂ Visited frames out.visits ∧ w'.cursor = w.cursor ∧ w'.seq = w.seq

theorem applyRecord_sameLog {s : Graph × Blkdev} (h : SameLog s.2.st st ∧ walEnd ≤ s.2.heapOff)
    (r : Record) :
    SameLog (applyRecord s r).1.2.st st ∧ walEnd ≤ (applyRecord s r).1.2.heapOff := by
  obtain ⟨hlog, hheap⟩ := h
  have hfile : ∀ g id off buf, SameLog (fileWrite g s.2 id off buf).2.1.st st ∧
      walEnd ≤ (fileWrite g s.2 id off buf).2.1.heapOff := by
    intro g id off buf
    have hsame := fileWrite_same g s.2 id off buf
    refine ⟨⟨hsame.capacity.trans hlog.capacity, fun a hlo hhi => ?_⟩, hsame.heapOff ▸ hheap⟩
    rw [fileWrite_below g s.2 id off buf (hhi.trans_le hheap)]
    exact hlog.bytes a hlo hhi
  unfold applyRecord
  cases r.kind with
  | write =>
    simp only
    split_ifs
    · exact hfile ..
    · split
      · exact ⟨hlog, hheap⟩
      · exact hfile ..
  | install =>
    simp only
    split
    · exact ⟨hlog, hheap⟩
    · exact hfile ..
  | _ => exact ⟨hlog, hheap⟩

theorem Holds.scanned (h : Holds frames w st) (g : Graph) {d : Blkdev} (hlog : SameLog d.st st)
    (hheap : walEnd ≤ d.heapOff) :
    Scanned applyRecord frames (g, d) walOffset 0
      (scanLoop (fun s : Graph × Blkdev => s.2.st) applyRecord (g, d) walOffset 0) :=
  scanLoop_frames (fun s : Graph × Blkdev => s.2.st) applyRecord
    (P := fun s => SameLog s.2.st st ∧ walEnd ≤ s.2.heapOff) (fun _ hs => hs.1)
    (fun _ r hs => applyRecord_sameLog hs r) frames (g, d) walOffset 0 ⟨hlog, hheap⟩
    (Nat.le_refl _) h.frames (h.cursor ▸ h.nextHeader_cursor)

theorem Holds.recovers (h : Holds frames w st) : Recovers frames w st := by
  intro w₀ g d hlog hheap
  have hscan := h.scanned g hlog hheap
  have hlast := hscan.lastSeq
  rw [h.seqs, getLastD_range'] at hlast
  refine ⟨_, _, rfl, hscan.visits, hscan.off.trans h.cursor.symm, ?_⟩
  simp only [hlast, h.seq]
  have hseq := h.seq_lt
  rw [h.seq] at hseq
  change (if 1 ≤ frames.length then (frames.length + 1) % 2 ^ 64 else 1) = frames.length + 1
  split_ifs with hne
  · exact Nat.mod_eq_of_lt (by omega)
  · omega

/-- Append and checkpoint returned `0`, or the checkpoint found no room and wrote nothing; the frame
fits in the log's region. -/
structure AppendOk (e : Entry Log AppendReq AppendReply) : Prop where
  rc : e.reply.rc = .ok
  checkpoint : ∀ rc ∈ e.reply.checkpoint, rc = .ok ∨ rc = .full
  fits : e.pre.wal.cursor + e.input.frameLen ≤ walEnd

/-- From a zeroed region, appends that succeed and fit are replayed frame by frame. -/
theorem replay_after_appends (w : Wal) (st : Storage)
    (hzero : ∀ a, walOffset ≤ a → a < walEnd → st.bytes a = 0) (reqs : List AppendReq)
    (hok : ∀ e ∈ trace logStep ⟨walInit w, st⟩ reqs, AppendOk e) :
    Recovers (appendedFrames (trace logStep ⟨walInit w, st⟩ reqs))
      (exec logStep ⟨walInit w, st⟩ reqs).wal
      (exec logStep ⟨walInit w, st⟩ reqs).st := by
  refine Holds.recovers (appends_hold hzero ?_ hok)
  intro s req _ h
  refine ⟨?_, ?_, ?_⟩
  · cases req with
    | record r => exact h.fits
    | payload p => trivial
  · intro code hrc
    have hcontra : AppendRc.ok = .io code := h.rc.symm.trans hrc
    cases hcontra
  · intro code hck
    rcases h.checkpoint _ hck with hrc | hrc <;> cases hrc

def twoAppends : List AppendReq := [.record someRecord, .payload (checkpointPayload 2)]

theorem twoAppends_ok :
    ∀ e ∈ trace logStep ⟨walInit bootWal, blankImage⟩ twoAppends, AppendOk e := by
  intro e he
  simp only [twoAppends, trace, mem_cons, not_mem_nil, or_false] at he
  rcases he with rfl | rfl
  · exact ⟨by decide +kernel, by decide +kernel, by decide +kernel⟩
  · exact ⟨by decide +kernel, by decide +kernel, by decide +kernel⟩

theorem replay_after_appends_twoAppends :
    Recovers (appendedFrames (trace logStep ⟨walInit bootWal, blankImage⟩ twoAppends))
      (exec logStep ⟨walInit bootWal, blankImage⟩ twoAppends).wal
      (exec logStep ⟨walInit bootWal, blankImage⟩ twoAppends).st :=
  replay_after_appends bootWal blankImage (fun _ _ _ => rfl) twoAppends twoAppends_ok

def CleanFrame : List (Option Fault) → Prop
  | some f :: _ => f.written ≤ lengthField
  | none :: some _ :: _ => False
  | _ => True

theorem CleanFrame.tidy (h : CleanFrame st.faults) {len : ℕ} (hroom : off + len ≤ st.capacity) :
    Tidy st off len := by
  intro k hk
  cases hk with
  | range hshort => omega
  | header hf hk =>
    rw [hf] at h
    exact hk.trans h
  | payload hf _ =>
    rw [hf] at h
    exact h.elim

structure CleanAppend (s : Log) (req : AppendReq) : Prop where
  fits : RecordFits s req
  frame : s.wal.cursor + req.frameLen ≤ walEnd → CleanFrame s.st.faults
  checkpoint : checkpointInterval ≤ s.wal.recordsSinceCheckpoint + 1 →
    (∀ o ∈ s.st.faults.take 2, o = none) → s.wal.cursor + req.frameLen + 48 ≤ walEnd →
    CleanFrame (s.st.faults.drop 2)

/-- In every run of clean appends a replay recovers exactly the records whose append returned `0`.
-/
theorem replay_after_failures (w : Wal) (st : Storage) (hcap : walEnd ≤ st.capacity)
    (hzero : ∀ a, walOffset ≤ a → a < walEnd → st.bytes a = 0) (reqs : List AppendReq)
    (hclean : ∀ e ∈ trace logStep ⟨walInit w, st⟩ reqs, CleanAppend e.pre e.input) :
    Recovers (appendedFrames (trace logStep ⟨walInit w, st⟩ reqs))
      (exec logStep ⟨walInit w, st⟩ reqs).wal
      (exec logStep ⟨walInit w, st⟩ reqs).st := by
  refine Holds.recovers (appends_hold hzero ?_ hclean)
  intro s req hsize h
  have hsize' : walEnd ≤ s.st.capacity := hsize ▸ hcap
  refine ⟨h.fits, ?_, ?_⟩
  · intro _ _ hin
    have hframe : CleanFrame s.st.faults := h.frame hin
    exact hframe.tidy (hin.trans hsize')
  · intro _ _ hdue hnone hin st' hcap' hfaults
    have hck : CleanFrame st'.faults := hfaults ▸ h.checkpoint hdue hnone hin
    exact hck.tidy (by omega)

def flakyImage : Storage := { blankImage with faults := [some ⟨5, -5, eio_neg⟩] }

def twoRecords : List AppendReq := [.record someRecord, .record someRecord]

theorem replay_after_failures_twoRecords :
    Recovers (appendedFrames (trace logStep ⟨walInit bootWal, flakyImage⟩ twoRecords))
      (exec logStep ⟨walInit bootWal, flakyImage⟩ twoRecords).wal
      (exec logStep ⟨walInit bootWal, flakyImage⟩ twoRecords).st := by
  refine replay_after_failures bootWal flakyImage (by decide) (fun _ _ _ => rfl) twoRecords ?_
  have hroom : walOffset + (AppendReq.record someRecord).frameLen ≤ walEnd := by
    rw [record_frameLen]
    decide
  intro e he
  simp only [twoRecords, trace, mem_cons, not_mem_nil, or_false] at he
  generalize hs : (logStep ⟨walInit bootWal, flakyImage⟩ (.record someRecord)).1 = s at he
  have hcursor : s.wal.cursor = walOffset := by
    rw [← hs]
    decide +kernel
  have hcount : s.wal.recordsSinceCheckpoint = 0 := by
    rw [← hs]
    decide +kernel
  have hfaults : s.st.faults.isEmpty = true := by
    rw [← hs]
    decide +kernel
  rcases he with rfl | rfl
  · refine ⟨hroom, fun _ => ?_, fun hdue => absurd hdue (by decide)⟩
    change 5 ≤ lengthField
    decide
  · refine ⟨?_, fun _ => ?_, fun hdue => ?_⟩
    · change s.wal.cursor + _ ≤ walEnd
      rw [hcursor]
      exact hroom
    · change CleanFrame s.st.faults
      rw [List.isEmpty_iff.mp hfaults]
      trivial
    · change checkpointInterval ≤ s.wal.recordsSinceCheckpoint + 1 at hdue
      rw [hcount] at hdue
      exact absurd hdue (by decide)

def tornImage : Storage := { blankImage with faults := [none, some ⟨recordBytes, -5, eio_neg⟩] }

def emptyStore (st : Storage) : Blkdev where
  st
  regionOff := dataOffset
  totalBlocks := 0
  bitmapOff := dataOffset
  bitmapBytes := 0
  heapOff := dataOffset
  used := 0
  bitmapDirty := false
  bitmap := fun _ => false
  cache := fun _ => emptySlot
  lruTick := 0

theorem not_recovers_nil {w : Wal} (hframe : (nextHeader st walOffset).isSome = true) :
    ¬ Recovers [] w st := by
  intro hrecovers
  obtain ⟨_, out, hreplay, hvisits, -, -⟩ := hrecovers bootWal graphInit (emptyStore st) (.refl st)
    (Nat.le_refl _)
  have hinit : (walInit bootWal).initialised = true := rfl
  rw [walReplayFiles, replayWith, if_pos hinit, Option.some.injEq, Prod.mk.injEq] at hreplay
  rw [← hreplay.2, forall₂_nil_left_iff, scanLoop] at hvisits
  split at hvisits
  · rename_i hnext
    change nextHeader st walOffset = none at hnext
    rw [hnext] at hframe
    cases hframe
  · cases hvisits

theorem failed_append_replayed :
    (logStep ⟨walInit bootWal, tornImage⟩ (.record someRecord)).2.rc.code < 0 ∧
      ¬ Recovers (appendedFrames
          (trace logStep ⟨walInit bootWal, tornImage⟩ [.record someRecord]))
        (exec logStep ⟨walInit bootWal, tornImage⟩ [.record someRecord]).wal
        (exec logStep ⟨walInit bootWal, tornImage⟩ [.record someRecord]).st := by
  have hnone : appendedFrames (trace logStep ⟨walInit bootWal, tornImage⟩ [.record someRecord]) =
      [] := isEmpty_iff.mp (by decide +kernel)
  refine ⟨by decide +kernel, ?_⟩
  rw [hnone]
  exact not_recovers_nil (by decide +kernel)

end SotOs.Sotfs
