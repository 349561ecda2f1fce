import SotOs.Sotfs.Wal

/-! What one append does to the image: nothing, a frame cut short at the cursor, or a whole frame
and a step of the cursor. -/

namespace SotOs.Sotfs
open AppendReq

open Overlay List

def AppendReq.kind : AppendReq → ℕ
  | .record r => r.kind.code
  | .payload p => p.kind.code

def AppendReq.bytes : AppendReq → List UInt8
  | .record r => r.encode
  | .payload p => p.bytes

@[irreducible] def AppendReq.frameLen (req : AppendReq) : ℕ := headerBytes + req.bytes.length

def AppendReq.limit (st : Storage) : AppendReq → ℕ
  | .record _ => st.capacity
  | .payload _ => walEnd

structure Frame where
  seq : ℕ
  req : AppendReq

def Frame.header (f : Frame) : Header := frameHeader f.seq f.req.kind f.req.bytes

def Frame.bytes (f : Frame) : List UInt8 := f.header.encode ++ f.req.bytes

@[simp] theorem Frame.length_bytes (f : Frame) : f.bytes.length = f.req.frameLen := by
  rw [Frame.bytes, length_append, Header.length_encode, frameLen]

theorem AppendReq.length_bytes_lt (req : AppendReq) : req.bytes.length < 1024 := by
  cases req with
  | record r => rw [bytes, Record.length_encode]; decide
  | payload p =>
    rw [bytes, p.length_bytes]
    cases p.kind <;> decide

theorem AppendReq.le_frameLen (req : AppendReq) : 40 ≤ req.frameLen := by
  have hlen : 16 ≤ req.bytes.length := by
    cases req with
    | record r => rw [bytes, Record.length_encode]; decide
    | payload p =>
      rw [bytes, p.length_bytes]
      cases p.kind <;> decide
  unfold frameLen headerBytes
  omega

theorem record_frameLen (r : Record) : (record r).frameLen = 848 := by
  rw [frameLen, bytes, Record.length_encode]
  rfl

theorem checkpoint_frameLen (seq : ℕ) :
    (payload (checkpointPayload seq)).frameLen = 48 := by
  rw [frameLen, bytes, (checkpointPayload seq).length_bytes]
  rfl

theorem AppendReq.kind_lt (req : AppendReq) : req.kind < 256 ^ 4 := by
  cases req with
  | record r => rw [kind]; cases r.kind <;> decide
  | payload p => rw [kind]; cases p.kind <;> decide

theorem Frame.header_fits {f : Frame} (hseq : f.seq < 2 ^ 64) : f.header.Fits where
  seq := hseq
  kind := f.req.kind_lt
  len := by
    have hlen := f.req.length_bytes_lt
    change headerBytes + f.req.bytes.length < 256 ^ 4
    unfold headerBytes
    omega
  crc := (crc64 f.req.bytes).toNat_lt

theorem logStep_eq (s : Log) (req : AppendReq) : logStep s req =
      let out := appendFrame (req.limit s.st) req.kind req.bytes s.wal s.st
      (⟨out.1, out.2.1⟩, out.2.2) := by
  cases req <;> rfl

inductive CutShort (st : Storage) (off len k : ℕ) : Prop
  | range (h : st.capacity < off + len)
  | header {f fs} (h : st.faults = some f :: fs) (hk : k ≤ f.written)
  | payload {f fs} (h : st.faults = none :: some f :: fs) (hk : k = headerBytes + f.written)

inductive FrameOutcome (cap : ℕ) (req : AppendReq) (w : Wal) (st : Storage) :
    Wal × Storage × AppendRc → Prop
  | full (h : cap < w.cursor + req.frameLen) : FrameOutcome cap req w st (w, st, .full)
  | cut {k rc st'} (hneg : rc < 0) (hfit : w.cursor + req.frameLen ≤ cap)
      (hk : CutShort st w.cursor req.frameLen k)
      (hbytes : st'.bytes = write st.bytes w.cursor ((Frame.mk w.seq req).bytes.take k))
      (hcap : st'.capacity = st.capacity) : FrameOutcome cap req w st (w, st', .io rc)
  | done {st'} (hfit : w.cursor + req.frameLen ≤ cap)
      (hroom : w.cursor + req.frameLen ≤ st.capacity)
      (hnone : ∀ o ∈ st.faults.take 2, o = none)
      (hbytes : st'.bytes = write st.bytes w.cursor (Frame.mk w.seq req).bytes)
      (hcap : st'.capacity = st.capacity) (hfaults : st'.faults = st.faults.drop 2) :
      FrameOutcome cap req w st
        ({ w with cursor := w.cursor + req.frameLen, seq := (w.seq + 1) % 2 ^ 64 }, st', .ok)

theorem Storage.writeBlock_cases (st : Storage) (off : ℕ) (buf : List UInt8) :
    (st.capacity < off + buf.length ∧ st.writeBlock off buf = (st, -28)) ∨
    (off + buf.length ≤ st.capacity ∧ ∃ f fs, st.faults = some f :: fs ∧
      st.writeBlock off buf = (⟨write st.bytes off (buf.take f.written), st.capacity, fs⟩, f.rc)) ∨
    (off + buf.length ≤ st.capacity ∧ (∀ o ∈ st.faults.take 1, o = none) ∧
      st.writeBlock off buf = (⟨write st.bytes off buf, st.capacity, st.faults.tail⟩,
        (buf.length : ℤ))) := by
  by_cases hcap : st.capacity < off + buf.length
  · exact .inl ⟨hcap, by rw [writeBlock, if_pos hcap]⟩
  have hle : off + buf.length ≤ st.capacity := Nat.not_lt.mp hcap
  rcases hf : st.faults with _ | ⟨_ | f, fs⟩
  · exact .inr (.inr ⟨hle, by simp, by rw [writeBlock, if_neg hcap, hf]⟩)
  · exact .inr (.inr ⟨hle, by simp, by rw [writeBlock, if_neg hcap, hf]⟩)
  · exact .inr (.inl ⟨hle, f, fs, rfl, by rw [writeBlock, if_neg hcap, hf]⟩)

theorem writeFrame_outcome (cap : ℕ) (req : AppendReq) (w : Wal) (st : Storage) :
    FrameOutcome cap req w st (writeFrame cap req.kind req.bytes w st) := by
  obtain ⟨hdr, hhdr⟩ : ∃ hdr, hdr = frameHeader w.seq req.kind req.bytes := ⟨_, rfl⟩
  have hlen : hdr.len = req.frameLen := by rw [hhdr, frameLen]; rfl
  have henc : hdr.encode.length = headerBytes := hdr.length_encode
  have hframe : (Frame.mk w.seq req).bytes = hdr.encode ++ req.bytes := by rw [hhdr]; rfl
  unfold writeFrame
  rw [← hhdr]
  simp only [hlen]
  by_cases hfull : cap < w.cursor + req.frameLen
  · rw [if_pos hfull]
    exact .full hfull
  rw [if_neg hfull]
  have hfit : w.cursor + req.frameLen ≤ cap := Nat.not_lt.mp hfull
  have hsplit : req.frameLen = headerBytes + req.bytes.length := by rw [frameLen]
  rcases st.writeBlock_cases w.cursor hdr.encode with
    ⟨hshort, heq⟩ | ⟨-, f, fs, hfaults, heq⟩ | ⟨hcap, hnone, heq⟩
  · rw [heq]
    refine .cut (k := 0) (show (-28 : ℤ) < 0 by decide) hfit (.range (by omega)) ?_ rfl
    funext a
    simp [write]
  · rw [heq]
    simp only [if_pos f.neg]
    refine .cut f.neg hfit (.header hfaults (Nat.min_le_left f.written headerBytes)) ?_ rfl
    rw [hframe, ← take_take, ← henc, take_left]
  · rw [heq]
    simp only [if_neg (Int.not_lt.mpr (Int.natCast_nonneg _))]
    have hpatch : ∀ tail, write (write st.bytes w.cursor hdr.encode)
        (w.cursor + headerBytes) tail = write st.bytes w.cursor (hdr.encode ++ tail) := by
      intro tail
      rw [← henc]
      exact write_append
    rcases Storage.writeBlock_cases ⟨_, st.capacity, st.faults.tail⟩ (w.cursor + headerBytes)
      req.bytes with ⟨hshort, heq⟩ | ⟨-, f, fs, hfaults, heq⟩ | ⟨hcap, hnone', heq⟩
    · rw [heq]
      refine .cut (k := headerBytes) (show (-28 : ℤ) < 0 by decide) hfit (.range ?_) ?_ rfl
      · exact hshort.trans_eq (by omega)
      · rw [hframe, ← henc, take_left]
    · rw [heq]
      simp only [if_pos f.neg]
      -- the write of the header took the first entry of the script, which was no fault
      have hscript : st.faults = none :: some f :: fs := by
        rcases hf : st.faults with _ | ⟨o, rest⟩
        · rw [hf] at hfaults; cases hfaults
        · rw [hf] at hfaults hnone
          rw [hnone o (by simp), show rest = some f :: fs from hfaults]
      refine .cut f.neg hfit (.payload hscript rfl) ?_ rfl
      rw [hpatch, hframe, ← henc, take_length_add_append]
    · rw [heq]
      simp only [if_neg (Int.not_lt.mpr (Int.natCast_nonneg _))]
      refine .done hfit ?_ ?_ ?_ rfl ?_
      · exact (by omega : _ = w.cursor + headerBytes + req.bytes.length).le.trans hcap
      · intro o ho
        rcases hf : st.faults with _ | ⟨o', rest⟩
        · rw [hf] at ho; cases ho
        rw [hf] at ho hnone hnone'
        rcases mem_cons.mp ho with rfl | ho
        · exact hnone o (by simp)
        · exact hnone' o ho
      · rw [hpatch, hframe]
      · rw [← drop_one, ← drop_one, drop_drop]

variable {cap : ℕ} {req : AppendReq} {out : Wal × Storage × AppendRc}

variable {w : Wal} {st : Storage}

theorem FrameOutcome.bytes_outside (h : FrameOutcome cap req w st out)
    {a : ℕ} (ha : w.cursor + req.frameLen ≤ cap → a < w.cursor ∨ w.cursor + req.frameLen ≤ a) :
    out.2.1.bytes a = st.bytes a := by
  cases h with
  | full _ => rfl
  | @cut k _ _ _ hfit _ hbytes _ =>
    have hlen : ((Frame.mk w.seq req).bytes.take k).length ≤ req.frameLen :=
      (length_take_le' k _).trans_eq (Frame.length_bytes _)
    rcases ha hfit with hlt | hge
    · exact (congrFun hbytes a).trans (write_below hlt)
    · exact (congrFun hbytes a).trans (write_above _ (by omega))
  | done hfit _ _ hbytes _ _ =>
    rcases ha hfit with hlt | hge
    · exact (congrFun hbytes a).trans (write_below hlt)
    · refine (congrFun hbytes a).trans (write_above _ ?_)
      rwa [Frame.length_bytes]

theorem FrameOutcome.cursor (h : FrameOutcome cap req w st out) :
    out.1.cursor = w.cursor ∨
      (out.1.cursor = w.cursor + req.frameLen ∧ w.cursor + req.frameLen ≤ cap) := by
  cases h with
  | full _ => exact .inl rfl
  | cut _ _ _ _ _ => exact .inl rfl
  | done hfit _ _ _ _ _ => exact .inr ⟨rfl, hfit⟩

theorem FrameOutcome.capacity (h : FrameOutcome cap req w st out) :
    out.2.1.capacity = st.capacity := by
  cases h with
  | full _ => rfl
  | cut _ _ _ _ hcap => exact hcap
  | done _ _ _ _ hcap _ => exact hcap

structure FrameWritten (req : AppendReq) (w : Wal) (st : Storage) (w' : Wal) (st' : Storage) :
    Prop where
  cursor : w'.cursor = w.cursor + req.frameLen
  seq : w'.seq = (w.seq + 1) % 2 ^ 64
  room : w.cursor + req.frameLen ≤ st.capacity
  bytes : st'.bytes = write st.bytes w.cursor (Frame.mk w.seq req).bytes
  capacity : st'.capacity = st.capacity
  clean : ∀ o ∈ st.faults.take 2, o = none
  faults : st'.faults = st.faults.drop 2

theorem FrameOutcome.written {w' : Wal} {st st' : Storage}
    (h : FrameOutcome cap req w st (w', st', .ok)) : FrameWritten req w st w' st' := by
  cases h with
  | done _ hroom hnone hbytes hcap hfaults =>
    exact ⟨rfl, rfl, hroom, hbytes, hcap, hnone, hfaults⟩

theorem FrameOutcome.initialised (h : FrameOutcome cap req w st out) :
    out.1.initialised = w.initialised := by
  cases h <;> rfl

theorem CutShort.short {off len k : ℕ} (h : CutShort st off len k)
    (hs : st.Sound) : st.capacity < off + len := by
  unfold Storage.Sound at hs
  cases h with
  | range hshort => exact hshort
  | header hf _ => rw [hs] at hf; cases hf
  | payload hf _ => rw [hs] at hf; cases hf

theorem FrameOutcome.of_sound {w' : Wal} {st st' : Storage} {rc : AppendRc}
    (h : FrameOutcome cap req w st (w', st', rc)) (hs : st.Sound)
    (hroom : w.cursor + req.frameLen ≤ st.capacity) (hfit : w.cursor + req.frameLen ≤ cap) :
    rc = .ok := by
  cases h with
  | full hfull => omega
  | cut _ _ hk _ _ => exact absurd hroom (Nat.not_le.mpr (hk.short hs))
  | done _ _ _ _ _ _ => rfl

theorem FrameOutcome.sound {w' : Wal} {st st' : Storage} {rc : AppendRc}
    (h : FrameOutcome cap req w st (w', st', rc)) (hs : st.Sound)
    (hroom : w.cursor + req.frameLen ≤ cap → w.cursor + req.frameLen ≤ st.capacity) :
    st'.Sound := by
  cases h with
  | full _ => exact hs
  | cut _ hfit hk _ _ => exact absurd (hroom hfit) (Nat.not_le.mpr (hk.short hs))
  | done _ _ _ _ _ hfaults =>
    unfold Storage.Sound at hs
    exact hfaults.trans (by rw [hs]; rfl)

inductive Appended (req : AppendReq) (s : Log) : Log × AppendReply → Prop
  | uninit (h : s.wal.initialised = false) : Appended req s (s, ⟨.uninit, none⟩)
  | failed {w st rc} (h : FrameOutcome (req.limit s.st) req s.wal s.st (w, st, rc))
      (hrc : rc ≠ .ok) : Appended req s (⟨w, st⟩, ⟨rc, none⟩)
  | alone {w w' st} (h : FrameOutcome (req.limit s.st) req s.wal s.st (w, st, .ok))
      (hinit : w'.initialised = w.initialised) (hcursor : w'.cursor = w.cursor)
      (hseq : w'.seq = w.seq) : Appended req s (⟨w', st⟩, ⟨.ok, none⟩)
  | checkpoint {w wc w' w'' st st' rc}
      (h : FrameOutcome (req.limit s.st) req s.wal s.st (w, st, .ok))
      (hdue : checkpointInterval ≤ s.wal.recordsSinceCheckpoint + 1)
      (hck : FrameOutcome walEnd (.payload (checkpointPayload w.seq)) wc st (w', st', rc))
      (hinit : wc.initialised = w.initialised) (hcursor : wc.cursor = w.cursor)
      (hseq : wc.seq = w.seq) (hinit' : w''.initialised = w'.initialised)
      (hcursor' : w''.cursor = w'.cursor) (hseq' : w''.seq = w'.seq) :
      Appended req s (⟨w'', st'⟩, ⟨.ok, some rc⟩)

theorem logStep_appended (s : Log) (req : AppendReq) : Appended req s (logStep s req) := by
  rw [logStep_eq]
  unfold appendFrame
  split_ifs with hinit
  · have h := writeFrame_outcome (req.limit s.st) req s.wal s.st
    generalize writeFrame (req.limit s.st) req.kind req.bytes s.wal s.st = out at h ⊢
    obtain ⟨w, st, rc⟩ := out
    cases rc with
    | ok =>
      have hrecords : w.recordsSinceCheckpoint = s.wal.recordsSinceCheckpoint := by
        cases h
        rfl
      simp only [maybeCheckpoint]
      split_ifs with hin hfew
      · exact .alone h rfl rfl rfl
      · exact .alone h rfl rfl rfl
      have hck := writeFrame_outcome walEnd (.payload (checkpointPayload w.seq))
        { w with recordsSinceCheckpoint := 0, inCheckpoint := true } st
      simp only [kind, bytes] at hck
      generalize writeFrame walEnd _ _ _ st = out at hck ⊢
      obtain ⟨w', st', rc⟩ := out
      exact .checkpoint h (by omega) hck rfl rfl rfl rfl rfl rfl
    | uninit => exact .failed h (by simp)
    | full => exact .failed h (by simp)
    | io rc => exact .failed h (by simp)
  · exact .uninit (Bool.not_eq_true _ ▸ hinit)

theorem Appended.capacity {s : Log} {out : Log × AppendReply} (h : Appended req s out) :
    out.1.st.capacity = s.st.capacity := by
  cases h with
  | uninit _ => rfl
  | failed hframe _ => exact hframe.capacity
  | alone hframe _ _ _ => exact hframe.capacity
  | checkpoint hframe _ hck _ _ _ _ _ _ => exact hck.capacity.trans hframe.capacity

end SotOs.Sotfs
