import SotOs.Sotfs.WalSpec

/-! Where appends write: below the end of the log's region as long as every file-system record finds
room there, and past it, into the block store, once one does not. -/

namespace SotOs.Sotfs

open Machine Overlay List

def RecordFits (s : Log) : AppendReq → Prop
  | .record r => s.wal.cursor + (AppendReq.record r).frameLen ≤ walEnd
  | .payload _ => True

structure Confined (bytes : ℕ → UInt8) (w : Wal) (st : Storage) : Prop where
  lower : walOffset ≤ w.cursor
  upper : w.cursor ≤ walEnd
  outside : ∀ a, a < walOffset ∨ walEnd ≤ a → st.bytes a = bytes a

variable {req : AppendReq} {w : Wal} {st : Storage} {s : Log} {b : UInt8} {n : ℕ} {r : Record}

variable {bytes : ℕ → UInt8} {rest : List UInt8}

theorem FrameOutcome.confined {cap : ℕ} {out : Wal × Storage × AppendRc}
    (h : FrameOutcome cap req w st out)
    (hin : w.cursor + req.frameLen ≤ cap → w.cursor + req.frameLen ≤ walEnd)
    (hc : Confined bytes w st) : Confined bytes out.1 out.2.1 := by
  have hlower := hc.lower
  have hupper := hc.upper
  refine ⟨?_, ?_, ?_⟩
  · rcases h.cursor with heq | ⟨heq, -⟩ <;> omega
  · rcases h.cursor with heq | ⟨heq, hfit⟩
    · omega
    · exact heq.trans_le (hin hfit)
  · intro a ha
    rw [← hc.outside a ha]
    apply h.bytes_outside
    intro hfit
    have hend := hin hfit
    omega

theorem Confined.of_cursor {w' : Wal} (hc : Confined bytes w st)
    (h : w'.cursor = w.cursor) : Confined bytes w' st :=
  ⟨h ▸ hc.lower, h ▸ hc.upper, hc.outside⟩

theorem Appended.confined {out : Log × AppendReply} (h : Appended req s out)
    (hfits : RecordFits s req) (hc : Confined bytes s.wal s.st) :
    Confined bytes out.1.wal out.1.st := by
  have hin : s.wal.cursor + req.frameLen ≤ req.limit s.st →
      s.wal.cursor + req.frameLen ≤ walEnd := by
    cases req with
    | record r => exact fun _ => hfits
    | payload p => exact id
  cases h with
  | uninit _ => exact hc
  | failed h _ => exact h.confined hin hc
  | alone h _ hcursor _ => exact (h.confined hin hc).of_cursor hcursor
  | checkpoint h _ hck _ hcursor _ _ hcursor' _ =>
    have hrecord := (h.confined hin hc).of_cursor hcursor
    exact (hck.confined id hrecord).of_cursor hcursor'

/-- In every run whose records find room in the log's region, nothing outside of it changes. -/
theorem appends_confined (w : Wal) (st : Storage) (reqs : List AppendReq)
    (hfits : ∀ e ∈ trace logStep ⟨walInit w, st⟩ reqs, RecordFits e.pre e.input) {a : ℕ}
    (ha : a < walOffset ∨ walEnd ≤ a) :
    (exec logStep ⟨walInit w, st⟩ reqs).st.bytes a = st.bytes a := by
  have hrun : Confined st.bytes (exec logStep ⟨walInit w, st⟩ reqs).wal
      (exec logStep ⟨walInit w, st⟩ reqs).st := by
    refine exec_invariant_of logStep (P := fun s => Confined st.bytes s.wal s.st)
      ?_ ?_ reqs hfits
    · intro s req hnow hc
      exact (logStep_appended s req).confined hnow hc
    · exact ⟨Nat.le_refl _, Nat.le_add_right _ _, fun _ _ => rfl⟩
  exact hrun.outside a ha

def bootWal : Wal := ⟨0, 0, false, 0, false⟩

def blankImage : Storage := ⟨fun _ => 0, imgTotalBytes, []⟩

def someRecord : Record := unlinkRecord 1 0 1 [97]

theorem appends_confined_oneRecord :
    (exec logStep ⟨walInit bootWal, blankImage⟩ [.record someRecord]).st.bytes
      dataOffset = 0 := by
  refine appends_confined bootWal blankImage [.record someRecord] ?_ (.inr (Nat.le_refl _))
  intro e he
  rw [trace, trace, mem_singleton] at he
  subst he
  change walOffset + (AppendReq.record someRecord).frameLen ≤ walEnd
  rw [record_frameLen]
  decide

structure Growing (n : ℕ) (s : Log) : Prop where
  initialised : s.wal.initialised = true
  sound : s.st.Sound
  capacity : s.st.capacity = imgTotalBytes
  lower : walOffset + 848 * n ≤ s.wal.cursor
  upper : s.wal.cursor ≤ walOffset + 896 * n

theorem write_frame_payload {seq : ℕ} (hreq : req.bytes = b :: rest)
    {m : ℕ → UInt8} {off : ℕ} : write m off (Frame.mk seq req).bytes (off + headerBytes) = b := by
  have henc := Header.length_encode (Frame.mk seq req).header
  have hsplit : (Frame.mk seq req).bytes = (Frame.mk seq req).header.encode ++ req.bytes := rfl
  rw [hsplit, ← write_append, henc, hreq]
  have hzero : 0 < (b :: rest).length := Nat.zero_lt_succ _
  exact write_within hzero

theorem Growing.bounds {c : ℕ} (h : Growing n s) (hmore : s.wal.cursor + 848 ≤ c)
    (hless : c ≤ s.wal.cursor + 896) :
    walOffset + 848 * (n + 1) ≤ c ∧ c ≤ walOffset + 896 * (n + 1) := by
  have hlower := h.lower
  have hupper := h.upper
  constructor <;> grind

theorem logStep_growing (hr : r.encode = b :: rest) (hn : n < 5000)
    (h : Growing n s) :
    Growing (n + 1) (logStep s (.record r)).1 ∧
      (logStep s (.record r)).1.st.bytes (s.wal.cursor + headerBytes) = b := by
  have hbytes : (AppendReq.record r).bytes = b :: rest := hr
  have hlen := record_frameLen r
  have hupper := h.upper
  have himg : walOffset + 896 * 5001 ≤ imgTotalBytes := by decide
  have hend : walEnd ≤ imgTotalBytes := by decide
  have hhdr : headerBytes < 848 := by decide
  have hroom : s.wal.cursor + (AppendReq.record r).frameLen ≤ s.st.capacity := by
    rw [hlen, h.capacity]
    omega
  have hout := logStep_appended s (.record r)
  generalize logStep s (.record r) = out at hout ⊢
  cases hout with
  | uninit hinit => exact absurd h.initialised (by simp [hinit])
  | failed hframe hrc => exact absurd (hframe.of_sound h.sound hroom hroom) hrc
  | @alone w w' st hframe hinit hcursor _ =>
    have hgrown : w'.cursor = s.wal.cursor + 848 := by
      rw [hcursor, hframe.written.cursor, hlen]
    obtain ⟨hlower, hupper⟩ := h.bounds hgrown.ge (by omega)
    refine ⟨⟨?_, hframe.sound h.sound fun _ => hroom, hframe.capacity.trans h.capacity,
      hlower, hupper⟩, ?_⟩
    · exact hinit.trans (hframe.initialised.trans h.initialised)
    · exact (congrFun hframe.written.bytes _).trans (write_frame_payload hbytes)
  | @checkpoint w wc w' w'' st st' _ hframe _ hck hinit hcursor _ hinit' hcursor' _ =>
    have hgrown : wc.cursor = s.wal.cursor + 848 := by
      rw [hcursor, hframe.written.cursor, hlen]
    have hcap : st.capacity = imgTotalBytes := hframe.capacity.trans h.capacity
    have hck48 : w''.cursor = wc.cursor ∨ w''.cursor = wc.cursor + 48 := by
      rw [hcursor']
      rcases hck.cursor with heq | ⟨heq, -⟩
      · exact .inl heq
      · exact .inr (heq.trans (by rw [checkpoint_frameLen]))
    obtain ⟨hlower, hupper⟩ := h.bounds (c := w''.cursor) (by omega) (by omega)
    refine ⟨⟨?_, ?_, hck.capacity.trans hcap, hlower, hupper⟩, ?_⟩
    · exact (hinit'.trans hck.initialised).trans
        (hinit.trans (hframe.initialised.trans h.initialised))
    · refine hck.sound (hframe.sound h.sound fun _ => hroom) fun hfit => hfit.trans ?_
      rw [hcap]
      exact hend
    -- the checkpoint goes behind the record
    · have hbehind : st'.bytes (s.wal.cursor + headerBytes) =
          st.bytes (s.wal.cursor + headerBytes) := hck.bytes_outside fun _ => .inl (by omega)
      exact hbehind.trans
        ((congrFun hframe.written.bytes _).trans (write_frame_payload hbytes))

theorem growing_run (hr : r.encode = b :: rest) (hn : n ≤ 5000) :
    Growing n (exec logStep ⟨walInit bootWal, blankImage⟩
      (List.replicate n (.record r))) := by
  induction n with
  | zero => exact ⟨rfl, rfl, rfl, Nat.le_refl _, Nat.le_refl _⟩
  | succ n ih =>
    rw [replicate_succ', exec_append]
    exact (logStep_growing hr (by omega) (ih (by omega))).1

theorem appends_escape : ∃ a, walEnd ≤ a ∧ (exec logStep ⟨walInit bootWal, blankImage⟩
        (List.replicate 4948 (.record someRecord))).st.bytes a ≠ blankImage.bytes a := by
  have hr : someRecord.encode = 1 :: someRecord.encode.tail := rfl
  have hgrow := growing_run hr (n := 4947) (by decide)
  obtain ⟨-, hbyte⟩ := logStep_growing hr (by decide) hgrow
  have hpast : walEnd ≤ walOffset + 848 * 4947 := by decide
  refine ⟨_, (hpast.trans hgrow.lower).trans (Nat.le_add_right _ headerBytes), ?_⟩
  have hsplit : replicate 4948 (AppendReq.record someRecord) =
      replicate 4947 (.record someRecord) ++ [.record someRecord] := replicate_succ'
  rw [hsplit, exec_append, exec, exec, hbyte]
  decide

end SotOs.Sotfs
