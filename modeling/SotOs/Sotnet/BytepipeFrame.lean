import SotOs.Lib.LittleEndian
import SotOs.Sotnet.Bytepipe

/-! Length-prefixed frames over the byte channel, whose producer may lap the consumer. -/

namespace SotOs.Sotnet.Bytepipe
open RingStore Machine LittleEndian Option
open List hiding take

structure FrameHdr where
  connId : UInt16
  localPort : UInt16
  len : UInt32

def frameHdrSz : ℕ := 8

structure Frame where
  connId : UInt16
  localPort : UInt16
  payload : List UInt8
deriving DecidableEq

def hdrBytes (h : FrameHdr) : List UInt8 := encode 2 h.connId.toNat ++ encode 2 h.localPort.toNat ++
    encode 4 h.len.toNat

def hdrOf (b : List UInt8) : FrameHdr :=
  let (connId, b) := take 2 b
  let (localPort, b) := take 2 b
  ⟨UInt16.ofNat connId, UInt16.ofNat localPort, UInt32.ofNat (take 4 b).1⟩

def Frame.hdr (f : Frame) : FrameHdr := ⟨f.connId, f.localPort, UInt32.ofNat f.payload.length⟩

def Frame.bytes (f : Frame) : List UInt8 := hdrBytes f.hdr ++ f.payload

/-- `none` where the copy overruns the staging buffer: the size check adds in 32 bits. -/
def bytepipePushFrame (r : Ring) (f : Frame) : Option (Ring × UInt32) :=
  if UInt32.ofNat frameHdrSz + f.hdr.len > UInt32.ofNat bytepipeDataBytes then some (r, 0)
  else if frameHdrSz + f.payload.length > bytepipeDataBytes then none
  else some (bytepipePush r f.bytes)

def bytepipePullFrame (r : Ring) (rd outMax : UInt32) : UInt32 × Option Frame :=
  let (rd, avail) := resume r rd
  if avail < UInt32.ofNat frameHdrSz then (rd, none)
  else
    let h := hdrOf (readFrom r.data rd frameHdrSz)
    if h.len > UInt32.ofNat bytepipeDataBytes then (rd, none)
    else if avail < UInt32.ofNat frameHdrSz + h.len then (rd, none)
    else if h.len > outMax then (rd, none)
    else
      (rd + (UInt32.ofNat frameHdrSz + h.len),
        some ⟨h.connId, h.localPort,
          readFrom r.data (rd + UInt32.ofNat frameHdrSz) h.len.toNat⟩)

def deframe (b : List UInt8) : Option Frame :=
  let h := hdrOf (b.take frameHdrSz)
  if b.length < frameHdrSz ∨ bytepipeDataBytes < h.len.toNat ∨
      b.length < frameHdrSz + h.len.toNat then none
  else some ⟨h.connId, h.localPort, (b.drop frameHdrSz).take h.len.toNat⟩

@[simp] theorem hdrBytes_length (h : FrameHdr) : (hdrBytes h).length = frameHdrSz := by
  simp [hdrBytes, frameHdrSz]

theorem hdrOf_hdrBytes (h : FrameHdr) (rest : List UInt8) : hdrOf (hdrBytes h ++ rest) = h := by
  have hid : h.connId.toNat < 256 ^ 2 := h.connId.toNat_lt
  have hport : h.localPort.toNat < 256 ^ 2 := h.localPort.toNat_lt
  have hlen : h.len.toNat < 256 ^ 4 := h.len.toNat_lt
  simp only [hdrOf, hdrBytes, append_assoc, take_encode 2 hid,
    take_encode 2 hport, take_encode 4 hlen, UInt16.ofNat_toNat,
    UInt32.ofNat_toNat]

theorem Frame.bytes_length (f : Frame) : f.bytes.length = frameHdrSz + f.payload.length := by
  rw [Frame.bytes, length_append, hdrBytes_length]

variable {f g : Frame} {m n : ℕ} {got : List Frame}

variable {rest : List UInt8}

theorem deframe_bytes (h : frameHdrSz + f.payload.length ≤ bytepipeDataBytes) :
    deframe (f.bytes ++ rest) = some f := by
  have hlen : f.hdr.len.toNat = f.payload.length := by
    rw [dataBytes_eq, frameHdrSz] at h
    rw [Frame.hdr, UInt32.toNat_ofNat', Nat.mod_eq_of_lt (by omega)]
  have hhdr : hdrOf ((f.bytes ++ rest).take frameHdrSz) = f.hdr := by
    rw [Frame.bytes, append_assoc, take_left' (hdrBytes_length _)]
    simpa using hdrOf_hdrBytes f.hdr []
  have htotal : (f.bytes ++ rest).length = frameHdrSz + f.payload.length + rest.length := by
    rw [length_append, f.bytes_length]
  unfold deframe
  rw [hhdr]
  dsimp only
  rw [hlen, htotal, if_neg (by omega), Frame.bytes, append_assoc,
    drop_left' (hdrBytes_length _), take_left' rfl]
  rfl

theorem frame_accepted (h : frameHdrSz + f.payload.length ≤ bytepipeDataBytes) :
    accepted f.bytes = f.bytes :=
  take_of_length_le (by rwa [f.bytes_length])

theorem hdrSz_toNat : (UInt32.ofNat frameHdrSz).toNat = frameHdrSz := rfl

theorem dataBytes_toNat : (UInt32.ofNat bytepipeDataBytes).toNat = bytepipeDataBytes := rfl

theorem Tracks.pullFrame {c : Chan} {s : List UInt8} {read : ℕ} (h : Tracks c s read)
    (hi : c.Intact) :
    bytepipePullFrame c.ring c.rd (UInt32.ofNat bytepipeDataBytes) =
      match deframe (s.drop (s.length - c.backlog)) with
      | none => (UInt32.ofNat (s.length - c.backlog), none)
      | some f => (UInt32.ofNat (s.length - c.backlog + f.bytes.length), some f) := by
  have hle := h.backlog_le
  have hdata := h.backlog_data
  have hlen : (s.drop (s.length - c.backlog)).length = c.backlog := by
    rw [length_drop]
    omega
  have hback : (UInt32.ofNat c.backlog).toNat = c.backlog := by
    rw [dataBytes_eq] at hdata
    rw [UInt32.toNat_ofNat', Nat.mod_eq_of_lt (by omega)]
  have hhdr : frameHdrSz ≤ c.backlog →
      readFrom c.ring.data (UInt32.ofNat (s.length - c.backlog)) frameHdrSz =
        (s.drop (s.length - c.backlog)).take frameHdrSz := by
    intro hsz
    simpa using h.window hi (i := 0) (n := frameHdrSz) (by omega)
  unfold bytepipePullFrame
  simp only [h.resume_eq]
  by_cases hsz : c.backlog < frameHdrSz
  · have hnone : deframe (s.drop (s.length - c.backlog)) = none := by
      unfold deframe
      exact if_pos (Or.inl (by rwa [hlen]))
    rw [if_pos (by rwa [UInt32.lt_iff_toNat_lt, hback, hdrSz_toNat]), hnone]
  rw [if_neg (by rwa [UInt32.lt_iff_toNat_lt, hback, hdrSz_toNat]), hhdr (by omega)]
  unfold deframe
  dsimp only
  rw [hlen]
  generalize hh : hdrOf ((s.drop (s.length - c.backlog)).take frameHdrSz) = hd
  by_cases hbig : bytepipeDataBytes < hd.len.toNat
  · rw [if_pos (by rwa [gt_iff_lt, UInt32.lt_iff_toNat_lt, dataBytes_toNat]),
      if_pos (Or.inr (Or.inl hbig))]
  have hsum : (UInt32.ofNat frameHdrSz + hd.len).toNat = frameHdrSz + hd.len.toNat := by
    rw [dataBytes_eq] at hbig
    rw [UInt32.toNat_add, hdrSz_toNat, frameHdrSz, Nat.mod_eq_of_lt (by omega)]
  rw [if_neg (by rwa [gt_iff_lt, UInt32.lt_iff_toNat_lt, dataBytes_toNat])]
  by_cases hpart : c.backlog < frameHdrSz + hd.len.toNat
  · rw [if_pos (by rwa [UInt32.lt_iff_toNat_lt, hback, hsum]), if_pos (Or.inr (Or.inr hpart))]
  rw [if_neg (by rwa [UInt32.lt_iff_toNat_lt, hback, hsum]),
    if_neg (by rwa [gt_iff_lt, UInt32.lt_iff_toNat_lt, dataBytes_toNat]), if_neg (by tauto)]
  have hpayload := h.window hi (i := frameHdrSz) (n := hd.len.toNat) (by omega)
  rw [UInt32.ofNat_add] at hpayload
  rw [hpayload]
  refine Prod.ext ?_ rfl
  have hcut : (((s.drop (s.length - c.backlog)).drop frameHdrSz).take hd.len.toNat).length =
      hd.len.toNat := by
    rw [length_take, length_drop, hlen]
    omega
  dsimp only
  rw [Frame.bytes_length, hcut, UInt32.ofNat_add, UInt32.ofNat_add, UInt32.ofNat_toNat]

inductive FrameOp
  | push (f : Frame)
  | pull
deriving DecidableEq

inductive FrameReply
  | pushed (n : UInt32)
  | overrun
  | pulled (f : Option Frame)
deriving DecidableEq

def frameStep (c : Chan) : FrameOp → Chan × FrameReply
  | .push f =>
    match bytepipePushFrame c.ring f with
    | some (ring, n) => (⟨ring, c.rd⟩, .pushed n)
    | none => (c, .overrun)
  | .pull =>
    let (rd, f) := bytepipePullFrame c.ring c.rd (UInt32.ofNat bytepipeDataBytes)
    (⟨c.ring, rd⟩, .pulled f)

def bytesOf (fs : List Frame) : List UInt8 := fs.flatMap Frame.bytes

structure Watched where
  chan : Chan
  sent : List Frame
  read : ℕ

def Watched.at (w : Watched) : ℕ := (bytesOf w.sent).length - w.chan.backlog

def watchStep (w : Watched) (op : FrameOp) : Watched × FrameReply :=
  let (chan, reply) := frameStep w.chan op
  match op, reply with
  | .push f, .pushed n => (⟨chan, if n = 0 then w.sent else w.sent ++ [f], w.read⟩, reply)
  | _, .pulled (some f) => (⟨chan, w.sent, w.at + f.bytes.length⟩, reply)
  | _, _ => (⟨chan, w.sent, w.read⟩, reply)

def startWatched : Watched := ⟨startChan, [], 0⟩

variable {w : Watched}

theorem watchStep_plain {op : FrameOp} : (watchStep w op).1.chan = (frameStep w.chan op).1 ∧
      (watchStep w op).2 = (frameStep w.chan op).2 := by
  unfold watchStep
  dsimp only
  split <;> exact ⟨rfl, rfl⟩

def FrameStart (sent : List Frame) (p : ℕ) : Prop :=
  ∃ n, n < sent.length + 1 ∧ p = (bytesOf (sent.take n)).length

instance (sent : List Frame) (p : ℕ) : Decidable (FrameStart sent p) :=
  inferInstanceAs (Decidable (∃ n, n < sent.length + 1 ∧ p = _))

def Watched.Lapped (w : Watched) : Prop := bytepipeDataBytes < (bytesOf w.sent).length - w.read

instance (w : Watched) : Decidable w.Lapped := inferInstanceAs (Decidable (_ < _))

def Watched.Waiting (w : Watched) : Prop :=
  ∃ n f, w.sent[n]? = some f ∧ w.read ≤ (bytesOf (w.sent.take n)).length ∧ ∀ i < f.bytes.length,
      Survives pos (bytesOf w.sent).length ((bytesOf (w.sent.take n)).length + i)

structure Served (e : Entry Watched FrameOp FrameReply) : Prop where
  staged : e.reply ≠ .overrun
  starts : e.input = .pull → frameHdrSz ≤ e.pre.chan.backlog → FrameStart e.pre.sent e.pre.at
  returns : e.input = .pull → e.pre.Waiting → ∃ f, e.reply = .pulled (some f)

/-- A push whose size does not wrap; a pull on an intact window which, if the consumer was lapped,
starts with a frame and is not empty. -/
def Undisturbed (e : Entry Watched FrameOp FrameReply) : Prop :=
  match e.input with
  | .push f => frameHdrSz + f.payload.length < 2 ^ 32
  | .pull => e.pre.chan.Intact ∧
      (e.pre.Lapped → FrameStart e.pre.sent e.pre.at ∧ e.pre.chan.backlog ≠ 0)

instance (e : Entry Watched FrameOp FrameReply) : Decidable (Undisturbed e) := by
  unfold Undisturbed
  split <;> infer_instance

def returned (e : Entry Watched FrameOp FrameReply) : Option Frame :=
  match e.reply with
  | .pulled f => f
  | _ => none

/-- While nothing disturbs the channel, `got` are frames that end where the consumer has come to. -/
structure FrameInv (w : Watched) (got : List Frame) : Prop where
  tracks : Tracks w.chan (bytesOf w.sent) w.read
  fits : ∀ f ∈ w.sent, frameHdrSz + f.payload.length ≤ bytepipeDataBytes
  ordered : ∃ n, n ≤ w.sent.length ∧ w.read = (bytesOf (w.sent.take n)).length ∧
    List.Sublist got (w.sent.take n)

theorem frameInv_start : FrameInv startWatched [] :=
  ⟨tracks_start, forall_mem_nil _, 0, le_rfl, rfl, List.Sublist.refl _⟩

theorem bytesOf_append {as bs : List Frame} : bytesOf (as ++ bs) = bytesOf as ++ bytesOf bs :=
  flatMap_append

theorem bytesOf_take_mono (fs : List Frame) (h : m ≤ n) :
    (bytesOf (fs.take m)).length ≤ (bytesOf (fs.take n)).length := by
  rw [show fs.take n = fs.take m ++ (fs.drop m).take (n - m) by
    rw [← take_add, Nat.add_sub_cancel' h], bytesOf_append, length_append]
  exact Nat.le_add_right _ _

variable {fs : List Frame}

theorem bytesOf_take_strict (h : m < n) (hn : m < fs.length) :
    (bytesOf (fs.take m)).length < (bytesOf (fs.take n)).length := by
  refine Nat.lt_of_lt_of_le ?_ (bytesOf_take_mono fs h)
  rw [take_add_one, getElem?_eq_getElem hn, bytesOf_append, length_append]
  simp [bytesOf, Frame.bytes_length, frameHdrSz]

theorem bytesOf_drop : (bytesOf fs).drop (bytesOf (fs.take n)).length = bytesOf (fs.drop n) := by
  conv_lhs => rw [← take_append_drop n fs]
  rw [bytesOf_append, take_append_drop, drop_left' rfl]

theorem pushFrame_eq {r : Ring} (h : frameHdrSz + f.payload.length < 2 ^ 32) :
    bytepipePushFrame r f =
      if frameHdrSz + f.payload.length ≤ bytepipeDataBytes then some (bytepipePush r f.bytes)
      else some (r, 0) := by
  have hsize : (UInt32.ofNat frameHdrSz + f.hdr.len).toNat = frameHdrSz + f.payload.length := by
    rw [Frame.hdr, ← UInt32.ofNat_add, UInt32.toNat_ofNat', Nat.mod_eq_of_lt h]
  unfold bytepipePushFrame
  simp only [gt_iff_lt, UInt32.lt_iff_toNat_lt, hsize, dataBytes_toNat]
  split_ifs <;> first | rfl | omega

theorem push_count {r : Ring} (h : frameHdrSz + f.payload.length ≤ bytepipeDataBytes) :
    (bytepipePush r f.bytes).2 ≠ 0 := by
  rw [bytepipePush, frame_accepted h, f.bytes_length]
  rw [dataBytes_eq, frameHdrSz] at h
  rw [frameHdrSz]
  intro hzero
  have hnat := congrArg UInt32.toNat hzero
  rw [UInt32.toNat_ofNat', Nat.mod_eq_of_lt (by omega), UInt32.toNat_zero] at hnat
  omega

theorem watchStep_push (w : Watched) (hfit : frameHdrSz + f.payload.length ≤ bytepipeDataBytes) :
    watchStep w (.push f) = (⟨⟨(bytepipePush w.chan.ring f.bytes).1, w.chan.rd⟩,
      w.sent ++ [f], w.read⟩, .pushed (bytepipePush w.chan.ring f.bytes).2) := by
  have hf : frameHdrSz + f.payload.length < 2 ^ 32 := by
    rw [dataBytes_eq] at hfit
    omega
  simp only [watchStep, frameStep, pushFrame_eq hf, if_pos hfit, if_neg (push_count hfit)]

variable {w : Watched}

theorem FrameInv.push (h : FrameInv w got) (hf : frameHdrSz + f.payload.length < 2 ^ 32) :
    FrameInv (watchStep w (.push f)).1 got ∧ ∃ n, (watchStep w (.push f)).2 = .pushed n := by
  by_cases hfit : frameHdrSz + f.payload.length ≤ bytepipeDataBytes
  · rw [watchStep_push w hfit]
    refine ⟨⟨?_, ?_, ?_⟩, _, rfl⟩
    · have ht := h.tracks.push f.bytes
      rw [frame_accepted hfit] at ht
      simpa [bytesOf_append, bytesOf] using ht
    · rw [forall_mem_append, forall_mem_singleton]
      exact ⟨h.fits, hfit⟩
    · obtain ⟨n, hn, hread, hgot⟩ := h.ordered
      refine ⟨n, hn.trans (by simp), ?_, ?_⟩ <;>
        rw [take_append_of_le_length hn]
      · exact hread
      · exact hgot
  · have heq : watchStep w (.push f) = (w, .pushed 0) := by
      simp only [watchStep, frameStep, pushFrame_eq hf, if_neg hfit, if_true]
    rw [heq]
    exact ⟨h, 0, rfl⟩

theorem FrameInv.pull_end (h : FrameInv w got) (hi : w.chan.Intact) (hb : w.chan.backlog = 0)
    (hread : (bytesOf w.sent).length ≤ w.read) :
    FrameInv (watchStep w .pull).1 got ∧ (watchStep w .pull).2 = .pulled none := by
  have hpull := h.tracks.pullFrame hi
  have hnone : deframe ((bytesOf w.sent).drop ((bytesOf w.sent).length - 0)) = none := by
    rw [Nat.sub_zero, drop_length]
    rfl
  rw [hb, hnone] at hpull
  have heq : watchStep w .pull =
      (⟨⟨w.chan.ring, UInt32.ofNat (bytesOf w.sent).length⟩, w.sent, w.read⟩, .pulled none) := by
    simp only [watchStep, frameStep, hpull, Nat.sub_zero]
  have hend : w.read = (bytesOf w.sent).length := le_antisymm h.tracks.read_le hread
  rw [heq]
  exact ⟨⟨⟨h.tracks.w_eq, by rw [hend], h.tracks.read_le, h.tracks.kept⟩, h.fits, h.ordered⟩, rfl⟩

theorem FrameInv.pull_frame (h : FrameInv w got) (hi : w.chan.Intact) (hm : w.sent[m]? = some f)
    (hat : w.at = (bytesOf (w.sent.take m)).length) :
    FrameInv (watchStep w .pull).1 (got ++ [f]) ∧ (watchStep w .pull).2 = .pulled (some f) := by
  obtain ⟨hlt, hf⟩ := List.getElem?_eq_some_iff.mp hm
  have hdrop : (bytesOf w.sent).drop w.at = f.bytes ++ bytesOf (w.sent.drop (m + 1)) := by
    rw [hat, bytesOf_drop, drop_eq_getElem_cons hlt, hf]
    rfl
  have hsucc : w.sent.take (m + 1) = w.sent.take m ++ [f] := by
    rw [take_add_one, hm]
    rfl
  have hend : w.at + f.bytes.length = (bytesOf (w.sent.take (m + 1))).length := by
    rw [hsucc, bytesOf_append, length_append, hat]
    simp [bytesOf]
  have hpull := h.tracks.pullFrame hi
  rw [← Watched.at, hdrop, deframe_bytes (h.fits f (mem_of_getElem? hm))] at hpull
  have heq : watchStep w .pull =
      (⟨⟨w.chan.ring, UInt32.ofNat (w.at + f.bytes.length)⟩, w.sent, w.at + f.bytes.length⟩,
        .pulled (some f)) := by
    simp only [watchStep, frameStep, hpull]
  rw [heq]
  refine ⟨⟨⟨h.tracks.w_eq, rfl, ?_, h.tracks.kept⟩, h.fits, m + 1, hlt, hend, ?_⟩, rfl⟩
  · rw [hend]
    have hmono := bytesOf_take_mono w.sent (Nat.succ_le_of_lt hlt)
    rwa [take_length] at hmono
  · obtain ⟨n, hn, hread, hgot⟩ := h.ordered
    have hback := h.tracks.backlog_le
    have hle : w.read ≤ w.at := by
      have := h.tracks.read_le
      rw [Watched.at]
      omega
    have hnm : n ≤ m := by
      by_contra hgt
      have hstrict := bytesOf_take_strict (Nat.lt_of_not_le hgt) hlt
      omega
    dsimp only
    rw [hsucc]
    exact (hgot.trans (take_sublist_take_left hnm)).append (List.Sublist.refl _)

theorem FrameInv.front (h : FrameInv w got) (hstart : FrameStart w.sent w.at) : w.chan.backlog = 0 ∨
      ∃ m f, w.sent[m]? = some f ∧ w.at = (bytesOf (w.sent.take m)).length := by
  obtain ⟨m, hm, hat⟩ := hstart
  rcases Nat.lt_succ_iff_lt_or_eq.mp hm with hlt | rfl
  · exact Or.inr ⟨m, _, getElem?_eq_getElem hlt, hat⟩
  · rw [take_length, Watched.at] at hat
    have hle := h.tracks.backlog_le
    exact Or.inl (by omega)

theorem FrameInv.at_eq (h : FrameInv w got) (hl : ¬w.Lapped) : w.at = w.read := by
  have hall := h.tracks.backlog_all (Nat.le_of_not_lt hl)
  have hle := h.tracks.read_le
  rw [Watched.at, hall]
  omega

theorem FrameInv.starts (h : FrameInv w got)
    (hq : w.Lapped → FrameStart w.sent w.at ∧ w.chan.backlog ≠ 0) : FrameStart w.sent w.at := by
  by_cases hl : w.Lapped
  · exact (hq hl).1
  · obtain ⟨n, hn, hread, -⟩ := h.ordered
    exact ⟨n, Nat.lt_succ_of_le hn, (h.at_eq hl).trans hread⟩

theorem FrameInv.done (h : FrameInv w got)
    (hq : w.Lapped → FrameStart w.sent w.at ∧ w.chan.backlog ≠ 0) (hb : w.chan.backlog = 0) :
    (bytesOf w.sent).length ≤ w.read := by
  have hat := h.at_eq fun hl => (hq hl).2 hb
  rw [Watched.at, hb] at hat
  exact hat.le

theorem Watched.Waiting.unread (h : w.Waiting) : w.read < (bytesOf w.sent).length := by
  obtain ⟨n, f, hn, hread, -⟩ := h
  obtain ⟨hlt, -⟩ := List.getElem?_eq_some_iff.mp hn
  have hstrict := bytesOf_take_strict hlt hlt
  rw [take_length] at hstrict
  omega

theorem FrameInv.step (op : FrameOp) (h : FrameInv w got)
    (hq : Undisturbed (entry watchStep w op)) :
    FrameInv (watchStep w op).1 (got ++ (returned (entry watchStep w op)).toList) ∧
      Served (entry watchStep w op) := by
  cases op with
  | push f =>
    obtain ⟨hinv, n, hreply⟩ := h.push hq
    have hret : returned (entry watchStep w (.push f)) = none := by
      rw [returned, entry, hreply]
    rw [hret, toList_none, append_nil]
    refine ⟨hinv, ⟨?_, by simp [entry], by simp [entry]⟩⟩
    rw [entry, hreply]
    simp
  | pull =>
    obtain ⟨hi, hlap⟩ := hq
    have hstart := h.starts hlap
    have hdone := h.done hlap
    by_cases hb : w.chan.backlog = 0
    · obtain ⟨hinv, hreply⟩ := h.pull_end hi hb (hdone hb)
      have hret : returned (entry watchStep w .pull) = none := by
        rw [returned, entry, hreply]
      rw [hret, toList_none, append_nil]
      refine ⟨hinv, ⟨?_, fun _ _ => hstart, ?_⟩⟩
      · rw [entry, hreply]
        simp
      · intro _ hwait
        exact absurd (hdone hb) (Nat.not_le_of_lt hwait.unread)
    · obtain ⟨m, f, hm, hat⟩ := (h.front hstart).resolve_left hb
      obtain ⟨hinv, hreply⟩ := h.pull_frame hi hm hat
      have hret : returned (entry watchStep w .pull) = some f := by
        rw [returned, entry, hreply]
      rw [hret, toList_some]
      refine ⟨hinv, ⟨?_, fun _ _ => hstart, fun _ _ => ⟨f, hreply⟩⟩⟩
      rw [entry, hreply]
      simp

/-- Every frame returned was pushed, the frames come in the order of the pushes, and each call
serves the consumer. -/
theorem frames_in_order (ops : List FrameOp)
    (h : ∀ e ∈ trace watchStep startWatched ops, Undisturbed e) :
    List.Sublist ((trace watchStep startWatched ops).filterMap returned)
        (exec watchStep startWatched ops).sent ∧
      ∀ e ∈ trace watchStep startWatched ops, Served e := by
  have hrun := trace_induction_of watchStep
    (P := fun tr w => FrameInv w (tr.filterMap returned) ∧ ∀ e ∈ tr, Served e)
    (Q := Undisturbed) ⟨frameInv_start, forall_mem_nil _⟩
    (fun tr w op hq ih => by
      obtain ⟨hinv, hserved⟩ := ih.1.step op hq
      refine ⟨?_, forall_mem_append.mpr ⟨ih.2, forall_mem_singleton.mpr hserved⟩⟩
      rw [filterMap_append]
      cases hret : returned (entry watchStep w op) <;> simpa [hret] using hinv) ops h
  obtain ⟨n, -, -, hgot⟩ := hrun.1.ordered
  exact ⟨hgot.trans (take_sublist n _), hrun.2⟩

def twoFrames : List FrameOp := [.push ⟨7, 80, [65]⟩, .pull, .push ⟨9, 22, []⟩, .pull, .pull]

theorem two_frames_in_order :
    List.Sublist ((trace watchStep startWatched twoFrames).filterMap returned)
        (exec watchStep startWatched twoFrames).sent ∧
      (∀ e ∈ trace watchStep startWatched twoFrames, Served e) ∧
      (trace watchStep startWatched twoFrames).filterMap returned =
        [⟨7, 80, [65]⟩, ⟨9, 22, []⟩] := by
  obtain ⟨hsub, hserved⟩ := frames_in_order twoFrames (by decide +kernel)
  exact ⟨hsub, hserved, by decide +kernel⟩

def longFrame : Frame := ⟨7, 80, List.replicate 65464 0⟩

theorem longFrame_fits : frameHdrSz + longFrame.payload.length ≤ bytepipeDataBytes := by
  have hlen : longFrame.payload.length = 65464 := length_replicate
  rw [hlen]
  decide

def shortFrame : Frame := ⟨9, 22, [0]⟩

def lappedRun : List FrameOp := [.push longFrame, .push shortFrame, .pull]

theorem shortFrame_fits : frameHdrSz + shortFrame.payload.length ≤ bytepipeDataBytes := by decide

theorem zeros_drop (hf : f.payload = List.replicate n 0) (hn : 1 ≤ n) :
    (f.bytes ++ rest).drop 9 = List.replicate (n - 1) 0 ++ rest := by
  have hhdr : (hdrBytes f.hdr).length ≤ 9 := by
    rw [hdrBytes_length, frameHdrSz]
    omega
  rw [Frame.bytes, append_assoc, drop_append, drop_eq_nil_of_le hhdr,
    hdrBytes_length, nil_append, hf, frameHdrSz,
    drop_append_of_le_length (by rwa [length_replicate]), drop_replicate]

theorem deframe_zeros (hn : frameHdrSz ≤ n) :
    deframe (List.replicate n 0 ++ rest) = some ⟨0, 0, []⟩ := by
  have hhdr : (replicate n (0 : UInt8) ++ rest).take frameHdrSz =
      replicate frameHdrSz 0 := by
    rw [take_append_of_le_length (by rwa [length_replicate]), take_replicate,
      Nat.min_eq_left hn]
  have hlen : (replicate n (0 : UInt8) ++ rest).length = n + rest.length := by
    rw [length_append, length_replicate]
  have hzero : hdrOf (replicate frameHdrSz 0) = ⟨0, 0, 0⟩ := rfl
  unfold deframe
  rw [hhdr, hzero]
  dsimp only
  rw [hlen, if_neg, UInt32.toNat_zero, take_zero]
  rw [UInt32.toNat_zero]
  omega

theorem lapped_pull (hf : f.payload = List.replicate n 0) (hn : frameHdrSz + n = bytepipeDataBytes)
    (hg : g.bytes.length = 9) (ht : Tracks w.chan (bytesOf [f, g]) 0) :
    (frameStep w.chan .pull).2 = .pulled (some ⟨0, 0, []⟩) := by
  have hbytes : bytesOf [f, g] = f.bytes ++ g.bytes := by simp [bytesOf]
  have hlen : (bytesOf [f, g]).length = bytepipeDataBytes + 9 := by
    rw [hbytes, length_append, Frame.bytes_length, hf, length_replicate, hn, hg]
  have hb : w.chan.backlog = bytepipeDataBytes := by
    rw [ht.backlog_eq, hlen, dataBytes_eq]
    rfl
  have hat : bytepipeDataBytes + 9 - bytepipeDataBytes = 9 := Nat.add_sub_cancel_left _ _
  have hi : w.chan.Intact := by
    right
    rw [ht.resume_eq, hlen, hb, hat]
    decide
  have hzeros : frameHdrSz ≤ n - 1 := by
    rw [dataBytes_eq, frameHdrSz] at hn
    rw [frameHdrSz]
    omega
  have hone : 1 ≤ n := by
    rw [dataBytes_eq, frameHdrSz] at hn
    omega
  have hpull := ht.pullFrame hi
  rw [hlen, hb, hat, hbytes, zeros_drop hf hone, deframe_zeros hzeros] at hpull
  rw [frameStep, hpull]

theorem watchStep_pull_sent : (watchStep w .pull).1.sent = w.sent := by
  unfold watchStep
  dsimp only
  split <;> first | rfl | contradiction

theorem lapped_phantom :
    ¬ List.Sublist ((trace watchStep startWatched lappedRun).filterMap returned)
      (exec watchStep startWatched lappedRun).sent := by
  have hsize : bytepipeDataBytes < 2 ^ 32 := by decide
  have hfirst := watchStep_push startWatched longFrame_fits
  have hsecond := watchStep_push (watchStep startWatched (.push longFrame)).1 shortFrame_fits
  have hinv := ((frameInv_start.push (longFrame_fits.trans_lt hsize)).1.push
    (shortFrame_fits.trans_lt hsize)).1
  rw [lappedRun, trace, trace, trace, trace, exec, exec, exec, exec, watchStep_pull_sent]
  generalize hw : (watchStep (watchStep startWatched (.push longFrame)).1 (.push shortFrame)).1 = w
    at hinv ⊢
  have hsent : w.sent = [longFrame, shortFrame] := by rw [← hw, hsecond, hfirst]; rfl
  have ht := hinv.tracks
  rw [hsent, show w.read = 0 by rw [← hw, hsecond, hfirst]; rfl] at ht
  have hphantom : returned (entry watchStep w .pull) = some ⟨0, 0, []⟩ := by
    rw [returned, entry, watchStep_plain.2,
      lapped_pull rfl (by rw [dataBytes_eq, frameHdrSz]) rfl ht]
  intro hsub
  have hmem := hsub.subset (mem_filterMap.mpr ⟨_, by simp, hphantom⟩)
  rw [hsent, mem_cons, mem_singleton] at hmem
  rcases hmem with h | h <;> exact absurd (congrArg Frame.connId h) (by decide)

end SotOs.Sotnet.Bytepipe
