import SotOs.Sotfs.BlkdevSpec
import SotOs.Sotfs.WalSpec

/-! The scan over a log that holds a list of frames: it visits them in order, applies the records
among them and stops behind the last one. -/

namespace SotOs.Sotfs
open List

def framesBytes (frames : List Frame) : List UInt8 := frames.flatMap Frame.bytes

@[simp] theorem framesBytes_nil : framesBytes [] = [] := rfl

variable {f : Frame} {frames : List Frame}

@[simp] theorem framesBytes_cons :
    framesBytes (f :: frames) = f.bytes ++ framesBytes frames := List.flatMap_cons

@[simp] theorem framesBytes_concat :
    framesBytes (frames ++ [f]) = framesBytes frames ++ f.bytes := by
  simp [framesBytes]

structure SameLog (st st' : Storage) : Prop where
  capacity : st.capacity = st'.capacity
  bytes : ∀ a, walOffset ≤ a → a < walEnd → st.bytes a = st'.bytes a

theorem SameLog.refl (st : Storage) : SameLog st st := ⟨rfl, fun _ _ _ => rfl⟩

variable {st st' : Storage} {off : ℕ} {f : Frame}

theorem SameLog.readBlock (h : SameLog st st') {len : ℕ} (hoff : walOffset ≤ off)
    (hend : off + len ≤ walEnd) : st.readBlock off len = st'.readBlock off len := by
  have hread : Overlay.read st.bytes off len = Overlay.read st'.bytes off len := by
    apply Overlay.read_congr
    intro k hk
    exact h.bytes _ (by omega) (by omega)
  rw [Storage.readBlock, Storage.readBlock, h.capacity, hread]

theorem SameLog.nextHeader (h : SameLog st st') (hoff : walOffset ≤ off) :
    nextHeader st off = nextHeader st' off := by
  unfold SotOs.Sotfs.nextHeader
  split_ifs with hend
  · rfl
  · rw [h.readBlock hoff (Nat.not_lt.mp hend)]

structure FrameAt (st : Storage) (off : ℕ) (f : Frame) : Prop where
  bytes : Overlay.read st.bytes off f.req.frameLen = f.bytes
  inside : off + f.req.frameLen ≤ walEnd
  room : off + f.req.frameLen ≤ st.capacity
  seq_pos : 0 < f.seq
  seq_lt : f.seq < 2 ^ 64

theorem FrameAt.parts (h : FrameAt st off f) :
    Overlay.read st.bytes off headerBytes = f.header.encode ∧
      Overlay.read st.bytes (off + headerBytes) f.req.bytes.length = f.req.bytes := by
  have hbytes := h.bytes
  rw [AppendReq.frameLen, Overlay.read_append, Frame.bytes] at hbytes
  exact append_inj hbytes (by simp)

theorem nextHeader_frame (h : FrameAt st off f) : nextHeader st off = some f.header := by
  have hinside := h.inside
  have hroom := h.room
  have hseq := h.seq_pos
  have hsplit : f.req.frameLen = headerBytes + f.req.bytes.length := by rw [AppendReq.frameLen]
  have hlen : f.header.len = f.req.frameLen := hsplit.symm
  have hread : st.readBlock off headerBytes = some f.header.encode := by
    rw [Storage.readBlock, if_neg (by omega), h.parts.1]
  unfold nextHeader
  rw [if_neg (by omega), hread]
  simp only [Header.decode_encode (f.header_fits h.seq_lt)]
  have hseq' : f.header.seq ≠ 0 := Nat.pos_iff_ne_zero.mp hseq
  rw [if_neg (by omega), if_neg (by omega)]

inductive Visited : Frame → Visit → Prop
  | record (seq : ℕ) (r : Record) (ok : Bool) :
      Visited ⟨seq, .record r⟩ (.applied (Frame.mk seq (.record r)).header r.encode ok)
  | payload (seq : ℕ) (p : Payload) :
      Visited ⟨seq, .payload p⟩ (.skipped (Frame.mk seq (.payload p)).header)

section
variable {σ : Type*} (storage : σ → Storage) (apply : σ → Record → σ × Bool)

def applyFrame (s : σ) (f : Frame) : σ :=
  match f.req with
  | .record r => (apply s r).1
  | .payload _ => s

theorem visitFrame_frame (h : FrameAt st off f) (hoff : walOffset ≤ off) {s : σ}
    (hs : SameLog (storage s) st) :
    (visitFrame storage apply s off f.header).1 = applyFrame apply s f ∧
      Visited f (visitFrame storage apply s off f.header).2 := by
  obtain ⟨seq, req⟩ := f
  cases req with
  | payload p =>
    have hkind : PayloadKind.procdMut.code ≤ (Frame.mk seq (.payload p)).header.kind := by
      change PayloadKind.procdMut.code ≤ p.kind.code
      cases p.kind <;> decide
    rw [visitFrame, if_pos hkind]
    exact ⟨rfl, .payload seq p⟩
  | record r =>
    have hkind : ¬ PayloadKind.procdMut.code ≤ (Frame.mk seq (.record r)).header.kind := by
      change ¬ PayloadKind.procdMut.code ≤ r.kind.code
      cases r.kind <;> decide
    have hrec : (AppendReq.record r).bytes.length = recordBytes := r.length_encode
    have hlen : (Frame.mk seq (.record r)).header.len - headerBytes = recordBytes := by
      change headerBytes + (AppendReq.record r).bytes.length - headerBytes = recordBytes
      rw [Nat.add_sub_cancel_left, hrec]
    have hsplit : (AppendReq.record r).frameLen = headerBytes + recordBytes := by
      rw [AppendReq.frameLen, hrec]
    have hread : (storage s).readBlock (off + headerBytes) recordBytes = some r.encode := by
      have hinside := h.inside
      have hroom := h.room
      simp only [hsplit] at hinside hroom
      rw [hs.readBlock (by omega) (by omega), Storage.readBlock, if_neg (by omega), ← hrec]
      exact congrArg some h.parts.2
    rw [visitFrame, if_neg hkind, if_pos hlen, hread]
    have hcrc : (crc64 r.encode).toNat = (Frame.mk seq (.record r)).header.crc := rfl
    simp only [if_pos hcrc, Record.decode_encode]
    exact ⟨rfl, .record seq r _⟩

def FramesAt (st : Storage) : ℕ → List Frame → Prop
  | _, [] => True
  | off, f :: rest => FrameAt st off f ∧ FramesAt st (off + f.req.frameLen) rest

structure Scanned (frames : List Frame) (s : σ) (off last : ℕ) (out : ScanEnd σ) : Prop where
  state : out.state = frames.foldl (applyFrame apply) s
  off : out.off = off + (framesBytes frames).length
  lastSeq : out.lastSeq = (frames.map Frame.seq).getLastD last
  visits : List.Forall₂ Visited frames out.visits

theorem scanLoop_frames {P : σ → Prop} (hlog : ∀ s, P s → SameLog (storage s) st)
    (happly : ∀ s r, P s → P (apply s r).1) (frames : List Frame) :
    ∀ (s : σ) (off last : ℕ), P s → walOffset ≤ off → FramesAt st off frames →
      nextHeader st (off + (framesBytes frames).length) = none →
      Scanned apply frames s off last (scanLoop storage apply s off last) := by
  induction frames with
  | nil =>
    intro s off last hs hoff _ hend
    have hstop : nextHeader (storage s) off = none := (hlog s hs).nextHeader hoff ▸ hend
    rw [scanLoop]
    split
    · exact ⟨rfl, rfl, rfl, .nil⟩
    · rename_i hdr hnext
      rw [hstop] at hnext
      cases hnext
  | cons f frames ih =>
    intro s off last hs hoff hframes hend
    obtain ⟨hf, hrest⟩ := hframes
    have hnext : nextHeader (storage s) off = some f.header :=
      ((hlog s hs).nextHeader hoff).trans (nextHeader_frame hf)
    obtain ⟨hstate, hvisit⟩ := visitFrame_frame storage apply hf hoff (hlog s hs)
    have hs' : P (applyFrame apply s f) := by
      unfold applyFrame
      split
      · exact happly _ _ hs
      · exact hs
    have hlen : off + f.header.len = off + f.req.frameLen := by rw [AppendReq.frameLen]; rfl
    have hend' : nextHeader st (off + f.req.frameLen + (framesBytes frames).length) = none := by
      rw [framesBytes_cons, length_append, Frame.length_bytes, ← Nat.add_assoc] at hend
      exact hend
    have hscan := ih (applyFrame apply s f) (off + f.req.frameLen) f.seq hs' (by omega) hrest hend'
    rw [scanLoop]
    split
    · rename_i hnone
      rw [hnext] at hnone
      cases hnone
    · rename_i hdr hsome
      obtain rfl : f.header = hdr := Option.some.inj (hnext.symm.trans hsome)
      simp only [hstate, hlen]
      refine ⟨hscan.state, ?_, ?_, .cons hvisit hscan.visits⟩
      · change (scanLoop storage apply _ _ f.seq).off = _
        rw [hscan.off, framesBytes_cons, length_append, Frame.length_bytes, Nat.add_assoc]
      · change (scanLoop storage apply _ _ f.seq).lastSeq = _
        rw [hscan.lastSeq, map_cons, getLastD_cons]

end

end SotOs.Sotfs
