import SotOs.Lib.Simulation
import SotOs.Lib.RingStore

/-! The byte channel between two address spaces: a ring whose producer owns the write cursor and
whose consumer keeps a read cursor of its own. -/

namespace SotOs.Sotnet.Bytepipe
open RingStore Machine List Fifo

def bytepipeRegionPages : ℕ := 16
def bytepipeRegionBytes : ℕ := bytepipeRegionPages * 4096
def bytepipeHdrBytes : ℕ := 64
def bytepipeDataBytes : ℕ := bytepipeRegionBytes - bytepipeHdrBytes

theorem dataBytes_eq : bytepipeDataBytes = 65472 := rfl

abbrev Cell := Fin bytepipeDataBytes

structure Ring where
  w : UInt32
  data : Cell → UInt8

def cellOf (cursor : UInt32) : Cell := ⟨cursor.toNat % bytepipeDataBytes, Nat.mod_lt _ (by decide)⟩

def writeFrom (data : Cell → UInt8) : UInt32 → List UInt8 → Cell → UInt8
  | _, [] => data
  | w, b :: bs => writeFrom (Function.update data (cellOf w) b) (w + 1) bs

def readFrom (data : Cell → UInt8) (rd : UInt32) (n : ℕ) : List UInt8 :=
  (List.range n).map fun i => data (cellOf (rd + UInt32.ofNat i))

def producerInit : Ring := ⟨0, fun _ => 0⟩

def accepted (src : List UInt8) : List UInt8 := src.take bytepipeDataBytes

def bytepipePush (r : Ring) (src : List UInt8) : Ring × UInt32 :=
  let n := UInt32.ofNat (accepted src).length
  (⟨r.w + n, writeFrom r.data r.w (accepted src)⟩, n)

def resume (r : Ring) (rd : UInt32) : UInt32 × UInt32 :=
  -- Where the consumer reads on, as far back as the ring reaches if it was lapped, and how many
  -- bytes there are.
  let avail := r.w - rd
  if avail > UInt32.ofNat bytepipeDataBytes then
    (r.w - UInt32.ofNat bytepipeDataBytes, UInt32.ofNat bytepipeDataBytes)
  else (rd, avail)

def bytepipePull (r : Ring) (rd max : UInt32) : UInt32 × List UInt8 :=
  let (rd, avail) := resume r rd
  let n := if avail < max then avail else max
  (rd + n, readFrom r.data rd n.toNat)

def pos (k : ℕ) : Cell := cellOf (UInt32.ofNat k)

variable {k : ℕ}

theorem pos_val : (pos k : ℕ) = k % 2 ^ 32 % bytepipeDataBytes := by
  simp [pos, cellOf]

theorem ofNat_succ_cursor : UInt32.ofNat k + 1 = UInt32.ofNat (k + 1) := (UInt32.ofNat_add k 1).symm

variable {data : Cell → UInt8}

theorem writeFrom_eq {bs : List UInt8} :
    writeFrom data (UInt32.ofNat k) bs = store pos data k bs := by
  induction bs generalizing data k with
  | nil => rfl
  | cons b bs ih =>
    rw [writeFrom, store, ofNat_succ_cursor, ih]
    rfl

theorem readFrom_eq {n : ℕ} : readFrom data (UInt32.ofNat k) n = load pos data k n := by
  unfold readFrom load
  simp only [← UInt32.ofNat_add, pos]

variable {i k n : ℕ} {s q : List UInt8}

theorem pos_ne {j : ℕ} (hki : k ≤ i) (hij : i < j) (hj : j < n) (hfit : n - k ≤ bytepipeDataBytes)
    (hwrap : n - k ≤ 4096 ∨ k % 2 ^ 32 + (n - k) ≤ 2 ^ 32) : pos j ≠ pos i := by
  intro heq
  have hval : (pos j : ℕ) = pos i := by rw [heq]
  rw [pos_val, pos_val] at hval
  rw [dataBytes_eq] at hval hfit
  have hnear : j / 2 ^ 32 = i / 2 ^ 32 ∨ j / 2 ^ 32 = i / 2 ^ 32 + 1 := by omega
  have hi := Nat.div_add_mod (i % 2 ^ 32) 65472
  have hj' := Nat.div_add_mod (j % 2 ^ 32) 65472
  rcases hnear with hsame | hnext
  · omega
  · -- past the wrap the same cell comes 4096 bytes later
    have hclose : n - k ≤ 4096 := by omega
    omega

structure Chan where
  ring : Ring
  rd : UInt32

def Chan.backlog (c : Chan) : ℕ := (resume c.ring c.rd).2.toNat

/-- The bytes the consumer will find do not run over a wrap of the cursors, or are few. -/
def Chan.Intact (c : Chan) : Prop :=
  c.backlog ≤ 4096 ∨ (resume c.ring c.rd).1.toNat + c.backlog ≤ 2 ^ 32

instance (c : Chan) : Decidable c.Intact := inferInstanceAs (Decidable (_ ∨ _))

/-- `s` is everything ever pushed, and the consumer has come to byte number `read`. -/
structure Tracks (c : Chan) (s : List UInt8) (read : ℕ) : Prop where
  w_eq : c.ring.w = UInt32.ofNat s.length
  rd_eq : c.rd = UInt32.ofNat read
  read_le : read ≤ s.length
  kept : Kept pos s c.ring.data

def startChan : Chan := ⟨producerInit, 0⟩

theorem tracks_start : Tracks startChan [] 0 := ⟨rfl, rfl, le_rfl, kept_nil⟩

theorem avail_toNat (h : k ≤ n) : (UInt32.ofNat n - UInt32.ofNat k).toNat = (n - k) % 2 ^ 32 := by
  rw [UInt32.toNat_sub, UInt32.toNat_ofNat', UInt32.toNat_ofNat']
  omega

variable {c : Chan}

variable {read : ℕ}

theorem Tracks.backlog_eq (h : Tracks c s read) :
    c.backlog = min ((s.length - read) % 2 ^ 32) bytepipeDataBytes := by
  have hav := avail_toNat h.read_le
  unfold Chan.backlog resume
  rw [h.w_eq, h.rd_eq]
  simp only [gt_iff_lt, UInt32.lt_iff_toNat_lt, hav]
  split_ifs with hlap
  · simp only [UInt32.toNat_ofNat', dataBytes_eq] at hlap ⊢
    omega
  · simp only [UInt32.toNat_ofNat', dataBytes_eq] at hlap
    rw [hav, dataBytes_eq]
    omega

theorem Tracks.backlog_le (h : Tracks c s read) : c.backlog ≤ s.length - read := by
  have hb := h.backlog_eq
  have hmod := Nat.mod_le (s.length - read) (2 ^ 32)
  omega

theorem Tracks.resume_eq (h : Tracks c s read) :
    resume c.ring c.rd = (UInt32.ofNat (s.length - c.backlog), UInt32.ofNat c.backlog) := by
  have hav := avail_toNat h.read_le
  have hb := h.backlog_eq
  have hle := h.backlog_le
  have hread := h.read_le
  refine Prod.ext ?_ (UInt32.ofNat_toNat).symm
  unfold resume
  rw [h.w_eq, h.rd_eq]
  simp only [gt_iff_lt, UInt32.lt_iff_toNat_lt, hav]
  rw [dataBytes_eq] at hb ⊢
  split_ifs with hlap
  · have hb' : c.backlog = 65472 := by
      simp only [UInt32.toNat_ofNat'] at hlap
      omega
    apply UInt32.toNat_inj.mp
    rw [UInt32.toNat_sub, UInt32.toNat_ofNat', UInt32.toNat_ofNat', UInt32.toNat_ofNat', hb']
    omega
  · simp only [UInt32.toNat_ofNat'] at hlap
    apply UInt32.toNat_inj.mp
    rw [UInt32.toNat_ofNat', UInt32.toNat_ofNat']
    omega

theorem Tracks.backlog_data (h : Tracks c s read) : c.backlog ≤ bytepipeDataBytes := by
  rw [h.backlog_eq]
  exact Nat.min_le_right _ _

theorem Tracks.window (h : Tracks c s read) (hi : c.Intact) (hn : i + n ≤ c.backlog) :
    readFrom c.ring.data (UInt32.ofNat (s.length - c.backlog + i)) n =
      ((s.drop (s.length - c.backlog)).drop i).take n := by
  have hle := h.backlog_le
  have hdata := h.backlog_data
  have hwrap : c.backlog ≤ 4096 ∨ (s.length - c.backlog) % 2 ^ 32 + c.backlog ≤ 2 ^ 32 := by
    simpa [Chan.Intact, h.resume_eq] using hi
  rw [readFrom_eq, drop_drop]
  refine h.kept.load (by omega) fun m hm => ?_
  rw [Nat.add_assoc]
  refine survives_of_distinct ?_
  intro a b ha hab hb
  have hlen : s.length - (s.length - c.backlog) = c.backlog := by omega
  exact pos_ne ha hab hb (by omega) (by rwa [hlen])

theorem Tracks.push (h : Tracks c s read) (src : List UInt8) :
    Tracks ⟨(bytepipePush c.ring src).1, c.rd⟩ (s ++ accepted src) read where
  w_eq := by rw [bytepipePush, h.w_eq, List.length_append, UInt32.ofNat_add]
  rd_eq := h.rd_eq
  read_le := h.read_le.trans (by simp)
  kept := by
    rw [bytepipePush, h.w_eq, writeFrom_eq]
    exact h.kept.store _

theorem pull_eq {r : Ring} {rd max : UInt32} : bytepipePull r rd max =
      let n := min (resume r rd).2.toNat max.toNat
      ((resume r rd).1 + UInt32.ofNat n, readFrom r.data (resume r rd).1 n) := by
  unfold bytepipePull
  have hn : (if (resume r rd).2 < max then (resume r rd).2 else max) =
      UInt32.ofNat (min (resume r rd).2.toNat max.toNat) := by
    split_ifs with hlt
    · rw [Nat.min_eq_left (UInt32.lt_iff_toNat_lt.mp hlt).le, UInt32.ofNat_toNat]
    · rw [UInt32.lt_iff_toNat_lt] at hlt
      rw [Nat.min_eq_right (by omega), UInt32.ofNat_toNat]
  have hle : min (resume r rd).2.toNat max.toNat < 2 ^ 32 := by
    have := max.toNat_lt
    omega
  simp only [hn, UInt32.toNat_ofNat', Nat.mod_eq_of_lt hle]

theorem Tracks.backlog_all (h : Tracks c s read)
    (hroom : s.length - read ≤ bytepipeDataBytes) : c.backlog = s.length - read := by
  rw [h.backlog_eq]
  rw [dataBytes_eq] at hroom ⊢
  omega

theorem Tracks.moved (h : Tracks c s read) (hn : n ≤ c.backlog)
    (hall : c.backlog = s.length - read) :
    Tracks ⟨c.ring, (resume c.ring c.rd).1 + UInt32.ofNat n⟩ s (read + n) where
  w_eq := h.w_eq
  rd_eq := by
    have hread := h.read_le
    have hback : s.length - c.backlog = read := by omega
    rw [h.resume_eq, hback, UInt32.ofNat_add]
  read_le := by
    have := h.read_le
    omega
  kept := h.kept

inductive PipeOp
  | push (src : List UInt8)
  | pull (max : UInt32)

inductive PipeReply
  | pushed (n : UInt32)
  | pulled (bytes : List UInt8)

def PipeReply.bytes : PipeReply → List UInt8
  | .pushed _ => []
  | .pulled bytes => bytes

def pipeStep (c : Chan) : PipeOp → Chan × PipeReply
  | .push src =>
    let (ring, n) := bytepipePush c.ring src
    (⟨ring, c.rd⟩, .pushed n)
  | .pull max =>
    let (rd, bytes) := bytepipePull c.ring c.rd max
    (⟨c.ring, rd⟩, .pulled bytes)

def PipeOp.request : PipeOp → Fifo.Op UInt8
  | .push src => .push (accepted src)
  | .pull max => .pull max.toNat

/-- No pull finds more than 4096 bytes laid over a wrap of the cursors. -/
def KeepsIntact (e : Entry Chan PipeOp PipeReply) : Prop :=
  match e.input with
  | .push _ => True
  | .pull _ => e.pre.Intact

instance (e : Entry Chan PipeOp PipeReply) : Decidable (KeepsIntact e) := by
  unfold KeepsIntact
  split <;> infer_instance

def LeavesRoom (e : Entry (List UInt8) (Fifo.Op UInt8) (List UInt8)) : Prop :=
  (Fifo.step e.pre e.input).1.length ≤ bytepipeDataBytes

instance (e : Entry (List UInt8) (Fifo.Op UInt8) (List UInt8)) :
    Decidable (LeavesRoom e) := inferInstanceAs (Decidable (_ ≤ _))

def Holds (c : Chan) (q : List UInt8) : Prop :=
  q.length ≤ bytepipeDataBytes ∧ ∃ s read, Tracks c s read ∧ q = s.drop read

theorem Holds.push (h : Holds c q) (src : List UInt8)
    (hroom : (q ++ accepted src).length ≤ bytepipeDataBytes) :
    Holds ⟨(bytepipePush c.ring src).1, c.rd⟩ (q ++ accepted src) := by
  obtain ⟨-, s, read, ht, rfl⟩ := h
  refine ⟨hroom, s ++ accepted src, read, ht.push src, ?_⟩
  rw [drop_append_of_le_length ht.read_le]

theorem Holds.pull (h : Holds c q) (hi : c.Intact) (max : UInt32) :
    Holds ⟨c.ring, (bytepipePull c.ring c.rd max).1⟩ (q.drop max.toNat) ∧
      (bytepipePull c.ring c.rd max).2 = q.take max.toNat := by
  obtain ⟨hroom, s, read, ht, rfl⟩ := h
  rw [length_drop] at hroom
  have hall := ht.backlog_all hroom
  have hread := ht.read_le
  have hback : s.length - c.backlog = read := by omega
  rw [pull_eq, ← Chan.backlog]
  constructor
  · refine ⟨by simp only [length_drop]; omega, s, read + min c.backlog max.toNat,
      ht.moved (Nat.min_le_left _ _) hall, ?_⟩
    rw [drop_drop]
    rcases Nat.le_total c.backlog max.toNat with hle | hle
    · rw [Nat.min_eq_left hle, drop_eq_nil_of_le (by omega), drop_eq_nil_of_le (by omega)]
    · rw [Nat.min_eq_right hle]
  · have hwin := ht.window hi (i := 0) (n := min c.backlog max.toNat) (by omega)
    rw [Nat.add_zero, drop_zero, hback] at hwin
    rw [ht.resume_eq, hback]
    refine hwin.trans ?_
    rcases Nat.le_total c.backlog max.toNat with hle | hle
    · rw [Nat.min_eq_left hle, take_of_length_le (by rw [length_drop]; omega),
        take_of_length_le (by rw [length_drop]; omega)]
    · rw [Nat.min_eq_right hle]

theorem pipeStep_holds (c : Chan) (q : List UInt8) (op : PipeOp) (h : Holds c q)
    (hi : KeepsIntact (entry pipeStep c op))
    (hroom : LeavesRoom (entry step q op.request)) :
    Holds (pipeStep c op).1 (step q op.request).1 ∧
      (pipeStep c op).2.bytes = (step q op.request).2 := by
  cases op with
  | push src => exact ⟨h.push src hroom, rfl⟩
  | pull max => exact h.pull hi max

/-- The channel answers like a queue. -/
theorem bytes_in_order (ops : List PipeOp)
    (hroom : ∀ e ∈ trace Fifo.step [] (ops.map PipeOp.request), LeavesRoom e)
    (hwrap : ∀ e ∈ trace pipeStep startChan ops, KeepsIntact e) :
    (trace pipeStep startChan ops).map (fun e => e.reply.bytes) =
      (trace Fifo.step [] (ops.map PipeOp.request)).map fun e => e.reply :=
  (simulation _ _ pipeStep_holds ⟨Nat.zero_le _, [], 0, tracks_start, rfl⟩ ops hwrap hroom).2

def shortExchange : List PipeOp := [.push [1, 2, 3], .pull 2, .push [4], .pull 9]

theorem short_exchange_in_order :
    (trace pipeStep startChan shortExchange).map (fun e => e.reply.bytes) =
      [[], [1, 2], [], [3, 4]] :=
  (bytes_in_order shortExchange (by decide +kernel) (by decide +kernel)).trans
    (by decide +kernel)

def rounds : ℕ → List PipeOp
  | 0 => []
  | k + 1 => rounds k ++ [.push [0], .pull 1]

theorem rounds_tracks : ∃ s, s.length = k ∧ Tracks (exec pipeStep startChan (rounds k)) s k := by
  induction k with
  | zero => exact ⟨[], rfl, tracks_start⟩
  | succ k ih =>
    obtain ⟨s, hs, ht⟩ := ih
    rw [rounds, exec_append]
    generalize exec pipeStep startChan (rounds k) = c at ht ⊢
    have hpush := ht.push [0]
    have hlen : (s ++ accepted [0]).length = k + 1 := by
      rw [length_append, hs]
      rfl
    have hall := hpush.backlog_all (by rw [hlen, dataBytes_eq]; omega)
    rw [hlen, Nat.add_sub_cancel_left] at hall
    refine ⟨s ++ accepted [0], hlen, ?_⟩
    have hmoved := hpush.moved (n := 1) (by omega) (by rw [hlen]; omega)
    have hn : min (resume (bytepipePush c.ring [0]).1 c.rd).2.toNat (1 : UInt32).toNat = 1 := by
      rw [show (resume (bytepipePush c.ring [0]).1 c.rd).2.toNat = 1 from hall]
      rfl
    simp only [exec, pipeStep, pull_eq, hn]
    exact hmoved

theorem rounds_fifo : exec step [] ((rounds k).map PipeOp.request) = [] ∧
      ∀ e ∈ trace step [] ((rounds k).map PipeOp.request), LeavesRoom e := by
  induction k with
  | zero => exact ⟨rfl, forall_mem_nil _⟩
  | succ k ih =>
    rw [rounds, map_append, exec_append, trace_append, ih.1]
    refine ⟨rfl, ?_⟩
    rw [forall_mem_append]
    exact ⟨ih.2, by decide +kernel⟩

def longPush : List UInt8 := 1 :: List.replicate 4096 0

def longCalls : List PipeOp := [.push longPush, .pull 4097]

def wrapRun : List PipeOp := rounds (2 ^ 32 - 1) ++ longCalls

theorem longPush_length : longPush.length = 4097 := by
  rw [longPush, length_cons, length_replicate]

theorem accepted_longPush : accepted longPush = longPush :=
  take_of_length_le (by rw [longPush_length, dataBytes_eq]; omega)

theorem longPush_read (h : Tracks c s (2 ^ 32 - 1)) (hs : s.length = 2 ^ 32 - 1) :
    (bytepipePull (bytepipePush c.ring longPush).1 c.rd 4097).2[0]? = some 0 := by
  have ht := h.push longPush
  rw [accepted_longPush] at ht
  have hlen : (s ++ longPush).length = 2 ^ 32 - 1 + 4097 := by
    rw [length_append, hs, longPush_length]
  have hall := ht.backlog_all (by rw [hlen, dataBytes_eq]; omega)
  rw [hlen, Nat.add_sub_cancel_left] at hall
  have hresume := ht.resume_eq
  rw [hlen, hall, Nat.add_sub_cancel] at hresume
  have hcell : pos (2 ^ 32 - 1) = pos (2 ^ 32 - 1 + 4096) := by
    apply Fin.ext
    rw [pos_val, pos_val, dataBytes_eq]
    omega
  have hlast : (s ++ longPush)[2 ^ 32 - 1 + 4096]? = some 0 := by
    rw [getElem?_append_right (by omega), hs, Nat.add_sub_cancel_left, longPush,
      getElem?_cons_succ, getElem?_replicate_of_lt (by omega)]
  have hbound : 2 ^ 32 - 1 + 4096 < (s ++ longPush).length := by omega
  have hkept := ht.kept (2 ^ 32 - 1 + 4096) hbound (fun j hj hjn => by omega)
  rw [getElem?_eq_getElem hbound, ← hkept, ← hcell] at hlast
  have hn : min (UInt32.ofNat 4097).toNat (4097 : UInt32).toNat = 4096 + 1 := rfl
  rw [pull_eq]
  dsimp only at hresume ⊢
  rw [hresume, hn, readFrom_eq, load_head]
  exact hlast

theorem longPush_after {before : List PipeOp}
    (hq : exec step [] (before.map PipeOp.request) = [])
    (hroom : ∀ e ∈ trace step [] (before.map PipeOp.request), LeavesRoom e)
    (ht : Tracks (exec pipeStep startChan before) s (2 ^ 32 - 1))
    (hs : s.length = 2 ^ 32 - 1) :
    (∀ e ∈ trace step [] ((before ++ longCalls).map PipeOp.request), LeavesRoom e) ∧
      (trace pipeStep startChan (before ++ longCalls)).map (fun e => e.reply.bytes) ≠
        (trace step [] ((before ++ longCalls).map PipeOp.request)).map
          fun e => e.reply := by
  rw [map_append, trace_append, trace_append, hq, map_append, map_append]
  constructor
  · rw [forall_mem_append]
    refine ⟨hroom, ?_⟩
    intro e he
    simp only [longCalls, map_cons, map_nil, trace, entry,
      PipeOp.request, accepted_longPush, mem_cons, not_mem_nil, or_false] at he
    rcases he with rfl | rfl
    · simp only [LeavesRoom, step, nil_append, longPush_length, dataBytes_eq]
      omega
    · simp only [LeavesRoom, step, nil_append, length_drop, longPush_length,
        dataBytes_eq]
      omega
  · intro heq
    have hend := append_inj_right heq (by
      rw [length_map, length_map, length_trace, length_trace, length_map])
    simp only [longCalls, map_cons, map_nil, trace, entry,
      PipeOp.request, accepted_longPush, pipeStep, step, PipeReply.bytes, nil_append,
      List.cons.injEq, and_true, true_and] at hend
    have hread := longPush_read ht hs
    have hmax : longPush.length ≤ (4097 : UInt32).toNat := longPush_length.le
    rw [hend, take_of_length_le hmax, longPush, getElem?_cons_zero] at hread
    exact absurd hread (by decide)

theorem wrap_loses_byte : (∀ e ∈ trace Fifo.step [] (wrapRun.map PipeOp.request), LeavesRoom e) ∧
      (trace pipeStep startChan wrapRun).map (fun e => e.reply.bytes) ≠
        (trace Fifo.step [] (wrapRun.map PipeOp.request)).map fun e => e.reply := by
  obtain ⟨hq, hroom⟩ := rounds_fifo
  obtain ⟨s, hs, ht⟩ := rounds_tracks
  rw [wrapRun]
  exact longPush_after hq hroom ht hs

end SotOs.Sotnet.Bytepipe
