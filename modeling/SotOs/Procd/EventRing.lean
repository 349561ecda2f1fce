import SotOs.Lib.Machine
import SotOs.Lib.RingStore

/-! The ring procd publishes its events in, with a reader that keeps a cursor of its own. -/

namespace SotOs.Procd.EventRing
open Machine RingStore List

def ringSize : ℕ := 1024

def cell (seq : ℕ) : ℕ := seq % ringSize

structure Event where
  seq : ℕ
  kind : UInt32
  slot : UInt32
  extra32 : UInt32
deriving DecidableEq

structure Ring where
  headSeq : ℕ
  entries : ℕ → Event

def ringInit : Ring := ⟨0, fun _ => ⟨0, 0, 0, 0⟩⟩

def publish (r : Ring) (kind slot extra32 : UInt32) : Ring where
  headSeq := (r.headSeq + 1) % 2 ^ 64
  entries := Function.update r.entries (cell r.headSeq) ⟨r.headSeq, kind, slot, extra32⟩

def snap (head tail : ℕ) : ℕ × Bool :=
  if tail > head then (head, false)
  else if head - tail > ringSize / 2 then (head - ringSize / 4, true)
  else (tail, false)

def copyOut (r : Ring) : ℕ → ℕ → List Event × ℕ
  | tail, 0 => ([], tail)
  | tail, n + 1 =>
    if tail < r.headSeq then
      let (out, tail') := copyOut r (tail + 1) n
      (r.entries (cell tail) :: out, tail')
    else ([], tail)

structure Reader where
  ring : Ring
  tail : ℕ

inductive Act
  | publish (kind slot extra32 : UInt32)
  | drain (maxN : ℕ)

def step (s : Reader) : Act → Reader × (List Event × Bool)
  | .publish kind slot extra32 => ({ s with ring := publish s.ring kind slot extra32 }, [], false)
  | .drain maxN =>
    let (start, overflow) := snap s.ring.headSeq s.tail
    let (out, tail) := copyOut s.ring start maxN
    ({ s with tail }, out, overflow)

def boot (tail : ℕ) : Reader := ⟨ringInit, tail⟩

def record (log : List Event) : Act → List Event
  | .publish kind slot extra32 => log ++ [⟨log.length, kind, slot, extra32⟩]
  | .drain _ => log

def published (acts : List Act) : List Event := acts.foldl record []

def begins (newest tail : ℕ) : ℕ :=
  -- Where a drain has to begin: at the cursor, or, if more than half a ring is unread, a quarter of
  -- a ring behind the newest event.
  if 512 < newest - tail then newest - 256 else min tail newest

structure Drained (log : List Event) (tail maxN : ℕ) (r : Reader × (List Event × Bool)) : Prop where
  events : r.2.1 = (log.drop (begins log.length tail)).take maxN
  cursor : r.1.tail = begins log.length tail + r.2.1.length
  overflow : r.2.2 = true ↔ 512 < log.length - tail
  skipped : tail < begins log.length tail ↔ r.2.2 = true

variable {log : List Event} {s : Reader} {r : Ring} {head tail maxN : ℕ}

theorem copyOut_eq (r : Ring) (n : ℕ) : ∀ tail, copyOut r tail n =
    (load cell r.entries tail (min n (r.headSeq - tail)), tail + min n (r.headSeq - tail)) := by
  induction n with
  | zero => simp [copyOut, load]
  | succ n ih =>
    intro tail
    rw [copyOut, ih (tail + 1)]
    split_ifs with hlt
    · obtain ⟨m, hm⟩ : ∃ m, min (n + 1) (r.headSeq - tail) = m + 1 :=
        ⟨min n (r.headSeq - (tail + 1)), by omega⟩
      have hm' : min n (r.headSeq - (tail + 1)) = m := by omega
      simp only [hm, hm', load, range_succ_eq_map, map_cons, map_map, add_zero,
        Prod.mk.injEq, List.cons.injEq, true_and, Function.comp_def]
      exact ⟨map_congr_left fun i _ => by rw [Nat.add_right_comm, Nat.add_assoc], by omega⟩
    · simp [Nat.sub_eq_zero_of_le (Nat.not_lt.mp hlt), load]

theorem snap_eq (head tail : ℕ) :
    snap head tail = (begins head tail, decide (512 < head - tail)) := by
  unfold snap begins ringSize
  split_ifs <;> simp <;> omega

theorem begins_near (newest tail : ℕ) : newest - begins newest tail ≤ 512 := by
  unfold begins
  split_ifs <;> omega

theorem begins_skips {newest tail : ℕ} : tail < begins newest tail ↔ 512 < newest - tail := by
  unfold begins
  split_ifs <;> omega

theorem min_le_begins (newest tail : ℕ) : min tail newest ≤ begins newest tail := by
  unfold begins
  split_ifs <;> omega

structure Holds (log : List Event) (r : Ring) : Prop where
  head : r.headSeq = log.length
  kept : Kept cell log r.entries

theorem Holds.publish (h : Holds log r) (hfew : log.length + 1 < 2 ^ 64)
    (kind slot extra32 : UInt32) :
    Holds (log ++ [⟨log.length, kind, slot, extra32⟩]) (publish r kind slot extra32) where
  head := by rw [EventRing.publish, h.head, Nat.mod_eq_of_lt hfew, List.length_append]; rfl
  kept := by
    rw [EventRing.publish, h.head]
    exact h.kept.snoc _

theorem Holds.load (h : Holds log r) (maxN : ℕ) {start : ℕ} (hnear : log.length - start ≤ 512) :
    load cell r.entries start (min maxN (log.length - start)) = (log.drop start).take maxN := by
  have hdistinct : ∀ i j, start ≤ i → i < j → j < log.length → cell j ≠ cell i := by
    intro i j hi hij hj
    unfold cell ringSize
    omega
  by_cases hstart : start ≤ log.length
  · rw [h.kept.load (by omega) fun i _ => survives_of_distinct hdistinct,
      ← length_drop, ← take_take, take_length]
  · rw [drop_of_length_le (by omega), Nat.sub_eq_zero_of_le (by omega)]
    simp [RingStore.load]

theorem Holds.drain (h : Holds log s.ring) (maxN : ℕ) :
    Drained log s.tail maxN (step s (.drain maxN)) := by
  have hread := h.load maxN (begins_near log.length s.tail)
  simp only [step, h.head, copyOut_eq, snap_eq, hread]
  exact ⟨rfl, by simp, decide_eq_true_iff, begins_skips.trans decide_eq_true_iff.symm⟩

theorem published_snoc (acts : List Act) (act : Act) :
    published (acts ++ [act]) = record (published acts) act := List.foldl_concat _ _ _ _

theorem published_grows (before after : List Act) :
    published before <+: published (before ++ after) := by
  induction after using reverseRecOn with
  | nil => rw [append_nil]
  | append_singleton after act ih =>
    rw [← append_assoc, published_snoc]
    cases act with
    | publish kind slot extra32 => exact ih.trans (prefix_append _ _)
    | drain maxN => exact ih

theorem published_seq (acts : List Act) :
    (published acts).map (·.seq) = List.range (published acts).length := by
  induction acts using reverseRecOn with
  | nil => rfl
  | append_singleton acts act ih =>
    rw [published_snoc]
    cases act with
    | publish kind slot extra32 => simp [record, ih, range_succ]
    | drain maxN => exact ih

abbrev Turn := Entry Reader Act (List Event × Bool)

def returned (h : List Turn) : List Event := h.flatMap (·.reply.1)

structure RingInv (log : List Event) (h : List Turn) (s : Reader) : Prop where
  holds : Holds log s.ring
  inOrder : (returned h).Sublist (log.take s.tail)

theorem returned_snoc (h : List Turn) (e : Turn) :
    returned (h ++ [e]) = returned h ++ e.reply.1 := by
  simp [returned]

theorem RingInv.drain {h : List Turn} (hi : RingInv log h s) (maxN : ℕ) :
    RingInv log (h ++ [entry step s (.drain maxN)]) (step s (.drain maxN)).1 := by
  have hd := hi.holds.drain maxN
  refine ⟨hi.holds, ?_⟩
  rw [returned_snoc, hd.cursor, take_add]
  refine (hi.inOrder.trans ?_).append ?_
  · rw [take_eq_take_min]
    exact (take_prefix_take_left (min_le_begins _ _)).sublist
  · change (step s (.drain maxN)).2.1.Sublist _
    rw [hd.events, length_take, ← take_eq_take_min]

theorem run_inv (tail : ℕ) (acts : List Act) : (published acts).length < 2 ^ 64 →
    RingInv (published acts) (trace step (boot tail) acts) (exec step (boot tail) acts) := by
  induction acts using reverseRecOn with
  | nil => exact fun _ => ⟨⟨rfl, kept_nil⟩, nil_sublist _⟩
  | append_singleton acts act ih =>
    rw [published_snoc, trace_append, exec_append]
    cases act with
    | publish kind slot extra32 =>
      intro hfew
      rw [record, length_append, length_singleton] at hfew
      have hi := ih (by omega)
      refine ⟨hi.holds.publish hfew kind slot extra32, ?_⟩
      rw [trace, trace, returned_snoc]
      refine (append_nil _).symm ▸ hi.inOrder.trans ?_
      exact ((prefix_append _ _).take _).sublist
    | drain maxN => exact fun hfew => (ih hfew).drain maxN

/-- Every drain gives the published events from the reader's cursor on, or says that it skips some
and gives the last 256; over the run no event is given twice. -/
theorem drains_in_order (tail : ℕ) (acts : List Act) (hfew : (published acts).length < 2 ^ 64) :
    (returned (trace step (boot tail) acts)).Pairwise (fun a b => a.seq < b.seq) ∧
      (published acts).map (·.seq) = List.range (published acts).length ∧
      ∀ before maxN after, acts = before ++ .drain maxN :: after →
        let s := exec step (boot tail) before
        Drained (published before) s.tail maxN (step s (.drain maxN)) := by
  refine ⟨?_, published_seq acts, ?_⟩
  · have hsorted : (published acts).Pairwise fun a b => a.seq < b.seq := by
      rw [← pairwise_map (R := (· < ·)), published_seq]
      exact pairwise_lt_range
    exact hsorted.sublist ((run_inv tail acts hfew).inOrder.trans (take_sublist _ _))
  · rintro before maxN after rfl
    have hlen := (published_grows before (.drain maxN :: after)).length_le
    exact (run_inv tail before (hlen.trans_lt hfew)).holds.drain maxN

def late (n : ℕ) : List Act := replicate n (.publish 1 2 3)

theorem late_tail (n : ℕ) (s : Reader) : (exec step s (late n)).tail = s.tail := by
  induction n generalizing s with
  | zero => rfl
  | succ n ih => exact ih _

theorem late_published (n : ℕ) :
    published (late n) = (List.range n).map fun k => ⟨k, 1, 2, 3⟩ := by
  induction n with
  | zero => rfl
  | succ n ih =>
    rw [late, replicate_succ', published_snoc, record, ← late, ih, range_succ, map_append]
    simp

theorem drains_in_order_late : (published (late 600 ++ [.drain 2])).length < 2 ^ 64 ∧
    (step (exec step (boot 0) (late 600)) (.drain 2)).2 =
      ([⟨344, 1, 2, 3⟩, ⟨345, 1, 2, 3⟩], true) := by
  have hlen : (published (late 600)).length = 600 := by simp [late_published]
  have hfew : (published (late 600 ++ [.drain 2])).length < 2 ^ 64 := by
    rw [published_snoc, record, hlen]
    decide
  have hdrain := (drains_in_order 0 _ hfew).2.2 (late 600) 2 [] rfl
  have hnumbers : ((List.range 600).drop 344).take 2 = [344, 345] := by decide +kernel
  simp only [late_tail] at hdrain
  obtain ⟨hevents, -, hflag, -⟩ := hdrain
  rw [hlen] at hevents hflag
  rw [late_published, ← map_drop, ← map_take, show begins 600 (boot 0).tail = 344 from rfl,
    hnumbers] at hevents
  exact ⟨hfew, Prod.ext_iff.mpr ⟨hevents, hflag.mpr (by simp [boot])⟩⟩

end SotOs.Procd.EventRing
