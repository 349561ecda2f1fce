import SotOs.Lib.Machine

/-! The futex waiters of a sotbox: a table of slots with a counter beside it. -/

namespace SotOs.Lucas.Futex
open Machine List

def waitersMax : ℕ := 32

structure Waiter where
  addr : UInt64
  replyCap : UInt64
  ownerSlot : ℤ
  bitset : UInt32
  parkedTcb : UInt64
deriving DecidableEq

structure Queue where
  waiters : List (Option Waiter)
  nWaiters : ℕ

def empty : Queue := ⟨List.replicate waitersMax none, 0⟩

def enqueueIn (w : Waiter) : List (Option Waiter) → Option (List (Option Waiter))
  | [] => none
  | none :: slots => some (some w :: slots)
  | some v :: slots => (enqueueIn w slots).map (some v :: ·)

def matchAll (w : Waiter) : Waiter := if w.bitset = 0 then { w with bitset := 0xFFFFFFFF } else w

def enqueue (q : Queue) (w : Waiter) : Queue × ℤ :=
  match enqueueIn (matchAll w) q.waiters with
  | none => (q, -1)
  | some slots =>
    (⟨slots, if q.nWaiters < waitersMax then q.nWaiters + 1 else q.nWaiters⟩, 0)

/-- One pass over the slots: of the waiters that are hit, `nWake` are woken, `nMove` more are put
on the address `dest`, and the others are passed over. -/
def scan (hit : Waiter → Bool) (dest : UInt64) :
    ℕ → ℕ → List (Option Waiter) → List (Option Waiter) × List Waiter × ℕ
  | _, _, [] => ([], [], 0)
  | nWake, nMove, none :: slots =>
    let (slots, woken, moved) := scan hit dest nWake nMove slots
    (none :: slots, woken, moved)
  | nWake, nMove, some w :: slots =>
    if hit w then
      match nWake, nMove with
      | nWake + 1, nMove =>
        let (slots, woken, moved) := scan hit dest nWake nMove slots
        (none :: slots, w :: woken, moved)
      | 0, nMove + 1 =>
        let (slots, woken, moved) := scan hit dest 0 nMove slots
        (some { w with addr := dest } :: slots, woken, moved + 1)
      | 0, 0 => (some w :: slots, [], 0)
    else
      let (slots, woken, moved) := scan hit dest nWake nMove slots
      (some w :: slots, woken, moved)

def Queue.scan (q : Queue) (hit : Waiter → Bool) (dest : UInt64) (nWake nMove : ℤ) :
    Queue × List Waiter × ℤ :=
  -- Every waiter woken is counted down.
  let (slots, woken, moved) := Futex.scan hit dest nWake.toNat nMove.toNat q.waiters
  (⟨slots, q.nWaiters - woken.length⟩, woken, woken.length + moved)

def wakeBitset (q : Queue) (uaddr : UInt64) (maxWake : ℤ) (bitset : UInt32) :
    Queue × List Waiter × ℤ :=
  if bitset = 0 then (q, [], 0)
  else q.scan (fun w => w.addr == uaddr && w.bitset &&& bitset != 0) 0 maxWake 0

def wake (q : Queue) (uaddr : UInt64) (maxWake : ℤ) : Queue × List Waiter × ℤ :=
  wakeBitset q uaddr maxWake 0xFFFFFFFF

/-- `check` is the value compared, with what is read at `uaddr` if that can be read. -/
def requeue (q : Queue) (uaddr : UInt64) (nrWake : ℤ) (uaddr2 : UInt64) (nrRequeue : ℤ)
    (check : Option (UInt32 × Option UInt32)) : Queue × List Waiter × ℤ :=
  match check with
  | some (_, none) => (q, [], -14)
  | some (cmpval, some cur) =>
    if cur ≠ cmpval then (q, [], -11)
    else q.scan (·.addr == uaddr) uaddr2 nrWake nrRequeue
  | none => q.scan (·.addr == uaddr) uaddr2 nrWake nrRequeue

inductive Op
  | enqueue (w : Waiter)
  | wake (uaddr : UInt64) (maxWake : ℤ)
  | wakeBitset (uaddr : UInt64) (maxWake : ℤ) (bitset : UInt32)
  | requeue (uaddr : UInt64) (nrWake : ℤ) (uaddr2 : UInt64) (nrRequeue : ℤ)
    (check : Option (UInt32 × Option UInt32))

def step (q : Queue) : Op → Queue × List Waiter × ℤ
  | .enqueue w => ((enqueue q w).1, [], (enqueue q w).2)
  | .wake uaddr maxWake => wake q uaddr maxWake
  | .wakeBitset uaddr maxWake bitset => wakeBitset q uaddr maxWake bitset
  | .requeue uaddr nrWake uaddr2 nrRequeue check => requeue q uaddr nrWake uaddr2 nrRequeue check

abbrev Turn := Entry Queue Op (List Waiter × ℤ)

def occupants (slots : List (Option Waiter)) : List Waiter := slots.filterMap id

def waiting (q : Queue) : List Waiter := occupants q.waiters

def woken (h : List Turn) : List Waiter := h.flatMap (·.reply.1)

def enqueued (h : List Turn) : List Waiter := h.filterMap fun e => match e.input with
  | .enqueue w => if e.reply.2 = 0 then some w else none
  | _ => none

def moveTo (dest : UInt64) (w : Waiter) : Waiter := { w with addr := dest }

variable {hit : Waiter → Bool} {dest : UInt64} {slots slots' : List (Option Waiter)} {q : Queue}

structure Scanned (hit : Waiter → Bool) (dest : UInt64) (nWake nMove : ℕ)
    (before after woken : List Waiter) (moved : ℕ) : Prop where
  woken : woken = (before.filter hit).take nWake
  moved : moved = min nMove ((before.filter hit).length - nWake)
  after : after.Perm (before.filter (!hit ·) ++ (before.filter hit).drop (nWake + nMove) ++
    (((before.filter hit).drop nWake).take nMove).map (moveTo dest))

section
variable {nWake nMove moved : ℕ} {w : Waiter} {before after woken : List Waiter}

theorem Scanned.stop (before : List Waiter) : Scanned hit dest 0 0 before before [] 0 := by
  refine ⟨rfl, by simp, ?_⟩
  simpa using (filter_append_perm hit before).symm.trans perm_append_comm

theorem Scanned.pass (h : Scanned hit dest nWake nMove before after woken moved)
    (hw : ¬hit w = true) : Scanned hit dest nWake nMove (w :: before) (w :: after) woken moved := by
  refine ⟨?_, ?_, ?_⟩
  · rw [filter_cons_of_neg hw, h.woken]
  · rw [filter_cons_of_neg hw, h.moved]
  · simpa [hw] using h.after

theorem Scanned.wake (h : Scanned hit dest nWake nMove before after woken moved)
    (hw : hit w = true) :
    Scanned hit dest (nWake + 1) nMove (w :: before) after (w :: woken) moved := by
  refine ⟨?_, ?_, ?_⟩
  · rw [filter_cons_of_pos hw, h.woken, take_succ_cons]
  · rw [filter_cons_of_pos hw, h.moved, length_cons, Nat.add_sub_add_right]
  · simpa [hw, Nat.add_right_comm nWake 1] using h.after

theorem Scanned.move (h : Scanned hit dest 0 nMove before after woken moved) (hw : hit w = true) :
    Scanned hit dest 0 (nMove + 1) (w :: before) (moveTo dest w :: after) woken (moved + 1) := by
  refine ⟨by simpa using h.woken, ?_, ?_⟩
  · rw [filter_cons_of_pos hw, h.moved, length_cons]
    omega
  · have hafter := (h.after.cons (moveTo dest w)).trans perm_middle.symm
    simpa [hw] using hafter

end

theorem scan_spec (hit : Waiter → Bool) (dest : UInt64) (slots : List (Option Waiter)) :
    ∀ nWake nMove, let r := scan hit dest nWake nMove slots
      r.1.length = slots.length ∧
        Scanned hit dest nWake nMove (occupants slots) (occupants r.1) r.2.1 r.2.2 := by
  induction slots with
  | nil => exact fun _ _ => ⟨rfl, by constructor <;> simp [scan, occupants]⟩
  | cons slot slots ih =>
    intro nWake nMove
    have hlen : ∀ {n m}, _ := fun {n m} => congrArg (· + 1) (ih n m).1
    rcases slot with _ | w
    · exact ⟨hlen, (ih nWake nMove).2⟩
    by_cases hw : hit w = true
    · simp only [scan, if_pos hw]
      rcases nWake with _ | nWake
      · rcases nMove with _ | nMove
        · exact ⟨rfl, .stop _⟩
        · exact ⟨hlen, (ih 0 nMove).2.move hw⟩
      · exact ⟨hlen, (ih nWake nMove).2.wake hw⟩
    · simp only [scan, if_neg hw]
      exact ⟨hlen, (ih nWake nMove).2.pass hw⟩

theorem enqueueIn_some {w : Waiter} (h : enqueueIn w slots = some slots') :
    (occupants slots').Perm (w :: occupants slots) ∧ slots'.length = slots.length ∧
      (occupants slots).length < slots.length := by
  induction slots generalizing slots' with
  | nil => cases h
  | cons slot slots ih =>
    rcases slot with _ | v
    · obtain ⟨⟩ := h
      exact ⟨.refl _, rfl, Nat.lt_succ_of_le (length_filterMap_le id slots)⟩
    · obtain ⟨more, hmore, rfl⟩ := Option.map_eq_some_iff.mp h
      obtain ⟨hperm, hlen, hlt⟩ := ih hmore
      exact ⟨(hperm.cons v).trans (.swap w v _), congrArg (· + 1) hlen, Nat.succ_lt_succ hlt⟩

theorem enqueueIn_none {w : Waiter} (h : enqueueIn w slots = none) :
    (occupants slots).length = slots.length := by
  induction slots with
  | nil => rfl
  | cons slot slots ih =>
    rcases slot with _ | v
    · cases h
    · exact congrArg (· + 1) (ih (Option.map_eq_none_iff.mp h))

theorem Scanned.congr {hit' : Waiter → Bool} {nWake nMove moved : ℕ}
    {before after woken : List Waiter} (h : Scanned hit dest nWake nMove before after woken moved)
    (hhit : ∀ w ∈ before, hit w = hit' w) :
    Scanned hit' dest nWake nMove before after woken moved := by
  obtain ⟨hwoken, hmoved, hafter⟩ := h
  have hpass : before.filter (!hit ·) = before.filter (!hit' ·) :=
    filter_congr fun w hw => by rw [hhit w hw]
  rw [filter_congr hhit] at hwoken hmoved hafter
  rw [hpass] at hafter
  exact ⟨hwoken, hmoved, hafter⟩

theorem Scanned.bitsets {nWake nMove moved : ℕ} {before after woken : List Waiter}
    (h : Scanned hit dest nWake nMove before after woken moved)
    (hbits : ∀ w ∈ before, w.bitset ≠ 0) : ∀ w ∈ after, w.bitset ≠ 0 := by
  intro w hw
  rw [h.after.mem_iff, mem_append, mem_append, mem_map] at hw
  rcases hw with (hpass | hleft) | ⟨v, hv, rfl⟩
  · exact hbits w (mem_of_mem_filter hpass)
  · exact hbits w (mem_of_mem_filter (mem_of_mem_drop hleft))
  · exact hbits v (mem_of_mem_filter (mem_of_mem_drop (mem_of_mem_take hv)))

theorem Scanned.caps {nWake nMove moved : ℕ} {before after woken : List Waiter}
    (h : Scanned hit dest nWake nMove before after woken moved) :
    ((woken ++ after).map (·.replyCap)).Perm (before.map (·.replyCap)) := by
  have hsplit : (before.filter hit).map (·.replyCap) =
      ((before.filter hit).take nWake).map (·.replyCap) ++
        ((((before.filter hit).drop nWake).take nMove).map (·.replyCap) ++
          ((before.filter hit).drop (nWake + nMove)).map (·.replyCap)) := by
    rw [← map_append, ← map_append, ← drop_drop, take_append_drop,
      take_append_drop]
  have hall := (filter_append_perm hit before).map (·.replyCap)
  have hafter := h.after.map (·.replyCap)
  simp only [map_append, hsplit, map_map, h.woken] at hall hafter ⊢
  refine (hafter.append_left _).trans (.trans ?_ hall)
  rw [← Multiset.coe_eq_coe]
  simp only [← Multiset.coe_add, Function.comp_def, moveTo]
  abel

structure QueueInv (h : List Turn) (q : Queue) : Prop where
  size : q.waiters.length = waitersMax
  counted : q.nWaiters = (waiting q).length
  balance : ((woken h ++ waiting q).map (·.replyCap)).Perm ((enqueued h).map (·.replyCap))
  bits : ∀ w ∈ waiting q, w.bitset ≠ 0

theorem woken_snoc (h : List Turn) (e : Turn) : woken (h ++ [e]) = woken h ++ e.reply.1 := by
  simp [woken]

theorem enqueued_snoc (h : List Turn) (e : Turn) :
    enqueued (h ++ [e]) = enqueued h ++ enqueued [e] := List.filterMap_append

theorem matchAll_bitset (w : Waiter) : (matchAll w).bitset ≠ 0 := by
  unfold matchAll
  split_ifs with hzero
  · exact (by decide : (0xFFFFFFFF : UInt32) ≠ 0)
  · exact hzero

section
variable {h : List Turn} {op : Op}

theorem QueueInv.same (hi : QueueInv h q) {ret : ℤ} (hstep : step q op = (q, [], ret))
    (hop : enqueued [entry step q op] = []) : QueueInv (h ++ [entry step q op]) (step q op).1 := by
  rw [hstep]
  refine ⟨hi.size, hi.counted, ?_, hi.bits⟩
  rw [woken_snoc, enqueued_snoc, hop, append_nil, entry, hstep, append_nil]
  exact hi.balance

theorem QueueInv.scan (hi : QueueInv h q) {nWake nMove : ℤ}
    (hstep : step q op = q.scan hit dest nWake nMove) (hop : enqueued [entry step q op] = []) :
    QueueInv (h ++ [entry step q op]) (step q op).1 := by
  obtain ⟨hlen, hs⟩ := Futex.scan_spec hit dest q.waiters nWake.toNat nMove.toNat
  have hcaps := hs.caps
  have hsum := hcaps.length_eq
  rw [length_map, length_map, length_append] at hsum
  rw [hstep]
  refine ⟨hlen.trans hi.size, ?_, ?_, hs.bitsets hi.bits⟩
  · change q.nWaiters - _ = _
    rw [hi.counted]
    exact Nat.sub_eq_of_eq_add' hsum.symm
  · rw [woken_snoc, enqueued_snoc, hop, append_nil, entry, hstep, append_assoc]
    refine .trans ?_ hi.balance
    simp only [map_append] at hcaps ⊢
    exact hcaps.append_left _

theorem QueueInv.enqueue (hi : QueueInv h q) (w : Waiter) :
    QueueInv (h ++ [entry step q (.enqueue w)]) (step q (.enqueue w)).1 := by
  cases hput : enqueueIn (matchAll w) q.waiters with
  | none =>
    have hstep : step q (.enqueue w) = (q, [], -1) := by simp [step, Futex.enqueue, hput]
    exact hi.same hstep (by simp [enqueued, entry, hstep])
  | some slots =>
    obtain ⟨hperm, hlen, hfree⟩ := enqueueIn_some hput
    have hroom : q.nWaiters < waitersMax := by
      rw [hi.counted, ← hi.size]
      exact hfree
    have hstep : step q (.enqueue w) = (⟨slots, q.nWaiters + 1⟩, [], 0) := by
      simp [step, Futex.enqueue, hput, hroom]
    have hnew : enqueued [entry step q (.enqueue w)] = [w] := by simp [enqueued, entry, hstep]
    rw [hstep]
    refine ⟨hlen.trans hi.size, ?_, ?_, ?_⟩
    · change q.nWaiters + 1 = _
      rw [hi.counted]
      exact hperm.length_eq.symm
    · have hcap : (matchAll w).replyCap = w.replyCap := by unfold matchAll; split_ifs <;> rfl
      rw [woken_snoc, enqueued_snoc, hnew, entry, hstep, append_nil]
      have hold := hi.balance.append_right [w.replyCap]
      have hslots := (hperm.map (·.replyCap)).append_left ((woken h).map (·.replyCap))
      rw [map_cons, hcap] at hslots
      simp only [map_append, map_cons, map_nil, append_assoc] at hold ⊢
      exact hslots.trans (.trans (.append_left _ (perm_append_singleton _ _).symm) hold)
    · intro v hv
      rcases mem_cons.mp (hperm.mem_iff.mp hv) with rfl | hold
      · exact matchAll_bitset w
      · exact hi.bits v hold

end

theorem run_inv (ops : List Op) : QueueInv (trace step empty ops) (exec step empty ops) := by
  refine trace_induction step ⟨rfl, rfl, .refl _, forall_mem_nil _⟩ (fun h q op hi => ?_) ops
  cases op with
  | enqueue w => exact hi.enqueue w
  | wake uaddr maxWake => exact hi.scan rfl rfl
  | wakeBitset uaddr maxWake bitset =>
    by_cases hb : bitset = 0
    · exact hi.same (by rw [step, wakeBitset, if_pos hb]) rfl
    · exact hi.scan (by rw [step, wakeBitset, if_neg hb]) rfl
  | requeue uaddr nrWake uaddr2 nrRequeue check =>
    rcases check with _ | ⟨cmpval, _ | cur⟩
    · exact hi.scan rfl rfl
    · exact hi.same rfl rfl
    · by_cases hcmp : cur ≠ cmpval
      · exact hi.same (by rw [step, requeue, if_pos hcmp]) rfl
      · exact hi.scan (by rw [step, requeue, if_neg hcmp]) rfl

theorem QueueInv.accepts {h : List Turn} (hi : QueueInv h q) (w : Waiter) :
    (step q (.enqueue w)).2.2 = 0 ↔ (waiting q).length < waitersMax := by
  cases hput : enqueueIn (matchAll w) q.waiters with
  | none =>
    have hfull : (waiting q).length = waitersMax := (enqueueIn_none hput).trans hi.size
    simp [step, Futex.enqueue, hput, hfull]
  | some slots =>
    have hfree := (enqueueIn_some hput).2.2
    rw [hi.size] at hfree
    exact iff_of_true (by simp [step, Futex.enqueue, hput]) hfree

end SotOs.Lucas.Futex
