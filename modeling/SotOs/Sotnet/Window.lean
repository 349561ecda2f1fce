import SotOs.Sotnet.TcpSpec

/-! Flow control: the window a segment carries, read the way the window-scale option of this stack's
own SYN makes the peer read it, against the room there is in the receive buffer. -/

namespace SotOs.Sotnet
open List
variable {α : Type} {ourIp : UInt32}

def advertisedShift : ℕ := (sotfpParseWscale linuxSynackOpts).toNat

def Segment.told (seg : Segment α) : ℕ := seg.window * 2 ^ advertisedShift

def Sent.tells (x : Sent α) : Bool := x.taken && !has x.seg.flags flagSyn

def Honest : Event α → Prop
  | .sent x => x.tells = true → x.seg.told ≤ x.conn.rxFree
  | .push _ _ _ => True

def FullWhenSent : Event α → Prop
  | .sent x => x.tells = true → rxBufSize ≤ x.conn.rxBuf.toList.length
  | .push _ _ _ => True

instance : DecidablePred (FullWhenSent (α := α))
  | .sent x => inferInstanceAs (Decidable (x.tells = true → rxBufSize ≤ x.conn.rxBuf.toList.length))
  | .push _ _ _ => inferInstanceAs (Decidable True)

structure Flow (α : Type) where
  tcp : Tcp α
  told : Slot → List (Segment α)

def Flow.init : Flow α := ⟨Tcp.init, fun _ => []⟩

def tellers (events : List (Event α)) : List (Segment α) := events.filterMap fun
    | .sent x => if x.tells then some x.seg else none
    | .push _ _ _ => none

def flowStep (ourIp : UInt32) (s : Flow α) (call : Call α) : Flow α × Reply α :=
  let r := tcpStep ourIp s.tcp call
  (⟨r.1, fun i => if (r.1.conns i).isNone then [] else s.told i ++ tellers (r.2.at i)⟩, r.2)

def WithinTold (s : Flow α) (i : Slot) (f : Frame) : Prop :=
  ∃ seg ∈ s.told i, (f.seq - seg.ack).toNat + f.dataLen ≤ seg.told

structure FlowKept (ourIp : UInt32) (e : Machine.Entry (Flow α) (Call α) (Reply α)) : Prop where
  honest : ∀ i, ∀ x ∈ e.reply.at i, Honest x
  accepted : ∀ f isn i c, e.input.op = .packet f isn → Receives ourIp e.pre.tcp i f →
    e.pre.tcp.conns i = some c → c.state = .established → f.hasPayloadBounds = true →
    f.seq = c.rcvNxt → (c.bridged && !c.appOwned) = false → WithinTold e.pre i f →
    f.dataLen ≤ c.rxFree

theorem honest_iff_full {x : Event α} (h : Built x) : Honest x ↔ FullWhenSent x := by
  cases x with
  | push => exact Iff.rfl
  | sent x =>
    have hseg : x.seg = buildSegment x.conn x.seg.flags x.seg.payload := h
    refine imp_congr_right fun htells => ?_
    have hsyn : has x.seg.flags flagSyn = false := by
      simp only [Sent.tells, Bool.and_eq_true, Bool.not_eq_true'] at htells
      exact htells.2
    have hwindow : x.seg.window = min x.conn.rxFree 0xFFFF := by
      rw [hseg]
      simp [buildSegment, segmentWindow, hsyn]
    have hshift : advertisedShift = 10 := by decide
    have hfree : x.conn.rxFree = rxBufSize - x.conn.rxBuf.toList.length := rfl
    have hsize : rxBufSize = 16384 := rfl
    rw [Segment.told, hwindow, hshift]
    omega

theorem full_of_tellers {events : List (Event α)} (hfull : ∀ x ∈ events, FullWhenSent x)
    (hbuilt : ∀ x ∈ events, Built x) : ∀ seg ∈ tellers events, seg.told = 0 := by
  intro seg hseg
  obtain ⟨x, hx, hsome⟩ := mem_filterMap.mp hseg
  cases x with
  | push => cases hsome
  | sent x =>
    simp only [Option.ite_none_right_eq_some, Option.some.injEq] at hsome
    obtain ⟨htells, rfl⟩ := hsome
    have hroom : x.conn.rxFree = 0 := Nat.sub_eq_zero_of_le (hfull _ hx htells)
    have hhonest := (honest_iff_full (hbuilt _ hx)).mpr (hfull _ hx) htells
    omega

def ToldNothing (s : Flow α) : Prop := ∀ i, ∀ seg ∈ s.told i, seg.told = 0

theorem ToldNothing.step {s : Flow α} (call : Call α) (h : ToldNothing s)
    (hfull : ∀ i, ∀ x ∈ (tcpStep ourIp s.tcp call).2.at i, FullWhenSent x) :
    ToldNothing (flowStep ourIp s call).1 := by
  intro i seg hseg
  simp only [flowStep] at hseg
  split_ifs at hseg
  · cases hseg
  · rcases mem_append.mp hseg with hold | hnew
    · exact h i seg hold
    · exact full_of_tellers (hfull i) (tcpStep_slot ourIp s.tcp call i).built seg hnew

theorem full_of_kept {s : Flow α} {calls : List (Call α)}
    {e : Machine.Entry (Flow α) (Call α) (Reply α)}
    (he : e ∈ Machine.trace (flowStep ourIp) s calls) (hkept : FlowKept ourIp e) :
    ∀ i, ∀ x ∈ e.reply.at i, FullWhenSent x := by
  intro i x hx
  have hbuilt : Built x := by
    rw [Machine.mem_trace_reply (flowStep ourIp) he] at hx
    exact (tcpStep_slot ourIp e.pre.tcp e.input i).built x hx
  exact (honest_iff_full hbuilt).mp (hkept.honest i x hx)

/-- Kept exactly if every window is told by a full buffer: free space is told a thousandfold. -/
theorem flow_kept_iff (ourIp : UInt32) (calls : List (Call α)) :
    (∀ e ∈ Machine.trace (flowStep ourIp) Flow.init calls, FlowKept ourIp e) ↔
      ∀ e ∈ Machine.trace (flowStep ourIp) Flow.init calls, ∀ i, ∀ x ∈ e.reply.at i,
        FullWhenSent x := by
  constructor
  · intro hkept e he
    exact full_of_kept he (hkept e he)
  · intro hfull
    have hstart : ToldNothing (Flow.init : Flow α) := by simp [ToldNothing, Flow.init]
    have hrun := Machine.trace_induction_of (flowStep ourIp)
      (P := fun h s => (∀ e ∈ h, FlowKept ourIp e) ∧ ToldNothing s)
      (Q := fun e => ∀ i, ∀ x ∈ e.reply.at i, FullWhenSent x)
      ⟨by simp, hstart⟩ ?_ calls hfull
    · exact hrun.1
    · rintro h s call hQ ⟨hkept, htold⟩
      refine ⟨?_, htold.step call hQ⟩
      rw [forall_mem_append, forall_mem_singleton]
      refine ⟨hkept, ⟨fun i x hx => ?_, ?_⟩⟩
      · exact (honest_iff_full ((tcpStep_slot ourIp s.tcp call i).built x hx)).mpr (hQ i x hx)
      · rintro f isn i c - - - - - - - ⟨seg, hseg, hwithin⟩
        -- a window of zero admits no byte
        rw [htold i seg hseg] at hwithin
        omega

def openingCalls : List (Call UInt8) :=
  [⟨.activeOpen 0x0100000A 0x5000 7 0 1000, true⟩,
    ⟨.packet (.bare 0x0100000A 0x0200000A 0x5000 0x00C0 500 1001 0x12) 0, true⟩]

theorem window_overpromised : ¬ ∀ e ∈ Machine.trace (flowStep 0x0200000A) Flow.init openingCalls,
      FlowKept 0x0200000A e := by
  intro hkept
  have hfull := fun e he => full_of_kept he (hkept e he)
  revert hfull
  decide +kernel

end SotOs.Sotnet
