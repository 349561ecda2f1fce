import SotOs.Lib.Countdown
import SotOs.Sotnet.Identity

/-! When the timer gives the slot of a connection back that nobody talks to any more. -/

namespace SotOs.Sotnet
open TcpConn

open Machine Countdown List Option
variable {α : Type} {ourIp : UInt32}

def Undisturbed (ourIp : UInt32) (i : Slot) (s : Tcp α) (call : Call α) : Prop :=
  match call.op with
  | .packet f _ => ¬ Receives ourIp s i f
  | .send j _ => j ≠ i
  | .reply connId _ => tcpConnById s.conns connId ≠ some i
  | .recv j _ _ => j ≠ i
  | .close j => j ≠ i
  | .accept localPort _ => acceptReady s.conns localPort ≠ some i
  | .shell connId => ∀ c, s.conns i = some c → connId ≠ 0 → connId ≠ c.connId
  | _ => True

variable (i : Slot) (s : Tcp α)

def Effective (call : Call α) : Bool :=
  match call.op with
  | .tick tsc => (tickGate s.lastTickTsc tsc).2
  | _ => false

def FreedWithin (ticks : ℕ) (ourIp : UInt32) (s : Tcp α) (i : Slot) : Prop :=
  ∀ calls : List (Call α),
    (∀ e ∈ trace (tcpStep ourIp) s calls, Undisturbed ourIp i e.pre e.input) →
    ticks ≤ (trace (tcpStep ourIp) s calls).countP (fun e => Effective e.pre e.input) →
    ∃ k, (exec (tcpStep ourIp) s (calls.take k)).conns i = none

/-- The timer has a deadline: past the handshake, and if established the acknowledged number does
not exceed the next one as an integer. -/
def TcpConn.Reclaimable (c : TcpConn α) : Prop :=
  c.state ≠ .synSent ∧ c.state ≠ .synRcvd ∧ (c.state = .established → c.sndUna ≤ c.sndNxt)

/-- `CLOSE_WAIT`, then the stalled `LAST_ACK`, with a tick more for a stamp about to wrap. -/
def reclaimTicks : ℕ := closeWaitTicks + 2 + (idleTicks + 2)

def TcpConn.patience (c : TcpConn α) (now : UInt32) : ℕ :=
  match c.state with
  | .established =>
    if c.sndUna < c.sndNxt then
      ticksLeft retxTicks (now - c.lastTxMs).toNat + (retxMax - c.retxCount) * (retxTicks + 2)
    else ticksLeft idleTicks (now - c.lastTxMs).toNat
  | .closeWait => ticksLeft closeWaitTicks (now - c.lastTxMs).toNat + (idleTicks + 2)
  | .timeWait => ticksLeft timeWaitTicks (now - c.timeWaitTick).toNat
  | _ => ticksLeft idleTicks (now - c.lastTxMs).toNat

variable {now : UInt32}

variable {c : TcpConn α}

theorem patience_pos : 0 < c.patience now := by
  unfold patience
  split
  · split
    · exact Nat.add_pos_left (ticksLeft_pos _ _) _
    · exact ticksLeft_pos _ _
  · exact Nat.add_pos_left (ticksLeft_pos _ _) _
  · exact ticksLeft_pos _ _
  · exact ticksLeft_pos _ _

theorem patience_le : c.patience now ≤ reclaimTicks := by
  have hbound : reclaimTicks = 32004 := rfl
  unfold patience
  split
  · split
    · have hwait := ticksLeft_le retxTicks (now - c.lastTxMs).toNat
      have hrest : (retxMax - c.retxCount) * (retxTicks + 2) ≤ 8 * 1002 :=
        Nat.mul_le_mul (Nat.sub_le _ _) le_rfl
      have hticks : retxTicks = 1000 := rfl
      omega
    · have hwait := ticksLeft_le idleTicks (now - c.lastTxMs).toNat
      have hticks : idleTicks = 30000 := rfl
      omega
  · have hwait := ticksLeft_le closeWaitTicks (now - c.lastTxMs).toNat
    exact Nat.add_le_add_right hwait _
  · have hwait := ticksLeft_le timeWaitTicks (now - c.timeWaitTick).toNat
    have hticks : timeWaitTicks = 4000 := rfl
    omega
  · have hwait := ticksLeft_le idleTicks (now - c.lastTxMs).toNat
    have hticks : idleTicks = 30000 := rfl
    omega

theorem ticksLeft_of_not_elapsed {now since : UInt32} {ticks : ℕ}
    (hticks : 0 < ticks ∧ ticks < 2 ^ 31) (h : elapsed (now + 1) since ticks = false) :
    ticksLeft ticks (now + 1 - since).toNat < ticksLeft ticks (now - since).toNat :=
  ticksLeft_succ hticks (by simpa [elapsed] using h)

section
variable {c c' : TcpConn α} {now : UInt32} {driver : Bool}

theorem sendFin_lastTx {net : Net} {next : TcpState} :
    (sendFin net c next).1.lastTxMs = net.now := by
  have hopt : optLen (flagFin ||| flagAck) ≤ txBufSize := by decide
  have hfin : has (flagFin ||| flagAck) (flagSyn ||| flagFin) = true := by decide
  simp [sendFin, tcpSendSegment, hopt, cacheSegment, hfin]

theorem resend_patience {lastTx : UInt32} (hcount : c.retxCount < retxMax) :
    ticksLeft retxTicks (now + 1 - lastTx).toNat + (retxMax - (c.retxCount + 1)) * (retxTicks + 2) <
      ticksLeft retxTicks (now - c.lastTxMs).toNat + (retxMax - c.retxCount) * (retxTicks + 2) := by
  have hwait := ticksLeft_le retxTicks (now + 1 - lastTx).toNat
  have hpos := ticksLeft_pos retxTicks (now - c.lastTxMs).toNat
  obtain ⟨n, hn⟩ : ∃ n, retxMax - c.retxCount = n + 1 := ⟨retxMax - c.retxCount - 1, by omega⟩
  have hn' : retxMax - (c.retxCount + 1) = n := by omega
  rw [hn, hn', Nat.add_mul, Nat.one_mul]
  omega

theorem tick_established (hstate : c.state = .established) (hle : c.sndUna ≤ c.sndNxt)
    (h : (tickConn ⟨now + 1, driver⟩ false c).1 = some c') :
    c'.Reclaimable ∧ c'.patience (now + 1) < c.patience now := by
  simp only [tickConn, hstate] at h
  split at h
  · rename_i hdue
    split at h
    · cases h
    · rename_i hcount
      obtain ⟨⟩ := h
      have hlt : c.sndUna < c.sndNxt := by
        simp only [retxDue, Bool.and_eq_true, decide_eq_true_eq] at hdue
        exact hdue.1
      refine ⟨⟨by simp, by simp, fun _ => by simpa using hle⟩, ?_⟩
      simp only [patience, sendSegment_state, sendSegment_fields, hstate, hlt, if_true]
      exact resend_patience (by omega)
  · rename_i hdue
    split at h
    · cases h
    · rename_i hidle
      obtain ⟨⟩ := h
      refine ⟨⟨by simp [hstate], by simp [hstate], fun _ => hle⟩, ?_⟩
      simp only [patience, hstate]
      split_ifs with hlt
      · have hwait : elapsed (now + 1) c.lastTxMs retxTicks = false := by
          simpa [retxDue, hlt] using hdue
        exact Nat.add_lt_add_right (ticksLeft_of_not_elapsed (by decide) hwait) _
      · have heq : c.sndUna = c.sndNxt := UInt32.le_antisymm hle (UInt32.not_lt.mp hlt)
        have hwait : elapsed (now + 1) c.lastTxMs idleTicks = false := by
          simpa [heq] using hidle
        exact ticksLeft_of_not_elapsed (by decide) hwait

theorem tick_closeWait (hstate : c.state = .closeWait)
    (h : (tickConn ⟨now + 1, driver⟩ false c).1 = some c') :
    c'.Reclaimable ∧ c'.patience (now + 1) < c.patience now := by
  simp only [tickConn, hstate, Bool.not_false, Bool.and_true] at h
  split at h
  · -- the FIN of the passive close restarts the clock in `LAST_ACK`
    simp only [sotnetTcpClose, hstate, some.injEq] at h
    subst h
    refine ⟨⟨by simp [sendFin], by simp [sendFin], by simp [sendFin]⟩, ?_⟩
    have hpos := ticksLeft_pos closeWaitTicks (now - c.lastTxMs).toNat
    have hwait := ticksLeft_le idleTicks (now + 1 - (now + 1)).toNat
    have hlast : (sendFin ⟨now + 1, driver⟩ c .lastAck).1.patience (now + 1) =
        ticksLeft idleTicks (now + 1 - (now + 1)).toNat := by
      rw [patience, sendFin_lastTx]
      rfl
    rw [hlast]
    simp only [patience, hstate]
    omega
  · rename_i hwait
    obtain ⟨⟩ := h
    refine ⟨⟨by simp [hstate], by simp [hstate], by simp [hstate]⟩, ?_⟩
    simp only [patience, hstate]
    exact Nat.add_lt_add_right (ticksLeft_of_not_elapsed (by decide) (by simpa using hwait)) _

theorem tick_timeWait (hstate : c.state = .timeWait)
    (h : (tickConn ⟨now + 1, driver⟩ false c).1 = some c') :
    c'.Reclaimable ∧ c'.patience (now + 1) < c.patience now := by
  simp only [tickConn, hstate] at h
  split at h
  · cases h
  · rename_i hwait
    obtain ⟨⟩ := h
    refine ⟨⟨by simp [hstate], by simp [hstate], by simp [hstate]⟩, ?_⟩
    simp only [patience, hstate]
    exact ticksLeft_of_not_elapsed (by decide) (by simpa using hwait)

theorem tick_closePending (hstate : c.state.closePending = true)
    (h : (tickConn ⟨now + 1, driver⟩ false c).1 = some c') :
    c'.Reclaimable ∧ c'.patience (now + 1) < c.patience now := by
  have hout : tickConn ⟨now + 1, driver⟩ false c =
      if elapsed (now + 1) c.lastTxMs idleTicks then (none, []) else (some c, []) := by
    unfold tickConn
    split <;> simp_all [TcpState.closePending]
  have hpatience : ∀ now, c.patience now = ticksLeft idleTicks (now - c.lastTxMs).toNat := by
    intro now
    unfold patience
    split <;> simp_all [TcpState.closePending]
  rw [hout] at h
  split at h
  · cases h
  · rename_i hwait
    obtain ⟨⟩ := h
    rw [hpatience, hpatience]
    refine ⟨?_, ticksLeft_of_not_elapsed (by decide) (by simpa using hwait)⟩
    unfold TcpConn.Reclaimable
    cases hcase : c.state <;> simp_all [TcpState.closePending]

theorem tick_reclaimable (hr : c.Reclaimable) (hclosed : c.state ≠ .closed)
    (hlisten : c.state ≠ .listen) (h : (tickConn ⟨now + 1, driver⟩ false c).1 = some c') :
    c'.Reclaimable ∧ c'.patience (now + 1) < c.patience now := by
  cases hstate : c.state with
  | closed => exact absurd hstate hclosed
  | listen => exact absurd hstate hlisten
  | synSent => exact absurd hstate hr.1
  | synRcvd => exact absurd hstate hr.2.1
  | established => exact tick_established hstate (hr.2.2 hstate) h
  | closeWait => exact tick_closeWait hstate h
  | timeWait => exact tick_timeWait hstate h
  | finWait1 | finWait2 | closing | lastAck => exact tick_closePending (by rw [hstate]; rfl) h

theorem tick_kept (hstate : c.state = .synSent ∨ c.state = .synRcvd ∨ c.state = .established)
    (hlt : ¬ c.sndUna < c.sndNxt) (hne : c.state = .established → c.sndUna ≠ c.sndNxt)
    (net : Net) (shielded : Bool) : (tickConn net shielded c).1 = some c := by
  have hdue : c.retxDue net.now = false := by simp [retxDue, hlt]
  rcases hstate with hstate | hstate | hstate
  · simp [tickConn, hstate, hdue]
  · simp [tickConn, hstate, hdue]
  · simp [tickConn, hstate, hdue, hne hstate]

end

/-- A connection in use has left `CLOSED`, and during the handshake nothing is counted as sent. -/
def TcpConn.Settled (c : TcpConn α) : Prop :=
  c.state ≠ .closed ∧ (c.state = .synSent ∨ c.state = .synRcvd → c.sndUna = c.sndNxt)

theorem settled_of_state (h : c.state ≠ .closed ∧ c.state ≠ .synSent ∧
    c.state ≠ .synRcvd) : c.Settled := ⟨h.1, fun hsyn => by simp [h.2] at hsyn⟩

section
variable {c c' : TcpConn α} {net : Net}

theorem sendData_settled (h : c.Settled) {buf : List α} : (tcpSendData net c buf).1.Settled := by
  by_cases hopen : c.state = .established ∨ c.state = .closeWait
  · exact settled_of_state (by rcases hopen with hopen | hopen <;> simp [hopen])
  · rw [not_or] at hopen
    rw [sendData_refused net hopen.1 hopen.2]
    exact h

theorem replyLoop_settled (h : c.Settled) {fuel : ℕ} {data : List α} :
    (replyLoop net fuel c data).1.Settled := by
  by_cases hopen : c.state = .established ∨ c.state = .closeWait
  · exact settled_of_state (by rcases hopen with hopen | hopen <;> simp [hopen])
  · rw [not_or] at hopen
    rw [replyLoop_refused net hopen.1 hopen.2]
    exact h

theorem close_settled (h : (sotnetTcpClose net c).1 = some c') : c'.Settled := by
  have hcases := close_cases net c
  generalize sotnetTcpClose net c = out at h hcases
  cases hcases with
  | fin hnext =>
    obtain ⟨⟩ := h
    rcases hnext with ⟨-, rfl⟩ | ⟨-, rfl⟩ <;> exact settled_of_state (by simp [sendFin])
  | freed => cases h

theorem onFin_settled (h : c.Settled) {f : Frame} : (tcpCloseOnFin net c f).1.Settled := by
  have hcases := onFin_cases net c f
  generalize tcpCloseOnFin net c f = out at hcases
  cases hcases with
  | ignored => exact h
  | @taken next _ _ _ hnext =>
    have hstate : next ≠ .closed ∧ next ≠ .synSent ∧ next ≠ .synRcvd := by
      revert hnext
      cases c.state <;> cases next <;> simp [TcpState.afterFin]
    exact settled_of_state (by simpa [takeFin] using hstate)

theorem dispatch_settled {f : Frame} (h : c.Settled) (ho : (dispatch net c f).1 = some c') :
    c'.Settled := by
  have hcases := dispatch_cases net c f
  generalize dispatch net c f = out at ho hcases
  cases hcases with
  | reset => cases ho
  | kept =>
    obtain ⟨⟩ := ho
    exact h
  | handshake =>
    obtain ⟨⟩ := ho
    exact settled_of_state (by simp)
  | synack =>
    simp only [ite_none_right_eq_some, some.injEq] at ho
    rw [← ho.2]
    exact settled_of_state (by simp)
  | data hstate =>
    obtain ⟨⟩ := ho
    exact settled_of_state (by simp [hstate])
  | dataFin hstate =>
    obtain ⟨⟩ := ho
    exact onFin_settled (settled_of_state (by simp [hstate]))
  | fin =>
    obtain ⟨⟩ := ho
    exact onFin_settled h
  | finack hstate =>
    simp only [tcpCloseOnFinack] at ho
    split at ho
    · obtain ⟨⟩ := ho
      exact settled_of_state (by simp)
    · obtain ⟨⟩ := ho
      exact settled_of_state (by simp)
    · cases ho
    · obtain ⟨⟩ := ho
      exact h

theorem tickConn_settled {shielded : Bool} (h : c.Settled)
    (ho : (tickConn net shielded c).1 = some c') : c'.Settled := by
  have hcases := tickConn_cases net shielded c
  generalize tickConn net shielded c = out at ho hcases
  cases hcases with
  | kept =>
    obtain ⟨⟩ := ho
    exact h
  | resend =>
    obtain ⟨⟩ := ho
    exact ⟨by simpa using h.1, by simpa using h.2⟩
  | reset => cases ho
  | finish =>
    obtain ⟨⟩ := ho
    exact settled_of_state (by simp [sendFin])
  | expired => cases ho

theorem SlotStep.settled {s : Tcp α} {i : Slot} {call : Call α} {o : Option (TcpConn α)}
    {events : List (Event α)} (h : SlotStep ourIp s i call o events)
    (hs : ∀ c, s.conns i = some c → c.Settled) (ho : o = some c') : c'.Settled := by
  cases h with
  | same => exact hs c' ho
  | packet hc => exact dispatch_settled (hs _ hc) ho
  | syn =>
    obtain ⟨⟩ := ho
    exact ⟨by simp [synRcvdConn], by simp [synRcvdConn]⟩
  | send hc =>
    obtain ⟨⟩ := ho
    exact sendData_settled (hs _ hc)
  | reply hc =>
    obtain ⟨⟩ := ho
    exact replyLoop_settled (hs _ hc)
  | @recv c hc count copied driver =>
    obtain ⟨⟩ := ho
    have hsettled := hs c hc
    have hcases := recv_cases ⟨s.now, driver⟩ c count copied
    generalize tcpRecv ⟨s.now, driver⟩ c count copied = out at hcases
    cases hcases with
    | nothing => exact hsettled
    | drained => exact hsettled
    | updated => exact ⟨by simpa using hsettled.1, by simpa using hsettled.2⟩
  | close => exact close_settled ho
  | connect =>
    obtain ⟨⟩ := ho
    exact ⟨by simp [synSentConn], by simp [synSentConn]⟩
  | connectLost => cases ho
  | listen =>
    obtain ⟨⟩ := ho
    exact settled_of_state (by simp)
  | @dequeue c hc =>
    obtain ⟨⟩ := ho
    exact hs c hc
  | acceptFault => exact close_settled ho
  | @own c hc =>
    obtain ⟨⟩ := ho
    exact hs c hc
  | tick hc => exact tickConn_settled (hs _ hc) ho

end

section
variable {s : Tcp α} {i : Slot} {call : Call α} {c : TcpConn α}

theorem undisturbed_conns (hc : s.conns i = some c) (h : Undisturbed ourIp i s call)
    (heff : Effective s call = false) : (tcpStep ourIp s call).1.conns i = some c := by
  have hstep := tcpStep_slot ourIp s call i
  generalize (tcpStep ourIp s call).1.conns i = o at hstep
  generalize (tcpStep ourIp s call).2.at i = events at hstep
  cases hstep with
  | same => exact hc
  | packet _ f isn driver hf => exact absurd hf h
  | send => exact absurd rfl h
  | reply _ connId data driver hid => exact absurd hid h
  | recv => exact absurd rfl h
  | close => exact absurd rfl h
  | syn hfree => simp [hc] at hfree
  | connect hfree => simp [hc] at hfree
  | connectLost hfree => simp [hc] at hfree
  | listen hfree => simp [hc] at hfree
  | dequeue _ localPort driver hready => exact absurd hready h
  | acceptFault _ localPort driver hready => exact absurd hready h
  | own _ localPort driver hready => exact absurd hready h
  | tick _ tsc driver hgate => simp [Effective, hgate] at heff

theorem not_effective_now (heff : Effective s call = false) :
    (tcpStep ourIp s call).1.now = s.now := by
  by_cases htick : ∃ tsc, call.op = .tick tsc
  · obtain ⟨tsc, hop⟩ := htick
    simp only [Effective, hop] at heff
    simp only [tcpStep, hop, tcpTimerTick, heff]
    rfl
  · by_cases hshell : ∃ connId, call.op = .shell connId
    · obtain ⟨connId, hop⟩ := hshell
      simp only [tcpStep, hop]
    · obtain ⟨_, _, heq, -⟩ := step_frame (not_exists.mp htick) (not_exists.mp hshell)
      rw [heq]

theorem effective_step (ourIp : UInt32) (heff : Effective s call = true) :
    ∃ driver, (∀ i, (tcpStep ourIp s call).1.conns i = (tickSlot s ⟨s.now + 1, driver⟩ i).1) ∧
      (tcpStep ourIp s call).1.now = s.now + 1 := by
  obtain ⟨op, driver⟩ := call
  cases op with
  | tick tsc =>
    simp only [Effective] at heff
    simp only [tcpStep, tcpTimerTick, heff]
    exact ⟨driver, fun _ => rfl, rfl⟩
  | _ => cases heff

theorem undisturbed_protected (hc : s.conns i = some c) (h : Undisturbed ourIp i s call)
    (hp : s.protected c.connId = false) : (tcpStep ourIp s call).1.protected c.connId = false := by
  by_cases hshell : ∃ connId, call.op = .shell connId
  · obtain ⟨connId, hop⟩ := hshell
    simp only [Undisturbed, hop] at h
    simp only [tcpStep, hop, Tcp.protected, Bool.and_eq_false_imp, bne_iff_ne]
    intro hne
    by_contra heq
    have heq : c.connId = connId := by simpa using heq
    exact h c hc (heq ▸ hne) heq.symm
  · by_cases htick : ∃ tsc, call.op = .tick tsc
    · obtain ⟨tsc, hop⟩ := htick
      simp only [tcpStep, hop, tcpTimerTick]
      split <;> exact hp
    · obtain ⟨_, _, heq, -⟩ := step_frame (not_exists.mp htick) (not_exists.mp hshell)
      rw [heq]
      exact hp

end

def Waiting : Prop :=
  ∃ c, s.conns i = some c ∧ c.Reclaimable ∧ c.Settled ∧ c.state ≠ .listen ∧
    s.protected c.connId = false

def slotPatience : ℕ := (s.conns i).elim 0 fun c => c.patience s.now

theorem waiting_step {i : Slot} {s : Tcp α} {call : Call α} (h : Waiting i s)
    (hcall : Undisturbed ourIp i s call) :
    (tcpStep ourIp s call).1.conns i = none ∨ Waiting i (tcpStep ourIp s call).1 ∧
        slotPatience i (tcpStep ourIp s call).1 + (if Effective s call then 1 else 0) ≤
          slotPatience i s := by
  obtain ⟨c, hc, hr, hsettled, hlisten, hp⟩ := h
  have hp' := undisturbed_protected hc hcall hp
  rcases heff : Effective s call with _ | _
  · have hc' := undisturbed_conns hc hcall heff
    refine .inr ⟨⟨c, hc', hr, hsettled, hlisten, hp'⟩, ?_⟩
    simp [slotPatience, hc, hc', not_effective_now heff]
  obtain ⟨driver, hconns, hnow⟩ := effective_step ourIp heff
  have htick : (tcpStep ourIp s call).1.conns i = (tickConn ⟨s.now + 1, driver⟩ false c).1 := by
    simp only [hconns, tickSlot, hc, hp]
  cases hc' : (tcpStep ourIp s call).1.conns i with
  | none => exact .inl rfl
  | some c' =>
    have hout := htick.symm.trans hc'
    obtain ⟨hr', hlt⟩ := tick_reclaimable hr hsettled.1 hlisten hout
    have hsame := tickConn_same hout
    refine .inr ⟨⟨c', hc', hr', tickConn_settled hsettled hout, mt hsame.listen.mp hlisten,
      hsame.connId ▸ hp'⟩, ?_⟩
    simpa [slotPatience, hc, hc', hnow, Nat.succ_le_iff] using hlt

theorem freedWithin_of_waiting {i : Slot} {s : Tcp α} (h : Waiting i s) :
    FreedWithin reclaimTicks ourIp s i := by
  intro calls hquiet hticks
  refine reaches_of_budget (tcpStep ourIp) (P := Waiting i)
    (G := fun s => s.conns i = none) (Q := fun e => Undisturbed ourIp i e.pre e.input) Effective
    (slotPatience i) ?_ (fun s call hs hQ => waiting_step hs hQ) h calls hquiet (le_trans ?_ hticks)
  · rintro s ⟨c, hc, -⟩
    simpa [slotPatience, hc] using patience_pos
  · obtain ⟨c, hc, -⟩ := h
    simpa [slotPatience, hc] using patience_le

theorem not_freedWithin {i : Slot} {s : Tcp α} {c : TcpConn α} (hc : s.conns i = some c)
    (hstate : c.state = .synSent ∨ c.state = .synRcvd ∨ c.state = .established)
    (hlt : ¬ c.sndUna < c.sndNxt) (hne : c.state = .established → c.sndUna ≠ c.sndNxt) {ticks : ℕ} :
    ¬ FreedWithin ticks ourIp s i := by
  intro hfreed
  -- a counter that reads zero switches the throttle off, so that every tick counts
  have hstay : ∀ n (s : Tcp α), s.conns i = some c → (∀ k, (exec (tcpStep ourIp) s
        ((replicate n ⟨.tick 0, true⟩).take k)).conns i = some c) ∧
      (∀ e ∈ trace (tcpStep ourIp) s (replicate n ⟨.tick 0, true⟩),
        Undisturbed ourIp i e.pre e.input ∧ Effective e.pre e.input = true) := by
    intro n
    induction n with
    | zero => exact fun s hs => ⟨fun k => by simpa [exec] using hs, by simp [trace]⟩
    | succ n ih =>
      intro s hs
      have heff : Effective s (⟨.tick 0, true⟩ : Call α) = true := rfl
      obtain ⟨driver, hconns, -⟩ := effective_step ourIp heff
      have hnext : (tcpStep ourIp s ⟨.tick 0, true⟩).1.conns i = some c := by
        simp only [hconns, tickSlot, hs]
        exact tick_kept hstate hlt hne _ _
      obtain ⟨hexec, htrace⟩ := ih _ hnext
      rw [replicate_succ]
      refine ⟨fun k => ?_, ?_⟩
      · cases k with
        | zero => exact hs
        | succ k => exact hexec k
      · rw [trace, forall_mem_cons]
        exact ⟨⟨trivial, rfl⟩, htrace⟩
  obtain ⟨hexec, htrace⟩ := hstay ticks s hc
  obtain ⟨k, hk⟩ := hfreed (replicate ticks ⟨.tick 0, true⟩) (fun e he => (htrace e he).1) (by
    rw [countP_eq_length.mpr fun e he => (htrace e he).2, length_trace, length_replicate])
  rw [hexec k] at hk
  cases hk

theorem settled_run {calls : List (Call α)} :
    ∀ i c, (exec (tcpStep ourIp) Tcp.init calls).conns i = some c → c.Settled :=
  exec_invariant (tcpStep ourIp)
    (P := fun s : Tcp α => ∀ i c, s.conns i = some c → c.Settled)
    (fun s call hs i _ hc => (tcpStep_slot ourIp s call i).settled (hs i) hc)
    (by simp [Tcp.init]) calls

/-- A connection that is no listener and not the shell's is freed within `reclaimTicks` effective
ticks of silence exactly if the timer has a deadline for it. -/
theorem freedWithin_iff (ourIp : UInt32) (calls : List (Call α)) {i : Slot} {c : TcpConn α}
    (hc : (exec (tcpStep ourIp) Tcp.init calls).conns i = some c)
    (hlisten : c.state ≠ .listen)
    (hshell : (exec (tcpStep ourIp) Tcp.init calls).protected c.connId = false) :
    FreedWithin reclaimTicks ourIp (exec (tcpStep ourIp) Tcp.init calls) i ↔ c.Reclaimable := by
  have hsettled := settled_run i c hc
  constructor
  · intro hfreed
    refine ⟨fun hstate => ?_, fun hstate => ?_, fun hstate => ?_⟩
    · have heq := hsettled.2 (.inl hstate)
      exact not_freedWithin hc (.inl hstate) (by simp [heq]) (by simp [hstate]) hfreed
    · have heq := hsettled.2 (.inr hstate)
      exact not_freedWithin hc (.inr (.inl hstate)) (by simp [heq]) (by simp [hstate]) hfreed
    · by_contra hgt
      have hgt : c.sndNxt < c.sndUna := UInt32.not_le.mp hgt
      refine not_freedWithin hc (.inr (.inr hstate)) (UInt32.lt_asymm hgt) (fun _ heq => ?_)
        hfreed
      rw [heq] at hgt
      exact UInt32.lt_irrefl _ hgt
  · intro hr
    exact freedWithin_of_waiting ⟨c, hc, hr, hsettled, hlisten, hshell⟩

def silentCalls : List (Call UInt8) :=
  [⟨.activeOpen 0x0100000A 0x5000 7 0 1000, true⟩,
    ⟨.packet (.bare 0x0100000A 0x0200000A 0x5000 0x00C0 500 1001 0x12) 0, true⟩]

theorem silent_connection_freed : FreedWithin reclaimTicks 0x0200000A
      (exec (tcpStep 0x0200000A) Tcp.init silentCalls) 0 := by
  have hconn : ((exec (tcpStep 0x0200000A) Tcp.init silentCalls).conns 0).map
      (fun c => (c.state, c.connId, c.sndUna, c.sndNxt)) = some (.established, 0, 1001, 1001) := by
    decide +kernel
  obtain ⟨c, hc, hfields⟩ := map_eq_some_iff.mp hconn
  simp only [Prod.mk.injEq] at hfields
  obtain ⟨hstate, hid, huna, hnxt⟩ := hfields
  refine (freedWithin_iff 0x0200000A silentCalls hc (by simp [hstate]) ?_).mpr ?_
  · simp [Tcp.protected, hid]
  · exact ⟨by simp [hstate], by simp [hstate], fun _ => by simp [huna, hnxt]⟩

def halfOpenCalls : List (Call UInt8) :=
  [⟨.passiveOpen 0x1600, true⟩,
    ⟨.packet (.bare 0x0100000A 0x0200000A 0x409C 0x1600 500 0 0x02) 1000, true⟩]

theorem half_open_kept : ¬ ∃ ticks, FreedWithin ticks 0x0200000A
      (exec (tcpStep 0x0200000A) Tcp.init halfOpenCalls) 1 := by
  rintro ⟨ticks, hfreed⟩
  have hconn : ((exec (tcpStep 0x0200000A) Tcp.init halfOpenCalls).conns 1).map
      (fun c => (c.state, c.sndUna, c.sndNxt)) = some (.synRcvd, 1000, 1000) := by
    decide +kernel
  obtain ⟨c, hc, hfields⟩ := map_eq_some_iff.mp hconn
  simp only [Prod.mk.injEq] at hfields
  obtain ⟨hstate, huna, hnxt⟩ := hfields
  exact not_freedWithin hc (.inr (.inl hstate)) (by simp [huna, hnxt]) (by simp [hstate])
    hfreed

end SotOs.Sotnet
