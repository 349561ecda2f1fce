import SotOs.Sotnet.TcpSpec

/-! Acknowledgments and the close handshake: which numbers an inbound ACK may carry for `snd_una` to
stay behind `snd_nxt` and for a closing connection to move on only once its FIN is acknowledged. -/

namespace SotOs.Sotnet
open TcpState

open Machine Option
variable {α : Type} {ourIp : UInt32}

def TcpState.awaitsFinAck : TcpState → Bool
  | .finWait1 | .closing | .lastAck => true
  | _ => false

def Passes (c c' : TcpConn α) : Prop := (c'.sndNxt - c.sndUna).toNat < (c'.sndUna - c.sndUna).toNat

def FinAcked (state : TcpState) (after : Option TcpState) : Prop :=
  state = .finWait1 ∧ after = some .finWait2 ∨ state = .closing ∧ after = some .timeWait ∨
    state = .lastAck ∧ after = none

structure Fins (α : Type) where
  tcp : Tcp α
  fin : Slot → UInt32

def Fins.init : Fins α := ⟨Tcp.init, fun _ => 0⟩

def lastFin (q : UInt32) (events : List (Event α)) : UInt32 :=
  events.foldl (fun q e =>
    match e with
    | .sent x => if has x.seg.flags flagFin then x.seg.seq else q
    | .push _ _ _ => q) q

def finStep (ourIp : UInt32) (s : Fins α) (call : Call α) : Fins α × Reply α :=
  let r := tcpStep ourIp s.tcp call
  (⟨r.1, fun i => lastFin (s.fin i) (r.2.at i)⟩, r.2)

structure AckArrives (ourIp : UInt32) (s : Tcp α) (call : Call α) (i : Slot) (c : TcpConn α)
    (f : Frame) : Prop where
  packet : ∃ isn, call.op = .packet f isn
  receives : Receives ourIp s i f
  conn : s.conns i = some c
  noRst : has f.flags flagRst = false
  ack : has f.flags flagAck = true

structure HandshakeKept (ourIp : UInt32) (e : Entry (Fins α) (Call α) (Reply α)) :
    Prop where
  una : ∀ i c c', e.pre.tcp.conns i = some c →
    (tcpStep ourIp e.pre.tcp e.input).1.conns i = some c' → ¬ Passes c c'
  acked : ∀ i c f, AckArrives ourIp e.pre.tcp e.input i c f →
    FinAcked c.state (((tcpStep ourIp e.pre.tcp e.input).1.conns i).map TcpConn.state) →
    f.ack = e.pre.fin i + 1

/-- An ACK names a number this side has sent: up to `snd_nxt` when established, past the FIN when
one is outstanding. -/
def AcksSent (ourIp : UInt32) (s : Tcp α) (call : Call α) : Prop :=
  ∀ i c f, AckArrives ourIp s call i c f →
    (c.state = .established → f.hasPayloadBounds = true → seqAfter f.ack c.sndUna = true →
      (f.ack - c.sndUna).toNat ≤ (c.sndNxt - c.sndUna).toNat) ∧
    (c.state.awaitsFinAck = true → has f.flags flagFin = false → f.ack = c.sndNxt)

def FinNumbered (s : Fins α) : Prop :=
  ∀ i c, s.tcp.conns i = some c → c.state.awaitsFinAck = true → s.fin i + 1 = c.sndNxt

variable {f : Frame} {state : TcpState} {isn : UInt32}

section
variable {net : Net} {c c' : TcpConn α} {q : UInt32}

@[simp] theorem lastFin_nil : lastFin q ([] : List (Event α)) = q := rfl

theorem sendFin_numbered {next : TcpState} :
    lastFin q (sendFin net c next).2 + 1 = (sendFin net c next).1.sndNxt := by
  have hfin : has (flagFin ||| flagAck) flagFin = true := by decide
  simp [sendFin, sendSegment_events, lastFin, buildSegment, hfin]

theorem close_numbered (h : (sotnetTcpClose net c).1 = some c') :
    lastFin q (sotnetTcpClose net c).2 + 1 = c'.sndNxt := by
  have hcases := close_cases net c
  generalize sotnetTcpClose net c = out at h hcases
  cases hcases with
  | fin =>
    obtain ⟨⟩ := h
    exact sendFin_numbered
  | freed => cases h

theorem onFin_numbered (hc : c.state.awaitsFinAck = true → q + 1 = c.sndNxt)
    (hawaits : (tcpCloseOnFin net c f).1.state.awaitsFinAck = true) :
    lastFin q (tcpCloseOnFin net c f).2 + 1 = (tcpCloseOnFin net c f).1.sndNxt := by
  have hcases := onFin_cases net c f
  generalize tcpCloseOnFin net c f = out at hawaits hcases
  cases hcases with
  | ignored => exact hc hawaits
  | @taken next tick _ _ hnext =>
    have hfrom : c.state.awaitsFinAck = true := by
      have hnext' : next.awaitsFinAck = true := hawaits
      revert hnext hnext'
      cases c.state <;> cases next <;> simp [afterFin, awaitsFinAck]
    have hack : has flagAck flagFin = false := by decide
    simpa [takeFin, sendSegment_events, lastFin, buildSegment, hack] using hc hfrom

theorem dispatch_numbered (hc : c.state.awaitsFinAck = true → q + 1 = c.sndNxt)
    (h : (dispatch net c f).1 = some c') (hawaits : c'.state.awaitsFinAck = true) :
    lastFin q (dispatch net c f).2 + 1 = c'.sndNxt := by
  have hcases := dispatch_cases net c f
  generalize dispatch net c f = out at h hcases
  cases hcases with
  | reset => cases h
  | kept =>
    obtain ⟨⟩ := h
    exact hc hawaits
  | handshake =>
    obtain ⟨⟩ := h
    cases hawaits
  | synack wscale =>
    simp only [ite_none_right_eq_some, some.injEq] at h
    rw [← h.2, sendSegment_state] at hawaits
    cases hawaits
  | data hstate =>
    obtain ⟨⟩ := h
    rw [onSegment_state, hstate] at hawaits
    cases hawaits
  | dataFin hstate =>
    obtain ⟨⟩ := h
    -- from the established state a FIN leads to `CLOSE_WAIT`
    have hest : (tcpDataOnSegment net c f).1.state = .established :=
      (onSegment_state net c f).trans hstate
    generalize (tcpDataOnSegment net c f).1 = d at hest hawaits
    have hfin := onFin_cases net d f
    generalize tcpCloseOnFin net d f = out at hfin hawaits
    cases hfin with
    | ignored =>
      rw [hest] at hawaits
      cases hawaits
    | @taken next _ _ _ hnext =>
      rw [hest] at hnext
      obtain ⟨⟩ := hnext
      cases hawaits
  | fin =>
    obtain ⟨⟩ := h
    exact onFin_numbered hc hawaits
  | finack =>
    simp only [tcpCloseOnFinack] at h
    split at h
    · obtain ⟨⟩ := h
      cases hawaits
    · obtain ⟨⟩ := h
      cases hawaits
    · cases h
    · obtain ⟨⟩ := h
      exact hc hawaits

theorem tickConn_numbered {shielded : Bool}
    (hc : c.state.awaitsFinAck = true → q + 1 = c.sndNxt)
    (h : (tickConn net shielded c).1 = some c') (hawaits : c'.state.awaitsFinAck = true) :
    lastFin q (tickConn net shielded c).2 + 1 = c'.sndNxt := by
  have hcases := tickConn_cases net shielded c
  generalize tickConn net shielded c = out at h hcases
  cases hcases with
  | kept =>
    obtain ⟨⟩ := h
    exact hc hawaits
  | resend hstate =>
    obtain ⟨⟩ := h
    rw [sendSegment_state] at hawaits
    revert hstate hawaits
    cases c.state <;> simp [retransmits, awaitsFinAck]
  | reset => cases h
  | finish =>
    obtain ⟨⟩ := h
    exact sendFin_numbered
  | expired => cases h

theorem awaits_not_sending (h : state.awaitsFinAck = true) :
    state ≠ .established ∧ state ≠ .closeWait := by
  revert h
  cases state <;> simp [awaitsFinAck]

end

theorem SlotStep.numbered {s : Tcp α} {i : Slot} {call : Call α} {o : Option (TcpConn α)}
    {events : List (Event α)} {q : UInt32} {c' : TcpConn α}
    (h : SlotStep ourIp s i call o events)
    (hs : ∀ c, s.conns i = some c → c.state.awaitsFinAck = true → q + 1 = c.sndNxt)
    (ho : o = some c') (hawaits : c'.state.awaitsFinAck = true) :
    lastFin q events + 1 = c'.sndNxt := by
  cases h with
  | same => exact hs c' ho hawaits
  | packet hc => exact dispatch_numbered (hs _ hc) ho hawaits
  | syn =>
    obtain ⟨⟩ := ho
    rw [sendSegment_state] at hawaits
    cases hawaits
  | send hc =>
    obtain ⟨⟩ := ho
    rw [(sendData_fields ..).1] at hawaits
    obtain ⟨hopen, hwait⟩ := awaits_not_sending hawaits
    rw [sendData_refused _ hopen hwait]
    exact hs _ hc hawaits
  | reply hc =>
    obtain ⟨⟩ := ho
    rw [(replyLoop_fields ..).1] at hawaits
    obtain ⟨hopen, hwait⟩ := awaits_not_sending hawaits
    rw [replyLoop_refused _ hopen hwait]
    exact hs _ hc hawaits
  | @recv c hc count copied driver =>
    obtain ⟨⟩ := ho
    have hcases := recv_cases ⟨s.now, driver⟩ c count copied
    generalize tcpRecv ⟨s.now, driver⟩ c count copied = out at hcases hawaits
    cases hcases with
    | nothing => exact hs c hc hawaits
    | drained => exact hs c hc hawaits
    | updated _ _ hstate =>
      rw [sendSegment_state] at hawaits
      simp only [hstate] at hawaits
      cases hawaits
  | close => exact close_numbered ho
  | connect =>
    obtain ⟨⟩ := ho
    rw [sendSegment_state] at hawaits
    cases hawaits
  | connectLost => cases ho
  | listen =>
    obtain ⟨⟩ := ho
    cases hawaits
  | @dequeue c hc =>
    obtain ⟨⟩ := ho
    exact hs c hc hawaits
  | acceptFault => exact close_numbered ho
  | @own c hc =>
    obtain ⟨⟩ := ho
    exact hs c hc hawaits
  | tick hc => exact tickConn_numbered (hs _ hc) ho hawaits

theorem finStep_numbered {s : Fins α} {call : Call α} (h : FinNumbered s) :
    FinNumbered (finStep ourIp s call).1 := by
  intro i c' hc' hawaits
  exact (tcpStep_slot ourIp s.tcp call i).numbered (h i) hc' hawaits

theorem packet_conns {s : Tcp α} {i : Slot} {c : TcpConn α} {driver : Bool}
    (hf : Receives ourIp s i f) (hc : s.conns i = some c) :
    (tcpStep ourIp s ⟨.packet f isn, driver⟩).1.conns i = (dispatch ⟨s.now, driver⟩ c f).1 := by
  simp only [tcpStep]
  rw [tcpHandlePacket, if_pos hf.1]
  simp only [hf.2, hc]
  rw [set_conns, if_pos rfl]

section
variable {s : Tcp α} {i : Slot} {call : Call α} {c c' : TcpConn α}

structure NewAck (ourIp : UInt32) (s : Tcp α) (call : Call α) (i : Slot) (c : TcpConn α)
    (f : Frame) : Prop extends AckArrives ourIp s call i c f where
  state : c.state = .established
  bounds : f.hasPayloadBounds = true
  after : seqAfter f.ack c.sndUna = true

theorem NewAck.moves (h : NewAck ourIp s call i c f) :
    ∃ c', (tcpStep ourIp s call).1.conns i = some c' ∧ c'.sndUna = f.ack ∧
      c'.sndNxt = c.sndNxt := by
  obtain ⟨op, driver⟩ := call
  obtain ⟨isn, rfl⟩ : ∃ isn, op = .packet f isn := h.packet
  rw [packet_conns h.receives h.conn]
  have huna : (tcpDataOnSegment ⟨s.now, driver⟩ c f).1.sndUna = f.ack := by
    rw [onSegment_sndUna, h.bounds, h.ack, h.after]
    rfl
  have hcases := dispatch_cases ⟨s.now, driver⟩ c f
  generalize dispatch ⟨s.now, driver⟩ c f = out at hcases
  cases hcases with
  | reset hrst => simp [h.noRst] at hrst
  | kept hstate => exact absurd h.state hstate
  | handshake hstate => simp [h.state] at hstate
  | synack _ hstate => simp [h.state] at hstate
  | data => exact ⟨_, rfl, huna, by simp⟩
  | dataFin => exact ⟨_, rfl, by simp [huna], by simp⟩
  | fin hstate => simp [h.state, closePending] at hstate
  | finack hstate => simp [h.state, closePending] at hstate

theorem segment_una {net : Net} (huna : c'.sndUna = (tcpDataOnSegment net c f).1.sndUna) :
    c'.sndUna = c.sndUna ∨ has f.flags flagAck = true ∧ f.hasPayloadBounds = true ∧
      seqAfter f.ack c.sndUna = true ∧ c'.sndUna = f.ack := by
  rw [onSegment_sndUna] at huna
  split_ifs at huna with hnew
  · simp only [Bool.and_eq_true] at hnew
    exact .inr ⟨hnew.1.2, hnew.1.1, hnew.2, huna⟩
  · exact .inl huna

theorem onFinack_una {net : Net} (h : tcpCloseOnFinack net c = some c') : c'.sndUna = c.sndUna := by
  simp only [tcpCloseOnFinack] at h
  split at h
  · obtain ⟨⟩ := h
    rfl
  · obtain ⟨⟩ := h
    rfl
  · cases h
  · obtain ⟨⟩ := h
    rfl

theorem packet_una {driver : Bool} (hc : s.conns i = some c) (hf : Receives ourIp s i f)
    (h : (dispatch ⟨s.now, driver⟩ c f).1 = some c') :
    c'.sndUna = c.sndUna ∨ c'.sndUna = c'.sndNxt ∨
      ∃ f', NewAck ourIp s ⟨.packet f isn, driver⟩ i c f' ∧ c'.sndUna = f'.ack ∧
        c'.sndNxt = c.sndNxt := by
  have hrst : has f.flags flagRst = false := by
    by_contra hrst
    rw [dispatch, if_pos (by simpa using hrst)] at h
    cases h
  have hnew : c.state = .established → c'.sndNxt = c.sndNxt →
      c'.sndUna = (tcpDataOnSegment ⟨s.now, driver⟩ c f).1.sndUna →
      c'.sndUna = c.sndUna ∨ c'.sndUna = c'.sndNxt ∨
        ∃ f', NewAck ourIp s ⟨.packet f isn, driver⟩ i c f' ∧ c'.sndUna = f'.ack ∧
          c'.sndNxt = c.sndNxt := by
    intro hstate hnxt huna
    rcases segment_una huna with hkept | ⟨hack, hbounds, hafter, hmoved⟩
    · exact .inl hkept
    · exact .inr (.inr ⟨f, ⟨⟨⟨isn, rfl⟩, hf, hc, hrst, hack⟩, hstate, hbounds, hafter⟩, hmoved, hnxt⟩)
  have hcases := dispatch_cases ⟨s.now, driver⟩ c f
  generalize dispatch ⟨s.now, driver⟩ c f = out at h hcases
  cases hcases with
  | reset => cases h
  | kept =>
    obtain ⟨⟩ := h
    exact .inl rfl
  | handshake =>
    obtain ⟨⟩ := h
    exact .inr (.inl rfl)
  | synack wscale =>
    simp only [ite_none_right_eq_some, some.injEq] at h
    exact .inr (.inl (by simp [← h.2]))
  | data hstate =>
    obtain ⟨⟩ := h
    exact hnew hstate (by simp) rfl
  | dataFin hstate =>
    obtain ⟨⟩ := h
    exact hnew hstate (by simp) (by simp)
  | fin =>
    obtain ⟨⟩ := h
    exact .inl (by simp)
  | finack => exact .inl (onFinack_una h)

theorem SlotStep.una_moves {o : Option (TcpConn α)} {events : List (Event α)}
    (h : SlotStep ourIp s i call o events) (hc : s.conns i = some c) (ho : o = some c') :
    c'.sndUna = c.sndUna ∨ c'.sndUna = c'.sndNxt ∨
      ∃ f, NewAck ourIp s call i c f ∧ c'.sndUna = f.ack ∧ c'.sndNxt = c.sndNxt := by
  have hsame : ∀ {d : TcpConn α}, s.conns i = some d → c = d := by
    intro d hd
    exact some.inj (hc.symm.trans hd)
  have hclose : ∀ {net : Net} {d : TcpConn α}, (sotnetTcpClose net d).1 = some c' →
      c'.sndUna = d.sndUna := by
    intro net d hd
    have hcases := close_cases net d
    generalize sotnetTcpClose net d = out at hd hcases
    cases hcases with
    | fin =>
      obtain ⟨⟩ := hd
      simp [sendFin]
    | freed => cases hd
  cases h with
  | same => exact .inl (congrArg TcpConn.sndUna (hsame ho).symm)
  | packet hd f isn driver hf =>
    obtain rfl := hsame hd
    exact packet_una hc hf ho
  | syn hfree => simp [hc] at hfree
  | send hd =>
    obtain rfl := hsame hd
    obtain ⟨⟩ := ho
    exact .inl (by simp)
  | reply hd =>
    obtain rfl := hsame hd
    obtain ⟨⟩ := ho
    exact .inl (by simp)
  | @recv _ hd count copied driver =>
    obtain rfl := hsame hd
    obtain ⟨⟩ := ho
    have hcases := recv_cases ⟨s.now, driver⟩ c count copied
    generalize tcpRecv ⟨s.now, driver⟩ c count copied = out at hcases
    cases hcases <;> exact .inl (by simp)
  | close hd =>
    obtain rfl := hsame hd
    exact .inl (hclose ho)
  | connect hfree => simp [hc] at hfree
  | connectLost hfree => simp [hc] at hfree
  | listen hfree => simp [hc] at hfree
  | dequeue hd =>
    obtain rfl := hsame hd
    obtain ⟨⟩ := ho
    exact .inl rfl
  | acceptFault hd =>
    obtain rfl := hsame hd
    have huna := hclose ho
    exact .inl huna
  | own hd =>
    obtain rfl := hsame hd
    obtain ⟨⟩ := ho
    exact .inl rfl
  | @tick _ hd tsc driver =>
    obtain rfl := hsame hd
    have hcases := tickConn_cases ⟨s.now + 1, driver⟩ (s.protected c.connId) c
    generalize tickConn ⟨s.now + 1, driver⟩ (s.protected c.connId) c = out at ho hcases
    cases hcases with
    | kept =>
      obtain ⟨⟩ := ho
      exact .inl rfl
    | resend =>
      obtain ⟨⟩ := ho
      exact .inl (by simp)
    | reset => cases ho
    | finish =>
      obtain ⟨⟩ := ho
      exact .inl (by simp [sendFin])
    | expired => cases ho

theorem dispatch_pending {net : Net} (hrst : has f.flags flagRst = false)
    (hstate : c.state.closePending = true) :
    (dispatch net c f).1 = if has f.flags flagFin then some (tcpCloseOnFin net c f).1
      else if has f.flags flagAck then tcpCloseOnFinack net c
      else some c := by
  rw [dispatch, if_neg (by simp [hrst])]
  split <;> simp_all [closePending, apply_ite Prod.fst]

theorem FinAcked.pending {after : Option TcpState} (h : FinAcked state after) :
    state.awaitsFinAck = true ∧ state.closePending = true := by
  rcases h with ⟨rfl, -⟩ | ⟨rfl, -⟩ | ⟨rfl, -⟩ <;> exact ⟨rfl, rfl⟩

theorem onFin_not_acked {net : Net} :
    ¬ FinAcked c.state (some (tcpCloseOnFin net c f).1.state) := by
  have hcases := onFin_cases net c f
  generalize tcpCloseOnFin net c f = out at hcases
  cases hcases with
  | ignored => simp +contextual [FinAcked]
  | @taken next _ _ _ hnext =>
    change ¬ FinAcked c.state (some next)
    rintro (⟨hstate, hafter⟩ | ⟨hstate, -⟩ | ⟨-, hafter⟩)
    · rw [hstate] at hnext
      rw [← hnext] at hafter
      cases hafter
    · rw [hstate] at hnext
      cases hnext
    · cases hafter

theorem AckArrives.finAcked_iff (h : AckArrives ourIp s call i c f) :
    FinAcked c.state (((tcpStep ourIp s call).1.conns i).map TcpConn.state) ↔
      c.state.awaitsFinAck = true ∧ has f.flags flagFin = false := by
  obtain ⟨op, driver⟩ := call
  obtain ⟨isn, rfl⟩ : ∃ isn, op = .packet f isn := h.packet
  rw [packet_conns h.receives h.conn]
  constructor
  · intro hacked
    refine ⟨hacked.pending.1, ?_⟩
    by_contra hfin
    rw [dispatch_pending h.noRst hacked.pending.2, if_pos (by simpa using hfin)] at hacked
    exact onFin_not_acked hacked
  · rintro ⟨hawaits, hfin⟩
    have hpending : c.state.closePending = true := by
      revert hawaits
      cases c.state <;> decide
    rw [dispatch_pending h.noRst hpending, if_neg (by simp [hfin]), if_pos h.ack]
    unfold tcpCloseOnFinack
    split
    · rename_i hstate
      exact .inl ⟨hstate, rfl⟩
    · rename_i hstate
      exact .inr (.inl ⟨hstate, rfl⟩)
    · rename_i hstate
      exact .inr (.inr ⟨hstate, rfl⟩)
    · rename_i h1 h2 h3
      revert hawaits
      cases hstate : c.state <;> simp_all [awaitsFinAck]

theorem handshakeKept_iff {s : Fins α} (hs : FinNumbered s) :
    HandshakeKept ourIp (entry (finStep ourIp) s call) ↔ AcksSent ourIp s.tcp call := by
  constructor
  · rintro ⟨huna, hacked⟩ i c f harrives
    refine ⟨fun hstate hbounds hafter => ?_, fun hawaits hfin => ?_⟩
    · obtain ⟨c', hc', hmoved, hnxt⟩ : ∃ c', (tcpStep ourIp s.tcp call).1.conns i = some c' ∧
          c'.sndUna = f.ack ∧ c'.sndNxt = c.sndNxt :=
        NewAck.moves ⟨harrives, hstate, hbounds, hafter⟩
      have hpass := huna i c c' harrives.conn hc'
      rw [Passes, hmoved, hnxt] at hpass
      exact Nat.not_lt.mp hpass
    · rw [hacked i c f harrives (harrives.finAcked_iff.mpr ⟨hawaits, hfin⟩)]
      exact hs i c harrives.conn hawaits
  · intro hsent
    refine ⟨fun i c c' hc hc' hpass => ?_, fun i c f harrives hacked => ?_⟩
    · rw [Passes] at hpass
      rcases (tcpStep_slot ourIp s.tcp call i).una_moves hc hc' with
        hkept | hall | ⟨f, hnew, hmoved, hnxt⟩
      · rw [hkept] at hpass
        simp at hpass
      · rw [hall] at hpass
        exact lt_irrefl _ hpass
      · rw [hmoved, hnxt] at hpass
        have hbound := (hsent i c f hnew.toAckArrives).1 hnew.state hnew.bounds hnew.after
        omega
    · obtain ⟨hawaits, hfin⟩ := harrives.finAcked_iff.mp hacked
      rw [(hsent i c f harrives).2 hawaits hfin]
      exact (hs i c harrives.conn hawaits).symm

end

/-- The close handshake is sound along a run exactly if every ACK that arrives names a number that
was sent. -/
theorem handshake_kept_iff (ourIp : UInt32) (calls : List (Call α)) :
    (∀ e ∈ trace (finStep ourIp) Fins.init calls, HandshakeKept ourIp e) ↔
      ∀ e ∈ trace (finStep ourIp) Fins.init calls, AcksSent ourIp e.pre.tcp e.input := by
  exact trace_forall_congr (finStep ourIp) (P := FinNumbered)
    (fun s call => finStep_numbered) (fun s call hs => handshakeKept_iff hs)
    (by simp [FinNumbered, Fins.init, Tcp.init]) calls

def serverSegment : UInt32 → UInt32 → UInt8 → Frame := .bare 0x0100000A 0x0200000A 0x5000 0x00C0

def closingCalls : List (Call UInt8) :=
  [⟨.activeOpen 0x0100000A 0x5000 7 0 1000, true⟩, ⟨.packet (serverSegment 500 1001 0x12) 0, true⟩,
    ⟨.close 0, true⟩, ⟨.packet (serverSegment 501 1001 0x10) 0, true⟩]

theorem stale_ack_ends_wait : ¬ ∀ e ∈ trace (finStep 0x0200000A) Fins.init closingCalls,
      HandshakeKept 0x0200000A e := by
  intro hkept
  let s := exec (finStep 0x0200000A) Fins.init (closingCalls.take 3)
  let f := serverSegment 501 1001 0x10
  have hlast := hkept (entry (finStep 0x0200000A) s ⟨.packet f 0, true⟩)
    (.tail _ (.tail _ (.tail _ (.head _))))
  have hstate : (s.tcp.conns 0).map TcpConn.state = some .finWait1 := by decide +kernel
  obtain ⟨c, hc, hfinWait⟩ := map_eq_some_iff.mp hstate
  have harrives : AckArrives 0x0200000A s.tcp ⟨.packet f 0, true⟩ 0 c f :=
    ⟨⟨0, rfl⟩, ⟨by decide, by decide +kernel⟩, hc, by decide, by decide⟩
  have hafter : ((tcpStep 0x0200000A s.tcp ⟨.packet f 0, true⟩).1.conns 0).map TcpConn.state =
      some .finWait2 := by decide +kernel
  have hack := hlast.acked 0 c f harrives (.inl ⟨hfinWait, hafter⟩)
  revert hack
  decide +kernel

end SotOs.Sotnet
