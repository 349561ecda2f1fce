import SotOs.Sotnet.Tcp

/-! What one call does to one slot. Every invariant of the table is proved from the cases listed
here: a slot is left alone, or one handler ran on its connection, or a connection was put there. -/

namespace SotOs.Sotnet
open List
variable {α : Type} {ourIp : UInt32} {s : Tcp α} {i : Slot}

def Reply.at (r : Reply α) (i : Slot) : List (Event α) :=
  (r.events.filter fun e => e.1 == i).map Prod.snd

variable {ret : ℤ}

variable {j : Slot} {events : List (Event α)}

@[simp] theorem code_at : (Reply.code ret : Reply α).at i = [] := rfl

theorem filter_slot :
    ((events.map (Prod.mk j)).filter fun e => e.1 == i).map Prod.snd =
      if j = i then events else [] := by
  induction events with
  | nil => simp
  | cons e events ih =>
    rw [map_cons, filter_cons]
    by_cases hj : j = i
    · simpa [hj] using ih
    · simp [hj]

theorem of_at :
    (Reply.of j events ret).at i = if j = i then events else [] := filter_slot

@[simp] theorem set_conns {c : Option (TcpConn α)} :
    (s.set j c).conns i = if i = j then c else s.conns i := by
  simp [Tcp.set, Function.update_apply]

def Receives (ourIp : UInt32) (s : Tcp α) (i : Slot) (f : Frame) : Prop :=
  (f.hasHeaders && f.proto == 6 && f.dst == ourIp) = true ∧
    tcpConnLookup s.conns f.src f.srcPort f.dstPort = some i

structure Accepts (ourIp : UInt32) (s : Tcp α) (i l : Slot) (f : Frame) : Prop where
  headers : (f.hasHeaders && f.proto == 6 && f.dst == ourIp) = true
  unmatched : tcpConnLookup s.conns f.src f.srcPort f.dstPort = none
  action : sotfpUnsolicitedAction f.flags (tcpConnFindListen s.conns f.dstPort).isSome = .synAccept
  listener : tcpConnFindListen s.conns f.dstPort = some l
  slot : tcpConnAlloc s.conns = some i

inductive SlotStep (ourIp : UInt32) (s : Tcp α) (i : Slot) :
    Call α → Option (TcpConn α) → List (Event α) → Prop
  | same (call : Call α) : SlotStep ourIp s i call (s.conns i) []
  | packet {c : TcpConn α} (hc : s.conns i = some c) (f : Frame) (isn : UInt32) (driver : Bool)
      (hf : Receives ourIp s i f) :
      SlotStep ourIp s i ⟨.packet f isn, driver⟩ (dispatch ⟨s.now, driver⟩ c f).1
        (dispatch ⟨s.now, driver⟩ c f).2
  | syn {l : Slot} (hfree : s.conns i = none) (f : Frame) (isn : UInt32) (driver : Bool)
      (hf : Accepts ourIp s i l f) :
      SlotStep ourIp s i ⟨.packet f isn, driver⟩
        (some (tcpSendSegment ⟨s.now, driver⟩ (synRcvdConn s.connIdNext l f isn)
          (sotfpSynackFlags f.flags) []).conn)
        (tcpSendSegment ⟨s.now, driver⟩ (synRcvdConn s.connIdNext l f isn)
          (sotfpSynackFlags f.flags) []).events
  | send {c : TcpConn α} (hc : s.conns i = some c) (buf : List α) (driver : Bool) :
      SlotStep ourIp s i ⟨.send i buf, driver⟩ (some (tcpSendData ⟨s.now, driver⟩ c buf).1)
        (tcpSendData ⟨s.now, driver⟩ c buf).2.1
  | reply {c : TcpConn α} (hc : s.conns i = some c) (connId : UInt16) (data : List α)
      (driver : Bool) (hid : tcpConnById s.conns connId = some i) :
      SlotStep ourIp s i ⟨.reply connId data, driver⟩
        (some (replyLoop ⟨s.now, driver⟩ data.length c data).1)
        (replyLoop ⟨s.now, driver⟩ data.length c data).2.1
  | recv {c : TcpConn α} (hc : s.conns i = some c) (count : ℕ) (copied driver : Bool) :
      SlotStep ourIp s i ⟨.recv i count copied, driver⟩
        (some (tcpRecv ⟨s.now, driver⟩ c count copied).1)
        (tcpRecv ⟨s.now, driver⟩ c count copied).2.1
  | close {c : TcpConn α} (hc : s.conns i = some c) (driver : Bool) :
      SlotStep ourIp s i ⟨.close i, driver⟩ (sotnetTcpClose ⟨s.now, driver⟩ c).1
        (sotnetTcpClose ⟨s.now, driver⟩ c).2
  | connect (hfree : s.conns i = none) (hslot : tcpConnAlloc s.conns = some i) (dstIp : UInt32)
      (dstPort : UInt16) (pid : UInt32) (port : Fin ephemeralPortRange) (isn : UInt32) :
      SlotStep ourIp s i ⟨.activeOpen dstIp dstPort pid port isn, true⟩
        (some (tcpSendSegment ⟨s.now, true⟩ (synSentConn dstIp dstPort pid port isn) flagSyn []).conn)
        (tcpSendSegment ⟨s.now, true⟩ (synSentConn dstIp dstPort pid port isn) flagSyn []).events
  | connectLost (hfree : s.conns i = none) (dstIp : UInt32) (dstPort : UInt16) (pid : UInt32)
      (port : Fin ephemeralPortRange) (isn : UInt32) :
      SlotStep ourIp s i ⟨.activeOpen dstIp dstPort pid port isn, false⟩ none
        (tcpSendSegment ⟨s.now, false⟩ (synSentConn dstIp dstPort pid port isn) flagSyn []).events
  | listen (hfree : s.conns i = none) (localPort : UInt16) (driver : Bool) :
      SlotStep ourIp s i ⟨.passiveOpen localPort, driver⟩
        (some { TcpConn.blank with state := .listen, localPort := localPort }) []
  | dequeue {c : TcpConn α} (hc : s.conns i = some c) (localPort : UInt16) (driver : Bool)
      (hready : acceptReady s.conns localPort = some i) :
      SlotStep ourIp s i ⟨.accept localPort .noFd, driver⟩ (some { c with listenSlot := none }) []
  | acceptFault {c : TcpConn α} (hc : s.conns i = some c) (localPort : UInt16) (driver : Bool)
      (hready : acceptReady s.conns localPort = some i) :
      SlotStep ourIp s i ⟨.accept localPort .copyFault, driver⟩
        (sotnetTcpClose ⟨s.now, driver⟩ { c with listenSlot := none }).1
        (sotnetTcpClose ⟨s.now, driver⟩ { c with listenSlot := none }).2
  | own {c : TcpConn α} (hc : s.conns i = some c) (localPort : UInt16) (driver : Bool)
      (hready : acceptReady s.conns localPort = some i) :
      SlotStep ourIp s i ⟨.accept localPort .bound, driver⟩
        (some { c with listenSlot := none, appOwned := true }) []
  | tick {c : TcpConn α} (hc : s.conns i = some c) (tsc : UInt64) (driver : Bool)
      (hgate : (tickGate s.lastTickTsc tsc).2 = true) :
      SlotStep ourIp s i ⟨.tick tsc, driver⟩
        (tickConn ⟨s.now + 1, driver⟩ (s.protected c.connId) c).1
        (tickConn ⟨s.now + 1, driver⟩ (s.protected c.connId) c).2

theorem slotStep_set {call : Call α} {o : Option (TcpConn α)}
    {events : List (Event α)} (ret : ℤ) (h : SlotStep ourIp s j call o events) :
    SlotStep ourIp s i call ((s.set j o).conns i) ((Reply.of j events ret).at i) := by
  rw [set_conns, of_at]
  by_cases hij : i = j
  · subst hij
    simpa using h
  · rw [if_neg hij, if_neg (Ne.symm hij)]
    exact .same call

theorem alloc_free {conns : Conns α} {i : Slot} (h : tcpConnAlloc conns = some i) :
    conns i = none := Option.isNone_iff_eq_none.mp (Slots.first_some h)

variable {isn : UInt32} {tsc : UInt64} {shielded : Bool}

variable {driver : Bool}

theorem onSyn_slot {f : Frame}
    (hf : ∀ {l j}, tcpConnFindListen s.conns f.dstPort = some l → tcpConnAlloc s.conns = some j →
      Accepts ourIp s j l f) :
    SlotStep ourIp s i ⟨.packet f isn, driver⟩
      ((tcpServerOnSyn s ⟨s.now, driver⟩ f isn).1.conns i)
      ((tcpServerOnSyn s ⟨s.now, driver⟩ f isn).2.at i) := by
  unfold tcpServerOnSyn
  split
  · rename_i l j hl hj
    exact slotStep_set 0 (.syn (alloc_free hj) f isn driver (hf hl hj))
  · exact .same _

theorem packet_slot {f : Frame} : SlotStep ourIp s i ⟨.packet f isn, driver⟩
      ((tcpHandlePacket ourIp s ⟨s.now, driver⟩ f isn).1.conns i)
      ((tcpHandlePacket ourIp s ⟨s.now, driver⟩ f isn).2.at i) := by
  unfold tcpHandlePacket
  split
  · rename_i hours
    split
    · rename_i j hj
      split
      · rename_i c hc
        exact slotStep_set 0 (.packet hc f isn driver ⟨hours, hj⟩)
      · exact .same _
    · rename_i hmiss
      split
      · rename_i haction
        exact onSyn_slot fun hl hj => ⟨hours, hmiss, haction, hl, hj⟩
      · exact .same _
      · exact .same _
  · exact .same _

theorem accept_slot {localPort : UInt16} {fate : AcceptEnd} :
    SlotStep ourIp s i ⟨.accept localPort fate, driver⟩
      ((doAccept s ⟨s.now, driver⟩ localPort fate).1.conns i)
      ((doAccept s ⟨s.now, driver⟩ localPort fate).2.at i) := by
  unfold doAccept
  split
  · exact .same _
  rename_i j hj
  split
  · exact .same _
  rename_i c hc
  cases fate with
  | noFd => exact slotStep_set (-1) (.dequeue hc localPort driver hj)
  | copyFault => exact slotStep_set (-efault) (.acceptFault hc localPort driver hj)
  | bound => exact slotStep_set j.val (.own hc localPort driver hj)

theorem open_slot {dstIp : UInt32} {dstPort : UInt16} {pid : UInt32} {port : Fin ephemeralPortRange}
    :
    SlotStep ourIp s i ⟨.activeOpen dstIp dstPort pid port isn, driver⟩
      ((tcpActiveOpen s ⟨s.now, driver⟩ dstIp dstPort pid port isn).1.conns i)
      ((tcpActiveOpen s ⟨s.now, driver⟩ dstIp dstPort pid port isn).2.at i) := by
  unfold tcpActiveOpen
  split
  · exact .same _
  rename_i j hj
  have hok : (tcpSendSegment ⟨s.now, driver⟩
      (synSentConn dstIp dstPort pid port isn : TcpConn α) flagSyn []).ok = driver := rfl
  simp only [hok]
  cases driver with
  | true => exact slotStep_set j.val (.connect (alloc_free hj) hj dstIp dstPort pid port isn)
  | false =>
    -- the slot taken for the SYN is given back
    have hstep : SlotStep ourIp s j ⟨.activeOpen dstIp dstPort pid port isn, false⟩ none _ :=
      .connectLost (alloc_free hj) dstIp dstPort pid port isn
    have hlost := slotStep_set (i := i) (-1) hstep
    have hconns : (s.set j none).conns i = s.conns i := by
      rw [set_conns]
      split_ifs with hij
      · rw [hij, alloc_free hj]
      · rfl
    rw [hconns] at hlost
    exact hlost

variable {driver : Bool}

theorem tick_at (hgate : (tickGate s.lastTickTsc tsc).2 = true) :
    (tcpTimerTick s driver tsc).2.at i = (tickSlot s ⟨s.now + 1, driver⟩ i).2 := by
  simp only [tcpTimerTick, hgate, if_true, Reply.at, filter_flatMap, map_flatMap,
    filter_slot]
  exact Slots.flatMap_only i fun j => (tickSlot s ⟨s.now + 1, driver⟩ j).2

theorem tick_conns (hgate : (tickGate s.lastTickTsc tsc).2 = true) (i : Slot) :
    (tcpTimerTick s driver tsc).1.conns i = (tickSlot s ⟨s.now + 1, driver⟩ i).1 := by
  simp only [tcpTimerTick, hgate, if_true]

theorem tick_slot :
    SlotStep ourIp s i ⟨.tick tsc, driver⟩ ((tcpTimerTick s driver tsc).1.conns i)
      ((tcpTimerTick s driver tsc).2.at i) := by
  by_cases hgate : (tickGate s.lastTickTsc tsc).2 = true
  · rw [tick_at hgate, tick_conns hgate]
    cases hc : s.conns i with
    | none =>
      have hsame : tickSlot s ⟨s.now + 1, driver⟩ i = (s.conns i, []) := by
        simp only [tickSlot, hc]
      rw [hsame]
      exact .same _
    | some c =>
      have hrun : tickSlot s ⟨s.now + 1, driver⟩ i =
          tickConn ⟨s.now + 1, driver⟩ (s.protected c.connId) c := by
        simp only [tickSlot, hc]
      rw [hrun]
      exact .tick hc tsc driver hgate
  · simp only [tcpTimerTick, if_neg hgate]
    exact .same _

theorem tcpStep_slot (ourIp : UInt32) (s : Tcp α) (call : Call α) (i : Slot) :
    SlotStep ourIp s i call ((tcpStep ourIp s call).1.conns i) ((tcpStep ourIp s call).2.at i) := by
  obtain ⟨op, driver⟩ := call
  cases op with
  | packet f isn => exact packet_slot
  | send j buf =>
    simp only [tcpStep, sendOn]
    split
    · exact .same _
    · rename_i c hc
      exact slotStep_set _ (.send hc buf driver)
  | reply connId data =>
    simp only [tcpStep, replyTo]
    split
    · exact .same _
    rename_i j hj
    split
    · exact .same _
    · rename_i c hc
      exact slotStep_set _ (.reply hc connId data driver hj)
  | recv j count copied =>
    simp only [tcpStep, recvOn]
    split
    · exact .same _
    · rename_i c hc
      exact slotStep_set 0 (.recv hc count copied driver)
  | close j =>
    simp only [tcpStep, closeOn]
    split
    · exact .same _
    · rename_i c hc
      exact slotStep_set 0 (.close hc driver)
  | activeOpen dstIp dstPort pid port isn => exact open_slot
  | passiveOpen localPort =>
    simp only [tcpStep, tcpPassiveOpen]
    split
    · rename_i j _ hj
      exact slotStep_set j.val (.listen (alloc_free hj) localPort driver)
    · exact .same _
  | accept localPort fate => exact accept_slot
  | tick tsc => exact tick_slot
  | shell connId => exact .same _

section
variable {net : Net} {c : TcpConn α} {f : Frame}

def TcpState.retransmits : TcpState → Bool
  | .synSent | .synRcvd | .established => true
  | _ => false

def TcpState.closePending : TcpState → Bool
  | .finWait1 | .finWait2 | .closing | .lastAck => true
  | _ => false

def TcpState.afterFin : TcpState → Option TcpState
  | .established => some .closeWait
  | .finWait1 => some .closing
  | .finWait2 => some .timeWait
  | _ => none

inductive SegmentCase (net : Net) (c : TcpConn α) (f : Frame) :
    TcpConn α × List (Event α) → Prop
  | malformed (h : f.hasPayloadBounds = false) : SegmentCase net c f (c, [])
  | bare (wnd : UInt32) (h : f.hasPayloadBounds = true) (hlen : f.dataLen = 0) :
      SegmentCase net c f (takeAck { c with sndWnd := wnd } f, [])
  | inOrder (wnd : UInt32) (h : f.hasPayloadBounds = true) (hlen : f.dataLen ≠ 0)
      (hseq : f.seq = c.rcvNxt) :
      SegmentCase net c f
        ((tcpSendSegment net (takePayload (takeAck { c with sndWnd := wnd } f) f) flagAck []).conn,
          bridgePush c f ++
          (tcpSendSegment net (takePayload (takeAck { c with sndWnd := wnd } f) f) flagAck
            []).events)
  | outOfOrder (wnd : UInt32) (h : f.hasPayloadBounds = true) (hlen : f.dataLen ≠ 0)
      (hseq : f.seq ≠ c.rcvNxt) :
      SegmentCase net c f
        ((tcpSendSegment net (takeAck { c with sndWnd := wnd } f) flagAck []).conn,
          (tcpSendSegment net (takeAck { c with sndWnd := wnd } f) flagAck []).events)

@[simp] theorem takeAck_fields : (takeAck c f).rcvNxt = c.rcvNxt ∧ (takeAck c f).sndNxt = c.sndNxt := by
  unfold takeAck
  split_ifs <;> simp

theorem bridgePush_takeAck {wnd : UInt32} :
    bridgePush (takeAck { c with sndWnd := wnd } f) f = bridgePush c f := by
  unfold takeAck
  split_ifs <;> rfl

theorem onSegment_cases (net : Net) (c : TcpConn α) (f : Frame) :
    SegmentCase net c f (tcpDataOnSegment net c f) := by
  simp only [tcpDataOnSegment]
  split
  · rename_i h
    split
    · rename_i hlen
      exact .bare _ h hlen
    rename_i hlen
    split
    · rename_i hseq
      rw [bridgePush_takeAck]
      exact .inOrder _ h hlen (by simpa using hseq)
    · rename_i hseq
      exact .outOfOrder _ h hlen (by simpa using hseq)
  · rename_i h
    exact .malformed (by simpa using h)

inductive FinCase (net : Net) (c : TcpConn α) (f : Frame) : TcpConn α × List (Event α) → Prop
  | ignored : FinCase net c f (c, [])
  | taken {next : TcpState} (tick : UInt32) (h : f.hasHeaders = true)
      (hseq : f.finSeq = c.rcvNxt) (hnext : c.state.afterFin = some next) :
      FinCase net c f
        ({ (takeFin net c next).1 with timeWaitTick := tick }, (takeFin net c next).2)

theorem onFin_cases (net : Net) (c : TcpConn α) (f : Frame) :
    FinCase net c f (tcpCloseOnFin net c f) := by
  unfold tcpCloseOnFin
  split
  · exact .ignored
  rename_i h
  split
  · exact .ignored
  rename_i hseq
  have h : f.hasHeaders = true := by simpa using h
  rw [not_not] at hseq
  split
  · rename_i hstate
    exact .taken _ h hseq (by rw [hstate]; rfl)
  · rename_i hstate
    exact .taken _ h hseq (by rw [hstate]; rfl)
  · rename_i hstate
    exact .taken _ h hseq (by rw [hstate]; rfl)
  · exact .ignored

inductive DispatchCase (net : Net) (c : TcpConn α) (f : Frame) : Outcome α → Prop
  | reset (hrst : has f.flags flagRst = true) : DispatchCase net c f (none, [])
  | kept (hstate : c.state ≠ .established) : DispatchCase net c f (some c, [])
  | handshake (hstate : c.state = .synRcvd) (hack : f.ack = c.sndNxt + 1)
      (events : List (Event α)) (hpush : ∀ x, Event.sent x ∉ events) :
      DispatchCase net c f
        (some { c with sndUna := c.sndNxt + 1, sndNxt := c.sndNxt + 1, state := .established },
          events)
  | synack (wscale : UInt8) (hstate : c.state = .synSent) (hack : f.ack = c.sndNxt + 1) :
      DispatchCase net c f
        (if net.driver then
            some (tcpSendSegment net
              { c with
                rcvNxt := f.seq + 1
                sndUna := c.sndNxt + 1
                sndNxt := c.sndNxt + 1
                state := .established
                peerWscale := wscale } flagAck []).conn
          else none,
          (tcpSendSegment net
            { c with
              rcvNxt := f.seq + 1
              sndUna := c.sndNxt + 1
              sndNxt := c.sndNxt + 1
              state := .established
              peerWscale := wscale } flagAck []).events)
  | data (hstate : c.state = .established) (hfin : has f.flags flagFin = false) :
      DispatchCase net c f (some (tcpDataOnSegment net c f).1, (tcpDataOnSegment net c f).2)
  | dataFin (hstate : c.state = .established) (hfin : has f.flags flagFin = true) :
      DispatchCase net c f
        (some (tcpCloseOnFin net (tcpDataOnSegment net c f).1 f).1,
          (tcpDataOnSegment net c f).2 ++ (tcpCloseOnFin net (tcpDataOnSegment net c f).1 f).2)
  | fin (hstate : c.state.closePending = true) (hfin : has f.flags flagFin = true) :
      DispatchCase net c f (some (tcpCloseOnFin net c f).1, (tcpCloseOnFin net c f).2)
  | finack (hstate : c.state.closePending = true) (hfin : has f.flags flagFin = false)
      (hack : has f.flags flagAck = true) :
      DispatchCase net c f (tcpCloseOnFinack net c, [])

theorem onAck_cases (hstate : c.state = .synRcvd) :
    DispatchCase net c f (some (tcpServerOnAck c f).1, (tcpServerOnAck c f).2) := by
  unfold tcpServerOnAck
  split
  · exact .kept (by simp [hstate])
  rename_i hack
  refine .handshake hstate (not_not.mp hack) _ ?_
  intro x
  split_ifs <;> simp

theorem onSynack_cases (hstate : c.state = .synSent) :
    DispatchCase net c f (tcpClientOnSynack net c f) := by
  simp only [tcpClientOnSynack]
  split
  · exact .kept (by simp [hstate])
  · rename_i hack
    exact .synack _ hstate (not_not.mp hack)

theorem closePending_cases (hstate : c.state.closePending = true) (hne : c.state ≠ .established) :
    DispatchCase net c f
      (if has f.flags flagFin then (some (tcpCloseOnFin net c f).1, (tcpCloseOnFin net c f).2)
      else if has f.flags flagAck then (tcpCloseOnFinack net c, [])
      else (some c, [])) := by
  split
  · rename_i hfin
    exact .fin hstate hfin
  rename_i hfin
  split
  · rename_i hack
    exact .finack hstate (by simpa using hfin) hack
  · exact .kept hne

theorem dispatch_cases (net : Net) (c : TcpConn α) (f : Frame) :
    DispatchCase net c f (dispatch net c f) := by
  simp only [dispatch]
  split
  · rename_i hrst
    exact .reset hrst
  cases hstate : c.state with
  | synRcvd =>
    dsimp only
    split
    · exact onAck_cases hstate
    · exact .kept (by simp [hstate])
  | synSent =>
    dsimp only
    split
    · exact onSynack_cases hstate
    · exact .kept (by simp [hstate])
  | established =>
    dsimp only
    split
    · rename_i hfin
      exact .dataFin hstate hfin
    · rename_i hfin
      exact .data hstate (by simpa using hfin)
  | finWait1 => exact closePending_cases (by rw [hstate]; rfl) (by simp [hstate])
  | finWait2 => exact closePending_cases (by rw [hstate]; rfl) (by simp [hstate])
  | closing => exact closePending_cases (by rw [hstate]; rfl) (by simp [hstate])
  | lastAck => exact closePending_cases (by rw [hstate]; rfl) (by simp [hstate])
  | closed => exact .kept (by simp [hstate])
  | listen => exact .kept (by simp [hstate])
  | closeWait => exact .kept (by simp [hstate])
  | timeWait => exact .kept (by simp [hstate])

inductive TickCase (net : Net) (shielded : Bool) (c : TcpConn α) : Outcome α → Prop
  | kept : TickCase net shielded c (some c, [])
  | resend (hstate : c.state.retransmits = true) (hdue : c.retxDue net.now = true)
      (hcount : c.retxCount < retxMax) :
      TickCase net shielded c
        (some (tcpSendSegment net { c with retxCount := c.retxCount + 1 } c.txFlags
            c.txBuf.toList).conn,
          (tcpSendSegment net { c with retxCount := c.retxCount + 1 } c.txFlags
            c.txBuf.toList).events)
  | reset (hstate : c.state.retransmits = true) : TickCase net shielded c (resetConn net c)
  | finish (hstate : c.state = .closeWait) :
      TickCase net shielded c (some (sendFin net c .lastAck).1, (sendFin net c .lastAck).2)
  | expired : TickCase net shielded c (none, [])

theorem retransmits_cases (hstate : c.state.retransmits = true) : TickCase net shielded c
      (if c.retxDue net.now then
        if retxMax ≤ c.retxCount then resetConn net c
        else
          (some (tcpSendSegment net { c with retxCount := c.retxCount + 1 } c.txFlags
              c.txBuf.toList).conn,
            (tcpSendSegment net { c with retxCount := c.retxCount + 1 } c.txFlags
              c.txBuf.toList).events)
      else if c.state = .established ∧ c.sndUna = c.sndNxt ∧
          elapsed net.now c.lastTxMs idleTicks ∧ shielded = false then resetConn net c
      else (some c, [])) := by
  split
  · rename_i hdue
    split
    · exact .reset hstate
    · rename_i hcount
      exact .resend hstate hdue (by omega)
  · split
    · exact .reset hstate
    · exact .kept

theorem expiry_cases {due : Bool} :
    TickCase net shielded c (if due then (none, []) else (some c, [])) := by
  cases due
  · exact .kept
  · exact .expired

theorem tickConn_cases (net : Net) (shielded : Bool) (c : TcpConn α) :
    TickCase net shielded c (tickConn net shielded c) := by
  unfold tickConn
  split
  case h_1 hstate => exact retransmits_cases (by rw [hstate]; rfl)
  case h_2 hstate => exact retransmits_cases (by rw [hstate]; rfl)
  case h_3 hstate => exact retransmits_cases (by rw [hstate]; rfl)
  case h_4 hstate =>
    have hclose : sotnetTcpClose net c =
        (some (sendFin net c .lastAck).1, (sendFin net c .lastAck).2) := by
      simp only [sotnetTcpClose, hstate]
    rw [hclose]
    split
    · exact .finish hstate
    · exact .kept
  case h_10 => exact .kept
  all_goals exact expiry_cases

inductive SendCase (net : Net) (c : TcpConn α) (buf : List α) :
    TcpConn α × List (Event α) × ℤ → Prop
  | refused (ret : ℤ) (hret : ret ≤ 0) : SendCase net c buf (c, [], ret)
  | lost (hbuf : buf ≠ []) (hdriver : net.driver = false)
      (hopen : c.state = .established ∨ c.state = .closeWait)
      (hfits : (buf.take txBufSize).length ≤ txBufSize) :
      SendCase net c buf
        (cacheSegment net c (flagAck ||| flagPsh) (buf.take txBufSize) hfits,
          [.sent ⟨c, buildSegment c (flagAck ||| flagPsh) (buf.take txBufSize), false⟩], -1)
  | taken (hbuf : buf ≠ []) (hdriver : net.driver = true)
      (hopen : c.state = .established ∨ c.state = .closeWait)
      (hfits : (buf.take txBufSize).length ≤ txBufSize) :
      SendCase net c buf
        ({ cacheSegment net c (flagAck ||| flagPsh) (buf.take txBufSize) hfits with
            sndNxt := c.sndNxt + UInt32.ofNat (buf.take txBufSize).length },
          [.sent ⟨c, buildSegment c (flagAck ||| flagPsh) (buf.take txBufSize), true⟩],
          (buf.take txBufSize).length)

theorem sendData_cases (net : Net) (c : TcpConn α) (buf : List α) :
    SendCase net c buf (tcpSendData net c buf) := by
  have hfits : (buf.take txBufSize).length ≤ txBufSize := length_take_le _ _
  have hsend : tcpSendSegment net c (flagAck ||| flagPsh) (buf.take txBufSize) =
      ⟨cacheSegment net c (flagAck ||| flagPsh) (buf.take txBufSize) hfits,
        [⟨c, buildSegment c (flagAck ||| flagPsh) (buf.take txBufSize), net.driver⟩],
        net.driver⟩ := by
    have hopt : optLen (flagAck ||| flagPsh) = 0 := by decide
    rw [tcpSendSegment, dif_pos (by rw [hopt, Nat.zero_add]; exact hfits)]
  simp only [tcpSendData, hsend]
  split
  · exact .refused _ (by decide)
  rename_i hstate
  split
  · exact .refused _ le_rfl
  rename_i hbuf
  rw [List.isEmpty_iff] at hbuf
  have hopen : c.state = .established ∨ c.state = .closeWait := by tauto
  cases hdriver : net.driver with
  | false => exact .lost hbuf hdriver hopen hfits
  | true => exact .taken hbuf hdriver hopen hfits

inductive CloseCase (net : Net) (c : TcpConn α) : Outcome α → Prop
  | fin {next : TcpState} (h : c.state = .established ∧ next = .finWait1 ∨
      c.state = .closeWait ∧ next = .lastAck) :
      CloseCase net c (some (sendFin net c next).1, (sendFin net c next).2)
  | freed : CloseCase net c (none, [])

theorem close_cases (net : Net) (c : TcpConn α) : CloseCase net c (sotnetTcpClose net c) := by
  unfold sotnetTcpClose
  split
  · rename_i hstate
    exact .fin (.inl ⟨hstate, rfl⟩)
  · rename_i hstate
    exact .fin (.inr ⟨hstate, rfl⟩)
  · exact .freed

end

section
variable (net : Net) (c : TcpConn α) (flags : UInt8) (data : List α) (f : Frame)

@[simp] theorem sendSegment_state : (tcpSendSegment net c flags data).conn.state = c.state := by
  unfold tcpSendSegment
  split_ifs <;> rfl

@[simp] theorem sendSegment_fields :
    (tcpSendSegment net c flags data).conn.sndNxt = c.sndNxt ∧
      (tcpSendSegment net c flags data).conn.sndUna = c.sndUna ∧
      (tcpSendSegment net c flags data).conn.rcvNxt = c.rcvNxt ∧
      (tcpSendSegment net c flags data).conn.rxBuf = c.rxBuf ∧
      (tcpSendSegment net c flags data).conn.localPort = c.localPort ∧
      (tcpSendSegment net c flags data).conn.appOwned = c.appOwned ∧
      (tcpSendSegment net c flags data).conn.retxCount = c.retxCount ∧
      (tcpSendSegment net c flags data).conn.timeWaitTick = c.timeWaitTick := by
  unfold tcpSendSegment
  split_ifs <;> simp [cacheSegment]

theorem sendSegment_events :
    (tcpSendSegment net c flags []).events = [.sent ⟨c, buildSegment c flags [], net.driver⟩] := by
  have hopt : optLen flags ≤ txBufSize := by
    unfold optLen
    split_ifs <;> decide
  simp [tcpSendSegment, hopt, SendResult.events]

@[simp] theorem takeAck_state : (takeAck c f).state = c.state := by
  unfold takeAck
  split_ifs <;> rfl

theorem takeAck_sndUna : (takeAck c f).sndUna =
    if has f.flags flagAck && seqAfter f.ack c.sndUna then f.ack else c.sndUna := by
  unfold takeAck
  split_ifs <;> rfl

@[simp] theorem takePayload_fields : (takePayload c f).state = c.state ∧
    (takePayload c f).sndNxt = c.sndNxt ∧ (takePayload c f).sndUna = c.sndUna := by
  unfold takePayload
  split_ifs <;> simp

@[simp] theorem onSegment_state : (tcpDataOnSegment net c f).1.state = c.state := by
  have hcases := onSegment_cases net c f
  generalize tcpDataOnSegment net c f = out at hcases
  cases hcases <;> simp

@[simp] theorem onSegment_sndNxt : (tcpDataOnSegment net c f).1.sndNxt = c.sndNxt := by
  have hcases := onSegment_cases net c f
  generalize tcpDataOnSegment net c f = out at hcases
  cases hcases <;> simp

theorem onSegment_sndUna : (tcpDataOnSegment net c f).1.sndUna =
    if f.hasPayloadBounds && has f.flags flagAck && seqAfter f.ack c.sndUna then f.ack
    else c.sndUna := by
  have hcases := onSegment_cases net c f
  generalize tcpDataOnSegment net c f = out at hcases
  cases hcases with
  | malformed h => simp [h]
  | bare _ h => simp [h, takeAck_sndUna]
  | inOrder _ h => simp [h, takeAck_sndUna]
  | outOfOrder _ h => simp [h, takeAck_sndUna]

@[simp] theorem onFin_fields : (tcpCloseOnFin net c f).1.sndNxt = c.sndNxt ∧
    (tcpCloseOnFin net c f).1.sndUna = c.sndUna := by
  have hcases := onFin_cases net c f
  generalize tcpCloseOnFin net c f = out at hcases
  cases hcases <;> simp [takeFin]

theorem sendData_refused {c : TcpConn α} (hopen : c.state ≠ .established)
    (hwait : c.state ≠ .closeWait) (buf : List α) : tcpSendData net c buf = (c, [], -1) := by
  rw [tcpSendData, if_pos ⟨hopen, hwait⟩]

theorem replyLoop_refused {c : TcpConn α} (hopen : c.state ≠ .established)
    (hwait : c.state ≠ .closeWait) (fuel : ℕ) (data : List α) :
    replyLoop net fuel c data = (c, [], 0) := by
  cases fuel with
  | zero => rfl
  | succ fuel =>
    simp only [replyLoop, sendData_refused net hopen hwait]
    split
    · rfl
    · rw [if_pos (by decide)]

@[simp] theorem sendData_fields (buf : List α) : (tcpSendData net c buf).1.state = c.state ∧
    (tcpSendData net c buf).1.sndUna = c.sndUna := by
  simp only [tcpSendData]
  split
  · simp
  · split
    · simp
    · split <;> simp

@[simp] theorem replyLoop_fields (fuel : ℕ) : (replyLoop net fuel c data).1.state = c.state ∧
    (replyLoop net fuel c data).1.sndUna = c.sndUna := by
  induction fuel generalizing c data with
  | zero => simp [replyLoop]
  | succ fuel ih =>
    simp only [replyLoop]
    split
    · simp
    · split
      · simp
      · simp [ih]

inductive RecvCase (net : Net) (c : TcpConn α) :
    TcpConn α × List (Event α) × ℤ × List UInt8 → Prop
  | nothing (ret : ℤ) : RecvCase net c (c, [], ret, [])
  | drained (n : ℕ) (hn : n ≤ c.rxBuf.toList.length) :
      RecvCase net c
        ({ c with rxBuf := c.rxBuf.consume n }, [], n, c.rxBuf.toList.take n)
  | updated (n : ℕ) (hn : n ≤ c.rxBuf.toList.length) (hstate : c.state = .established) :
      RecvCase net c
        ((tcpSendSegment net { c with rxBuf := c.rxBuf.consume n } flagAck []).conn,
          (tcpSendSegment net { c with rxBuf := c.rxBuf.consume n } flagAck []).events, n,
          c.rxBuf.toList.take n)

theorem recv_cases (count : ℕ) (copied : Bool) : RecvCase net c (tcpRecv net c count copied) := by
  simp only [tcpRecv]
  split
  · exact .nothing _
  split
  · exact .nothing _
  split
  · rename_i h
    exact .updated _ (Nat.min_le_right _ _) h.2
  · exact .drained _ (Nat.min_le_right _ _)

end

def Built : Event α → Prop
  | .sent x => x.seg = buildSegment x.conn x.seg.flags x.seg.payload
  | .push _ _ _ => True

theorem sendSegment_built (net : Net) (c : TcpConn α) (flags : UInt8) (data : List α) :
    ∀ e ∈ (tcpSendSegment net c flags data).events, Built e := by
  unfold tcpSendSegment
  split_ifs
  · simp [SendResult.events, Built, buildSegment]
  · simp [SendResult.events]

theorem sendData_built (net : Net) (c : TcpConn α) (buf : List α) :
    ∀ e ∈ (tcpSendData net c buf).2.1, Built e := by
  simp only [tcpSendData]
  split
  · simp
  · split
    · simp
    · split <;> exact sendSegment_built _ _ _ _

theorem replyLoop_built (net : Net) (fuel : ℕ) (c : TcpConn α) (data : List α) :
    ∀ e ∈ (replyLoop net fuel c data).2.1, Built e := by
  induction fuel generalizing c data with
  | zero => simp [replyLoop]
  | succ fuel ih =>
    simp only [replyLoop]
    split
    · simp
    · split
      · exact sendData_built net c data
      · exact forall_mem_append.mpr ⟨sendData_built net c data, ih _ _⟩

section
variable {P : Event α → Prop} (hbare : ∀ net (c : TcpConn α) flags,
  ∀ e ∈ (tcpSendSegment net c flags []).events, P e)
include hbare

theorem recv_events (net : Net) (c : TcpConn α) (count : ℕ) (copied : Bool) :
    ∀ e ∈ (tcpRecv net c count copied).2.1, P e := by
  have hcases := recv_cases net c count copied
  generalize tcpRecv net c count copied = out at hcases
  cases hcases with
  | nothing => simp
  | drained => simp
  | updated => exact hbare _ _ _

theorem onFin_events (net : Net) (c : TcpConn α) (f : Frame) :
    ∀ e ∈ (tcpCloseOnFin net c f).2, P e := by
  have hcases := onFin_cases net c f
  generalize tcpCloseOnFin net c f = out at hcases
  cases hcases with
  | ignored => simp
  | taken => exact hbare _ _ _

theorem close_events (net : Net) (c : TcpConn α) : ∀ e ∈ (sotnetTcpClose net c).2, P e := by
  have hcases := close_cases net c
  generalize sotnetTcpClose net c = out at hcases
  cases hcases with
  | fin => exact hbare _ _ _
  | freed => simp

variable (hpush : ∀ connId port data, P (.push connId port data))
include hpush

theorem onSegment_events (net : Net) (c : TcpConn α) (f : Frame) :
    ∀ e ∈ (tcpDataOnSegment net c f).2, P e := by
  have hbridge : ∀ e ∈ bridgePush c f, P e := by
    unfold bridgePush
    split_ifs <;> simp [hpush]
  have hcases := onSegment_cases net c f
  generalize tcpDataOnSegment net c f = out at hcases
  cases hcases with
  | malformed => simp
  | bare => simp
  | inOrder => exact forall_mem_append.mpr ⟨hbridge, hbare _ _ _⟩
  | outOfOrder => exact hbare _ _ _

theorem dispatch_events (net : Net) (c : TcpConn α) (f : Frame) :
    ∀ e ∈ (dispatch net c f).2, P e := by
  have hcases := dispatch_cases net c f
  generalize dispatch net c f = out at hcases
  cases hcases with
  | reset => simp
  | kept => simp
  | handshake _ _ events hquiet =>
    intro e he
    cases e with
    | sent x => exact absurd he (hquiet x)
    | push => exact hpush ..
  | synack => exact hbare _ _ _
  | data => exact onSegment_events hbare hpush net c f
  | dataFin =>
    exact forall_mem_append.mpr ⟨onSegment_events hbare hpush net c f, onFin_events hbare net _ f⟩
  | fin => exact onFin_events hbare net c f
  | finack => simp

end

variable {net : Net}

theorem tickConn_built {c : TcpConn α} : ∀ e ∈ (tickConn net shielded c).2, Built e := by
  have hcases := tickConn_cases net shielded c
  generalize tickConn net shielded c = out at hcases
  cases hcases with
  | kept => simp
  | resend => exact sendSegment_built _ _ _ _
  | reset => exact sendSegment_built _ _ _ _
  | finish => exact sendSegment_built _ _ _ _
  | expired => simp

theorem SlotStep.built {i : Slot} {call : Call α} {o : Option (TcpConn α)}
    {events : List (Event α)} (h : SlotStep ourIp s i call o events) : ∀ e ∈ events, Built e := by
  have hbare := fun net (c : TcpConn α) flags => sendSegment_built net c flags []
  cases h with
  | same => simp
  | packet => exact dispatch_events hbare (fun _ _ _ => trivial) _ _ _
  | syn => exact sendSegment_built _ _ _ _
  | send => exact sendData_built _ _ _
  | reply => exact replyLoop_built _ _ _ _
  | recv => exact recv_events hbare _ _ _ _
  | close => exact close_events hbare _ _
  | connect => exact sendSegment_built _ _ _ _
  | connectLost => exact sendSegment_built _ _ _ _
  | listen => simp
  | dequeue => simp
  | acceptFault => exact close_events hbare _ _
  | own => simp
  | tick => exact tickConn_built

end SotOs.Sotnet
