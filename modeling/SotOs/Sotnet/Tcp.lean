import SotOs.Lib.Machine
import SotOs.Sotnet.Conn

/-! The handlers of the TCP stack and the machine they form. Each handler is a function on the one
connection it is given; the table, the tick counter and the id counter are threaded by the calls. -/

namespace SotOs.Sotnet
variable {α : Type}

inductive Event (α : Type)
  | sent (s : Sent α)
  | push (connId localPort : UInt16) (data : List UInt8)
  deriving DecidableEq

def SendResult.events (r : SendResult α) : List (Event α) := r.sent.map .sent

/-- A connection after a handler, `none` when its slot was freed, with what the handler did. -/
abbrev Outcome (α : Type) := Option (TcpConn α) × List (Event α)

variable (net : Net) (c : TcpConn α)

def tcpSendData (buf : List α) : TcpConn α × List (Event α) × ℤ :=
  if c.state ≠ .established ∧ c.state ≠ .closeWait then (c, [], -1)
  else if buf.isEmpty then (c, [], 0)
  else
    let data := buf.take txBufSize
    let r := tcpSendSegment net c (flagAck ||| flagPsh) data
    if r.ok then
      ({ r.conn with sndNxt := c.sndNxt + UInt32.ofNat data.length }, r.events, data.length)
    else (r.conn, r.events, -1)

def TcpConn.bridged : Bool :=
  bswap16 c.localPort == 80 || bswap16 c.localPort == 22 || bswap16 c.localPort == 443

def seqAfter (a b : UInt32) : Bool := decide (0 < (a - b).toNat ∧ (a - b).toNat < 2 ^ 31)

variable (f : Frame)

def takeAck : TcpConn α :=
  if has f.flags flagAck && seqAfter f.ack c.sndUna then
    { c with sndUna := f.ack, retxCount := 0 }
  else c

def takePayload : TcpConn α :=
  if c.bridged && !c.appOwned then { c with rcvNxt := f.seq + UInt32.ofNat f.dataLen }
  else
    { c with
      rxBuf := c.rxBuf.fill f.payload
      rcvNxt := f.seq + UInt32.ofNat (min f.dataLen c.rxFree) }

def bridgePush : List (Event α) :=
  if c.bridged then [.push c.connId (bswap16 c.localPort) f.payload] else []

def tcpDataOnSegment : TcpConn α × List (Event α) :=
  if f.hasPayloadBounds then
    let c := takeAck { c with sndWnd := f.window.toUInt32 <<< c.peerWscale.toUInt32 } f
    if f.dataLen = 0 then (c, [])
    else if f.seq = c.rcvNxt then
      let r := tcpSendSegment net (takePayload c f) flagAck []
      (r.conn, bridgePush c f ++ r.events)
    else
      let r := tcpSendSegment net c flagAck []
      (r.conn, r.events)
  else (c, [])

def sendFin (next : TcpState) : TcpConn α × List (Event α) :=
  let r := tcpSendSegment net c (flagFin ||| flagAck) []
  ({ r.conn with sndNxt := r.conn.sndNxt + 1, state := next }, r.events)

def sotnetTcpClose : Outcome α :=
  match c.state with
  | .established => ((sendFin net c .finWait1).1, (sendFin net c .finWait1).2)
  | .closeWait => ((sendFin net c .lastAck).1, (sendFin net c .lastAck).2)
  | _ => (none, [])

def takeFin (next : TcpState) : TcpConn α × List (Event α) :=
  let r := tcpSendSegment net { c with rcvNxt := c.rcvNxt + 1 } flagAck []
  ({ r.conn with state := next }, r.events)

def tcpCloseOnFin : TcpConn α × List (Event α) :=
  if f.hasHeaders = false then (c, [])
  else if f.finSeq ≠ c.rcvNxt then (c, [])
  else match c.state with
    | .established => takeFin net c .closeWait
    | .finWait1 => takeFin net c .closing
    | .finWait2 =>
      let r := takeFin net c .timeWait
      ({ r.1 with timeWaitTick := net.now }, r.2)
    | _ => (c, [])

/-- `tcp_close_on_finack`: the acknowledgment number is not looked at. -/
def tcpCloseOnFinack : Option (TcpConn α) :=
  match c.state with
  | .finWait1 => some { c with state := .finWait2 }
  | .closing => some { c with state := .timeWait, timeWaitTick := net.now }
  | .lastAck => none
  | _ => some c

variable (connId : UInt16)

def synRcvdConn (listenSlot : Slot) (f : Frame) (isn : UInt32) : TcpConn α :=
  { TcpConn.blank with
    connId := connId
    state := .synRcvd
    remoteIp := f.src
    remotePort := f.srcPort
    localPort := f.dstPort
    listenSlot := some listenSlot
    sndNxt := isn
    sndUna := isn
    rcvNxt := f.seq + 1
    peerWscale := sotfpParseWscale f.options }

def tcpServerOnAck : TcpConn α × List (Event α) :=
  if f.ack ≠ c.sndNxt + 1 then (c, [])
  else
    ({ c with sndUna := c.sndNxt + 1, sndNxt := c.sndNxt + 1, state := .established },
      if bswap16 c.localPort = 22 then [.push c.connId 22 []] else [])

def ephemeralPortBase : ℕ := 49152
abbrev ephemeralPortRange : ℕ := 16384

scoped instance : NeZero ephemeralPortRange := ⟨by decide⟩

def synSentConn (dstIp : UInt32) (dstPort : UInt16) (pid : UInt32)
    (port : Fin ephemeralPortRange) (isn : UInt32) : TcpConn α :=
  { TcpConn.blank with
    originPid := pid
    state := .synSent
    remoteIp := dstIp
    remotePort := dstPort
    localPort := bswap16 (UInt16.ofNat (ephemeralPortBase + port.val))
    sndNxt := isn
    sndUna := isn }

def tcpClientOnSynack : Outcome α :=
  if f.ack ≠ c.sndNxt + 1 then (some c, [])
  else
    let r := tcpSendSegment net
      { c with
        rcvNxt := f.seq + 1
        sndUna := c.sndNxt + 1
        sndNxt := c.sndNxt + 1
        state := .established
        peerWscale :=
          if 20 < f.dataOff ∧ 14 + f.ihl + f.dataOff ≤ f.len then sotfpParseWscale f.options
          else c.peerWscale }
      flagAck []
    (if r.ok then some r.conn else none, r.events)

def dispatch : Outcome α :=
  if has f.flags flagRst then (none, [])
  else match c.state with
    | .synRcvd =>
      if has f.flags flagAck then
        ((tcpServerOnAck c f).1, (tcpServerOnAck c f).2)
      else (some c, [])
    | .synSent =>
      if has f.flags flagSyn && has f.flags flagAck then tcpClientOnSynack net c f
      else (some c, [])
    | .established =>
      let r := tcpDataOnSegment net c f
      if has f.flags flagFin then
        let r' := tcpCloseOnFin net r.1 f
        (some r'.1, r.2 ++ r'.2)
      else (some r.1, r.2)
    | .finWait1 | .finWait2 | .closing | .lastAck =>
      if has f.flags flagFin then
        ((tcpCloseOnFin net c f).1, (tcpCloseOnFin net c f).2)
      else if has f.flags flagAck then (tcpCloseOnFinack net c, [])
      else (some c, [])
    | _ => (some c, [])

def retxTicks : ℕ := 1000
def timeWaitTicks : ℕ := 4000
def retxMax : ℕ := 8
def idleTicks : ℕ := 30000
def closeWaitTicks : ℕ := 2000
def tscPerTick : ℕ := 2400000

def elapsed (now since : UInt32) (ticks : ℕ) : Bool := decide (ticks < (now - since).toNat)

def resetConn : Outcome α :=
  (none, (tcpSendSegment net c flagRst []).events)

def TcpConn.retxDue (now : UInt32) : Bool :=
  -- The timer would resend the cached segment, or give the peer up.
  decide (c.sndUna < c.sndNxt) && elapsed now c.lastTxMs retxTicks

def tickConn (shielded : Bool) (c : TcpConn α) : Outcome α :=
  match c.state with
  | .synSent | .synRcvd | .established =>
    if c.retxDue net.now then
      if retxMax ≤ c.retxCount then resetConn net c
      else
        let r := tcpSendSegment net { c with retxCount := c.retxCount + 1 } c.txFlags
          c.txBuf.toList
        (some r.conn, r.events)
    else if c.state = .established ∧ c.sndUna = c.sndNxt ∧
        elapsed net.now c.lastTxMs idleTicks ∧ shielded = false then resetConn net c
    else (some c, [])
  | .closeWait =>
    if elapsed net.now c.lastTxMs closeWaitTicks && !shielded then sotnetTcpClose net c
    else (some c, [])
  | .finWait1 | .finWait2 | .closing | .lastAck =>
    if elapsed net.now c.lastTxMs idleTicks then (none, []) else (some c, [])
  | .timeWait =>
    if elapsed net.now c.timeWaitTick timeWaitTicks then (none, []) else (some c, [])
  | _ => (some c, [])

structure Tcp (α : Type) where
  conns : Conns α
  now : UInt32
  lastTickTsc : UInt64
  connIdNext : UInt16
  shellConn : UInt16

def Tcp.init : Tcp α := ⟨fun _ => none, 0, 0, 1, 0⟩

/-- `tcp_conn_protected`, as the orchestrator overrides it. -/
def Tcp.protected (s : Tcp α) (connId : UInt16) : Bool := connId != 0 && connId == s.shellConn

def Tcp.set (s : Tcp α) (i : Slot) (c : Option (TcpConn α)) : Tcp α :=
  { s with conns := Function.update s.conns i c }

structure Reply (α : Type) where
  events : List (Slot × Event α)
  resets : List (Segment α)
  ret : ℤ
  data : List UInt8

def Reply.code (ret : ℤ) : Reply α := ⟨[], [], ret, []⟩

variable (i : Slot)

def Reply.of (events : List (Event α)) (ret : ℤ) : Reply α :=
  ⟨events.map (Prod.mk i), [], ret, []⟩

def bumpConnId : UInt16 := if connId + 1 = 0 then 1 else connId + 1

def tcpServerOnSyn (s : Tcp α) (net : Net) (f : Frame) (isn : UInt32) : Tcp α × Reply α :=
  match tcpConnFindListen s.conns f.dstPort, tcpConnAlloc s.conns with
  | some l, some i =>
    let r := tcpSendSegment net (synRcvdConn s.connIdNext l f isn) (sotfpSynackFlags f.flags) []
    ({ s.set i (some r.conn) with connIdNext := bumpConnId s.connIdNext }, .of i r.events 0)
  | _, _ => (s, .code 0)

def tcpHandlePacket (ourIp : UInt32) (s : Tcp α) (net : Net) (f : Frame) (isn : UInt32) :
    Tcp α × Reply α :=
  if f.hasHeaders && f.proto == 6 && f.dst == ourIp then
    match tcpConnLookup s.conns f.src f.srcPort f.dstPort with
    | some i =>
      match s.conns i with
      | some c => (s.set i (dispatch net c f).1, .of i (dispatch net c f).2 0)
      | none => (s, .code 0)
    | none =>
      match sotfpUnsolicitedAction f.flags (tcpConnFindListen s.conns f.dstPort).isSome with
      | .synAccept => tcpServerOnSyn s net f isn
      | .rst => (s, ⟨[], sendRst f, 0, []⟩)
      | .drop => (s, .code 0)
  else (s, .code 0)

def sendOn (s : Tcp α) (net : Net) (i : Slot) (buf : List α) : Tcp α × Reply α :=
  match s.conns i with
  | none => (s, .code (-1))
  | some c =>
    let r := tcpSendData net c buf
    (s.set i (some r.1), .of i r.2.1 r.2.2)

/-- The segmentation loop of the `in_p2c` drain: `tcp_send_data` until the frame is out or a call
takes nothing. Each round takes a byte. -/
def replyLoop (net : Net) : (fuel : ℕ) → TcpConn α → List α → TcpConn α × List (Event α) × ℕ
  | 0, c, _ => (c, [], 0)
  | fuel + 1, c, data =>
    if data.isEmpty then (c, [], 0)
    else
      let r := tcpSendData net c data
      if r.2.2 ≤ 0 then (r.1, r.2.1, 0)
      else
        let r' := replyLoop net fuel r.1 (data.drop r.2.2.toNat)
        (r'.1, r.2.1 ++ r'.2.1, r.2.2.toNat + r'.2.2)

def replyTo (s : Tcp α) (net : Net) (connId : UInt16) (data : List α) : Tcp α × Reply α :=
  match tcpConnById s.conns connId with
  | none => (s, .code 0)
  | some i =>
    match s.conns i with
    | none => (s, .code 0)
    | some c =>
      let r := replyLoop net data.length c data
      (s.set i (some r.1), .of i r.2.1 r.2.2)

def eagain : ℤ := 11
def efault : ℤ := 14

/-- `lucas_tcp_recv` once it stops polling: hand bytes over, close the gap, re-advertise. -/
def tcpRecv (count : ℕ) (copied : Bool) :
    TcpConn α × List (Event α) × ℤ × List UInt8 :=
  let held := c.rxBuf.toList
  if held.length = 0 then (c, [], if c.state = .established then -eagain else 0, [])
  else
    let n := min count held.length
    if copied = false then (c, [], -efault, [])
    else
      let c := { c with rxBuf := c.rxBuf.consume n }
      if 0 < n ∧ c.state = .established then
        let r := tcpSendSegment net c flagAck []
        (r.conn, r.events, n, held.take n)
      else (c, [], n, held.take n)

def recvOn (s : Tcp α) (net : Net) (i : Slot) (count : ℕ) (copied : Bool) : Tcp α × Reply α :=
  match s.conns i with
  | none => (s, .code 0)
  | some c =>
    let r := tcpRecv net c count copied
    (s.set i (some r.1), ⟨r.2.1.map (Prod.mk i), [], r.2.2.1, r.2.2.2⟩)

def closeOn (s : Tcp α) (net : Net) (i : Slot) : Tcp α × Reply α :=
  match s.conns i with
  | none => (s, .code 0)
  | some c => (s.set i (sotnetTcpClose net c).1, .of i (sotnetTcpClose net c).2 0)

def tcpActiveOpen (s : Tcp α) (net : Net) (dstIp : UInt32) (dstPort : UInt16) (pid : UInt32)
    (port : Fin ephemeralPortRange) (isn : UInt32) : Tcp α × Reply α :=
  match tcpConnAlloc s.conns with
  | none => (s, .code (-1))
  | some i =>
    let r := tcpSendSegment net (synSentConn dstIp dstPort pid port isn) flagSyn []
    if r.ok then (s.set i (some r.conn), .of i r.events i.val) else (s, .of i r.events (-1))

def tcpPassiveOpen (s : Tcp α) (localPort : UInt16) : Tcp α × Reply α :=
  match tcpConnFindListen s.conns localPort, tcpConnAlloc s.conns with
  | none, some i =>
    (s.set i (some { TcpConn.blank with state := .listen, localPort := localPort }), .code i.val)
  | _, _ => (s, .code (-1))

def acceptReady (conns : Conns α) (localPort : UInt16) : Option Slot :=
  Slots.first fun i => (conns i).any fun c =>
    c.state == .established && c.listenSlot.isSome && c.localPort == localPort

inductive AcceptEnd
  | noFd
  | copyFault
  | bound
  deriving DecidableEq, Repr

def doAccept (s : Tcp α) (net : Net) (localPort : UInt16) (fate : AcceptEnd) : Tcp α × Reply α :=
  match acceptReady s.conns localPort with
  | none => (s, .code (-eagain))
  | some i =>
    match s.conns i with
    | none => (s, .code (-eagain))
    | some c =>
      let c := { c with listenSlot := none }
      match fate with
      | .noFd => (s.set i (some c), .code (-1))
      | .copyFault => (s.set i (sotnetTcpClose net c).1, .of i (sotnetTcpClose net c).2 (-efault))
      | .bound => (s.set i (some { c with appOwned := true }), .code i.val)

/-- The throttle that opens `tcp_timer_tick`: the new stamp, and whether the tick counts. -/
def tickGate (lastTickTsc tsc : UInt64) : UInt64 × Bool :=
  if tsc = 0 then (lastTickTsc, true)
  else
    let last := if lastTickTsc = 0 then tsc else lastTickTsc
    if (tsc - last).toNat < tscPerTick then (last, false) else (tsc, true)

def tickSlot (s : Tcp α) (net : Net) (i : Slot) : Outcome α :=
  match s.conns i with
  | none => (none, [])
  | some c => tickConn net (s.protected c.connId) c

def tcpTimerTick (s : Tcp α) (driver : Bool) (tsc : UInt64) : Tcp α × Reply α :=
  let gate := tickGate s.lastTickTsc tsc
  if gate.2 then
    let net : Net := ⟨s.now + 1, driver⟩
    ({ s with
        conns := fun i => (tickSlot s net i).1
        now := s.now + 1
        lastTickTsc := gate.1 },
      ⟨(List.finRange tcpConnMax).flatMap fun i => (tickSlot s net i).2.map (Prod.mk i), [], 0, []⟩)
  else ({ s with lastTickTsc := gate.1 }, .code 0)

inductive Op (α : Type)
  | packet (f : Frame) (isn : UInt32)
  | send (i : Slot) (buf : List α)
  | reply (connId : UInt16) (data : List α)
  | recv (i : Slot) (count : ℕ) (copied : Bool)
  | close (i : Slot)
  | activeOpen (dstIp : UInt32) (dstPort : UInt16) (pid : UInt32)
      (port : Fin ephemeralPortRange) (isn : UInt32)
  | passiveOpen (localPort : UInt16)
  | accept (localPort : UInt16) (fate : AcceptEnd)
  | tick (tsc : UInt64)
  | shell (connId : UInt16)

structure Call (α : Type) where
  op : Op α
  driver : Bool

def tcpStep (ourIp : UInt32) (s : Tcp α) (call : Call α) : Tcp α × Reply α :=
  let net : Net := ⟨s.now, call.driver⟩
  match call.op with
  | .packet f isn => tcpHandlePacket ourIp s net f isn
  | .send i buf => sendOn s net i buf
  | .reply connId data => replyTo s net connId data
  | .recv i count copied => recvOn s net i count copied
  | .close i => closeOn s net i
  | .activeOpen dstIp dstPort pid port isn => tcpActiveOpen s net dstIp dstPort pid port isn
  | .passiveOpen localPort => tcpPassiveOpen s localPort
  | .accept localPort fate => doAccept s net localPort fate
  | .tick tsc => tcpTimerTick s call.driver tsc
  | .shell connId => ({ s with shellConn := connId }, .code 0)

end SotOs.Sotnet
