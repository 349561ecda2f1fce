import SotOs.Lib.BoundedList
import SotOs.Lib.Slots
import SotOs.Sotnet.Frame

/-! The connection table of `tcp_conn.h`, over any type of outgoing bytes, and the one function
every segment leaves through. A slot whose `in_use` is clear is `none` here. -/

namespace SotOs.Sotnet

open Slots

abbrev tcpConnMax : ℕ := 32
def txBufSize : ℕ := 256
def rxBufSize : ℕ := 16384

inductive TcpState
  | closed
  | listen
  | synSent
  | synRcvd
  | established
  | finWait1
  | finWait2
  | closeWait
  | closing
  | lastAck
  | timeWait
  deriving DecidableEq, Repr

abbrev Slot := Fin tcpConnMax

scoped instance : NeZero tcpConnMax := ⟨by decide⟩

/-- `struct tcp_conn`; a buffer with its fill count is a list that carries the buffer's size. -/
structure TcpConn (α : Type) where
  connId : UInt16
  state : TcpState
  remoteIp : UInt32
  remotePort : UInt16
  localPort : UInt16
  sndNxt : UInt32
  sndUna : UInt32
  rcvNxt : UInt32
  peerWscale : UInt8
  sndWnd : UInt32
  lastTxMs : UInt32
  timeWaitTick : UInt32
  txBuf : BoundedList txBufSize α
  txFlags : UInt8
  retxCount : ℕ
  rxBuf : BoundedList rxBufSize UInt8
  listenSlot : Option Slot
  appOwned : Bool
  originPid : UInt32
  deriving DecidableEq

variable {α : Type}

def TcpConn.blank : TcpConn α where
  connId := 0
  state := .closed
  remoteIp := 0
  remotePort := 0
  localPort := 0
  sndNxt := 0
  sndUna := 0
  rcvNxt := 0
  peerWscale := 0
  sndWnd := 0
  lastTxMs := 0
  timeWaitTick := 0
  txBuf := .empty
  txFlags := 0
  retxCount := 0
  rxBuf := .empty
  listenSlot := none
  appOwned := false
  originPid := 0

abbrev Conns (α : Type) := Slot → Option (TcpConn α)

variable (conns : Conns α) (c : TcpConn α) (flags : UInt8) (localPort : UInt16)

def tcpConnAlloc : Option Slot := first fun i => (conns i).isNone

def TcpConn.matches (ip : UInt32) (remotePort localPort : UInt16) : Bool :=
  c.state != .listen && c.remoteIp == ip && c.remotePort == remotePort && c.localPort == localPort

def tcpConnLookup (ip : UInt32) (remotePort localPort : UInt16) : Option Slot :=
  first fun i => (conns i).any fun c => c.matches ip remotePort localPort

def tcpConnFindListen : Option Slot :=
  first fun i => (conns i).any fun c => c.state == .listen && c.localPort == localPort

def tcpConnById (connId : UInt16) : Option Slot :=
  if connId = 0 then none else first fun i => (conns i).any fun c => c.connId == connId

def TcpConn.rxFree : ℕ := rxBufSize - c.rxBuf.toList.length

structure Net where
  now : UInt32
  driver : Bool

/-- A call of `tcp_send_segment`: its connection, its segment, and whether the frame went out. -/
structure Sent (α : Type) where
  conn : TcpConn α
  seg : Segment α
  taken : Bool
  deriving DecidableEq

def optLen : ℕ := if has flags flagSyn then linuxSynackOpts.length else 0

def segmentWindow : ℕ :=
  if has flags flagSyn then linuxSynackWindow else min c.rxFree 0xFFFF

def buildSegment (data : List α) : Segment α where
  dstIp := c.remoteIp
  srcPort := c.localPort
  dstPort := c.remotePort
  seq := c.sndNxt
  ack := c.rcvNxt
  flags := flags
  window := segmentWindow c flags
  options := if has flags flagSyn then linuxSynackOpts else []
  payload := data

def cacheSegment (net : Net) (c : TcpConn α) (flags : UInt8) (data : List α)
    (h : data.length ≤ txBufSize) : TcpConn α :=
  { c with
    txBuf := if data = [] then c.txBuf else .ofList data h
    txFlags := flags
    lastTxMs := if data ≠ [] ∨ has flags (flagSyn ||| flagFin) then net.now else c.lastTxMs }

structure SendResult (α : Type) where
  conn : TcpConn α
  sent : List (Sent α)
  ok : Bool

def tcpSendSegment (net : Net) (c : TcpConn α) (flags : UInt8) (data : List α) : SendResult α :=
  if h : optLen flags + data.length ≤ txBufSize then
    ⟨cacheSegment net c flags data (by omega), [⟨c, buildSegment c flags data, net.driver⟩],
      net.driver⟩
  else ⟨c, [], false⟩

end SotOs.Sotnet
