import Mathlib

/-! Inbound frames as the TCP code reads them, the segments it sends, and the pure helpers of
`tcp_fp.c`. -/

namespace SotOs.Sotnet

def flagFin : UInt8 := 0x01
def flagSyn : UInt8 := 0x02
def flagRst : UInt8 := 0x04
def flagPsh : UInt8 := 0x08
def flagAck : UInt8 := 0x10
def flagEce : UInt8 := 0x40
def flagCwr : UInt8 := 0x80

def has (flags bit : UInt8) : Bool := flags &&& bit != 0

def bswap16 (v : UInt16) : UInt16 := (v <<< 8) ||| (v >>> 8)

/-- `rest` are the bytes behind the fixed TCP header; `rest_length` keeps reads inside the capture.
-/
structure Frame where
  len : ℕ
  ihlWords : Fin 16
  totalLen : UInt16
  proto : UInt8
  src : UInt32
  dst : UInt32
  srcPort : UInt16
  dstPort : UInt16
  seq : UInt32
  ack : UInt32
  dataOffWords : Fin 16
  flags : UInt8
  window : UInt16
  rest : List UInt8
  rest_length : rest.length = len - (14 + ihlWords.val * 4 + 20)

namespace Frame

variable (f : Frame)

def ihl : ℕ := f.ihlWords.val * 4

def dataOff : ℕ := f.dataOffWords.val * 4

def hasHeaders : Bool :=
  decide (14 + 20 + 20 ≤ f.len) && decide (20 ≤ f.ihl) && decide (14 + f.ihl + 20 ≤ f.len)

def hasPayloadBounds : Bool :=
  f.hasHeaders && decide (20 ≤ f.dataOff) && decide (14 + f.ihl + f.dataOff ≤ f.len) &&
    decide (f.ihl + f.dataOff ≤ f.totalLen.toNat) && decide (14 + f.totalLen.toNat ≤ f.len)

def dataLen : ℕ := f.totalLen.toNat - f.ihl - f.dataOff

def payload : List UInt8 := (f.rest.drop (f.dataOff - 20)).take f.dataLen

/-- The number `tcp_close_on_fin` computes for the FIN, with the wrap of its own subtraction. -/
def finSeq : UInt32 :=
  f.seq + (UInt32.ofNat f.totalLen.toNat - UInt32.ofNat f.ihl - UInt32.ofNat f.dataOff)

def options : List UInt8 :=
  if 20 < f.dataOff ∧ 14 + f.ihl + f.dataOff ≤ f.len then f.rest.take (f.dataOff - 20) else []

def bare (src dst : UInt32) (srcPort dstPort : UInt16) (seq ack : UInt32) (flags : UInt8) :
    Frame where
  len := 54
  ihlWords := 5
  totalLen := 40
  proto := 6
  src := src
  dst := dst
  srcPort := srcPort
  dstPort := dstPort
  seq := seq
  ack := ack
  dataOffWords := 5
  flags := flags
  window := 64240
  rest := []
  rest_length := rfl

end Frame

/-- `sotfp_parse_wscale`: `0` where the option is absent or malformed. Each round takes a byte. -/
def parseWscaleLoop : (fuel : ℕ) → List UInt8 → UInt8
  | 0, _ => 0
  | _ + 1, [] => 0
  | fuel + 1, kind :: rest =>
    if kind = 0 then 0
    else if kind = 1 then parseWscaleLoop fuel rest
    else match rest with
      | [] => 0
      | olen :: body =>
        if olen < 2 ∨ rest.length + 1 < olen.toNat then 0
        else if kind = 3 ∧ olen = 3 then
          match body with
          | [] => 0
          | ws :: _ => if 14 < ws then 14 else ws
        else parseWscaleLoop fuel ((kind :: rest).drop olen.toNat)

def sotfpParseWscale (opts : List UInt8) : UInt8 := parseWscaleLoop opts.length opts

def linuxSynackOpts : List UInt8 :=
  [0x02, 0x04, 0x05, 0xb4, 0x01, 0x01, 0x04, 0x02, 0x01, 0x03, 0x03, 0x0a]

def linuxSynackWindow : ℕ := 64240

def sotfpSynackFlags (synFlags : UInt8) : UInt8 :=
  if has synFlags flagEce && has synFlags flagCwr then flagSyn ||| flagAck ||| flagEce
  else flagSyn ||| flagAck

inductive Unsolicited
  | synAccept
  | rst
  | drop
  deriving DecidableEq, Repr

def sotfpUnsolicitedAction (flags : UInt8) (hasListener : Bool) : Unsolicited :=
  if has flags flagRst then .drop
  else if has flags flagSyn && !has flags flagAck then
    if hasListener then .synAccept else .rst
  else if !has flags flagAck then
    if hasListener then .drop else .rst
  else .rst

structure Segment (α : Type) where
  dstIp : UInt32
  srcPort : UInt16
  dstPort : UInt16
  seq : UInt32
  ack : UInt32
  flags : UInt8
  window : ℕ
  options : List UInt8
  payload : List α
  deriving DecidableEq, Repr

def sotfpRstFields (flags : UInt8) (seq ack segLen : UInt32) : UInt32 × UInt32 × UInt8 :=
  if has flags flagAck then (ack, 0, flagRst) else (0, seq + segLen, flagRst ||| flagAck)

def sendRst {α : Type} (f : Frame) : List (Segment α) :=
  if f.hasHeaders then
    let payload := f.len - (14 + f.ihl + f.dataOff)
    let segLen := UInt32.ofNat payload + (if has f.flags flagSyn then 1 else 0) +
      (if has f.flags flagFin then 1 else 0)
    let fields := sotfpRstFields f.flags f.seq f.ack segLen
    [⟨f.src, f.dstPort, f.srcPort, fields.1, fields.2.1, fields.2.2, 0, [], []⟩]
  else []

end SotOs.Sotnet
