import SotOs.Lib.SeqNum
import SotOs.Sotnet.CloseHandshake

/-! The receive side: what a reader has been handed, followed by what waits in the buffer, is the
beginning of the peer's stream, and `rcv_nxt` is the number of its end. -/

namespace SotOs.Sotnet
open SeqNum Machine List Option
variable {α : Type} {ourIp : UInt32} {f : Frame} {o : ℕ}

def TcpState.synced : TcpState → Bool
  | .established | .finWait1 | .finWait2 | .closeWait | .closing | .lastAck | .timeWait => true
  | _ => false

def TcpState.finTaken : TcpState → Bool
  | .closeWait | .closing | .lastAck | .timeWait => true
  | _ => false

/-- A segment cut from the stream at offset `o`; a FIN stands at the end of the stream. -/
structure CutAt (stream : List UInt8) (r : UInt32) (f : Frame) (o : ℕ) : Prop where
  bounds : f.hasPayloadBounds = true
  seq : f.seq = num r o
  inside : o + f.dataLen ≤ stream.length
  payload : f.payload = (stream.drop o).take f.dataLen
  fin : has f.flags flagFin = true → o + f.dataLen = stream.length

structure Received (stream : List UInt8) (r : UInt32) (handed : List UInt8) (c : TcpConn α) :
    Prop where
  synced : c.state.synced = true
  buffered : c.bridged = false
  bytes : handed ++ c.rxBuf.toList <+: stream
  rcvNxt : c.rcvNxt = num r ((handed ++ c.rxBuf.toList).length +
    if c.state.finTaken then 1 else 0)
  fin : c.state.finTaken = true → handed ++ c.rxBuf.toList = stream

structure Reading (α : Type) where
  tcp : Tcp α
  handed : List UInt8
  gone : Bool

def handedOver (i : Slot) (call : Call α) (r : Reply α) : List UInt8 :=
  match call.op with
  | .recv j _ _ => if j = i then r.data else []
  | _ => []

def readStep (ourIp : UInt32) (i : Slot) (s : Reading α) (call : Call α) : Reading α × Reply α :=
  let r := tcpStep ourIp s.tcp call
  (⟨r.1, s.handed ++ handedOver i call r.2, s.gone || (r.1.conns i).isNone⟩, r.2)

/-- What arrives for slot `i` is cut from the stream, less than `2 ^ 32` bytes away from what has
been received. -/
def FromStream (ourIp : UInt32) (i : Slot) (stream : List UInt8) (r : UInt32)
    (e : Entry (Reading α) (Call α) (Reply α)) : Prop :=
  ∀ f isn c, e.input.op = .packet f isn → Receives ourIp e.pre.tcp i f →
    e.pre.tcp.conns i = some c → ∃ o, CutAt stream r f o ∧
      (e.pre.handed ++ c.rxBuf.toList).length < o + 2 ^ 32 ∧
      o + f.dataLen < (e.pre.handed ++ c.rxBuf.toList).length + 2 ^ 32

theorem CutAt.finSeq {stream : List UInt8} {r : UInt32} (h : CutAt stream r f o) :
    f.finSeq = num r (o + f.dataLen) := by
  have hbounds := h.bounds
  simp only [Frame.hasPayloadBounds, Bool.and_eq_true, decide_eq_true_eq] at hbounds
  have hlen : f.totalLen.toNat = f.dataLen + f.dataOff + f.ihl := by
    unfold Frame.dataLen
    omega
  rw [Frame.finSeq, h.seq, hlen, UInt32.ofNat_add, UInt32.ofNat_add, add_sub_cancel_right,
    add_sub_cancel_right, num_add]

structure RxSame (c c' : TcpConn α) : Prop where
  rcvNxt : c'.rcvNxt = c.rcvNxt
  rxBuf : c'.rxBuf = c.rxBuf
  localPort : c'.localPort = c.localPort
  state : c.state.synced = true → c'.state.synced = true ∧ c'.state.finTaken = c.state.finTaken

section
variable {stream handed : List UInt8} {r : UInt32} {c c' : TcpConn α} {net : Net}

theorem RxSame.refl (c : TcpConn α) : RxSame c c := ⟨rfl, rfl, rfl, fun h => ⟨h, rfl⟩⟩

theorem RxSame.trans {c'' : TcpConn α} (h : RxSame c c') (h' : RxSame c' c'') : RxSame c c'' := by
  refine ⟨h'.rcvNxt.trans h.rcvNxt, h'.rxBuf.trans h.rxBuf, h'.localPort.trans h.localPort, ?_⟩
  intro hs
  obtain ⟨hs', hfin⟩ := h.state hs
  obtain ⟨hs'', hfin'⟩ := h'.state hs'
  exact ⟨hs'', hfin'.trans hfin⟩

theorem Received.of_same (h : Received stream r handed c) (hsame : RxSame c c') :
    Received stream r handed c' := by
  obtain ⟨hs, hfin⟩ := hsame.state h.synced
  have hbridged : c'.bridged = c.bridged := by simp only [TcpConn.bridged, hsame.localPort]
  refine ⟨hs, hbridged.trans h.buffered, ?_, ?_, ?_⟩
  · rw [hsame.rxBuf]
    exact h.bytes
  · rw [hsame.rxBuf, hsame.rcvNxt, hfin]
    exact h.rcvNxt
  · rw [hsame.rxBuf, hfin]
    exact h.fin

theorem sendSegment_rx (net : Net) (c : TcpConn α) (flags : UInt8) (data : List α) :
    RxSame c (tcpSendSegment net c flags data).conn :=
  ⟨by simp, by simp, by simp, by simp +contextual⟩

theorem sendData_rx (net : Net) (c : TcpConn α) (buf : List α) :
    RxSame c (tcpSendData net c buf).1 := by
  have hsent := sendSegment_rx net c (flagAck ||| flagPsh) (buf.take txBufSize)
  simp only [tcpSendData]
  split
  · exact .refl c
  · split
    · exact .refl c
    · split
      · exact { hsent with }
      · exact hsent

theorem replyLoop_rx (net : Net) (fuel : ℕ) (c : TcpConn α) (data : List α) :
    RxSame c (replyLoop net fuel c data).1 := by
  induction fuel generalizing c data with
  | zero => exact .refl c
  | succ fuel ih =>
    simp only [replyLoop]
    split
    · exact .refl c
    · split
      · exact sendData_rx net c data
      · exact (sendData_rx net c data).trans (ih _ _)

theorem sendFin_rx {next : TcpState}
    (hnext : c.state = .established ∧ next = .finWait1 ∨ c.state = .closeWait ∧ next = .lastAck) :
    RxSame c (sendFin net c next).1 := by
  have hsent := sendSegment_rx net c (flagFin ||| flagAck) []
  refine ⟨hsent.rcvNxt, hsent.rxBuf, hsent.localPort, fun _ => ?_⟩
  rcases hnext with ⟨hstate, rfl⟩ | ⟨hstate, rfl⟩ <;> rw [hstate] <;> exact ⟨rfl, rfl⟩

theorem close_rx (h : (sotnetTcpClose net c).1 = some c') : RxSame c c' := by
  have hcases := close_cases net c
  generalize sotnetTcpClose net c = out at h hcases
  cases hcases with
  | fin hnext =>
    obtain ⟨⟩ := h
    exact sendFin_rx hnext
  | freed => cases h

theorem tickConn_rx {shielded : Bool} (h : (tickConn net shielded c).1 = some c') :
    RxSame c c' := by
  have hcases := tickConn_cases net shielded c
  generalize tickConn net shielded c = out at h hcases
  cases hcases with
  | kept =>
    obtain ⟨⟩ := h
    exact .refl c
  | resend =>
    obtain ⟨⟩ := h
    have hcount : RxSame c { c with retxCount := c.retxCount + 1 } :=
      ⟨rfl, rfl, rfl, fun h => ⟨h, rfl⟩⟩
    exact hcount.trans (sendSegment_rx _ _ _ _)
  | reset => cases h
  | finish hstate =>
    obtain ⟨⟩ := h
    exact sendFin_rx (.inr ⟨hstate, rfl⟩)
  | expired => cases h

theorem takeAck_rx : RxSame c (takeAck c f) := by
  unfold takeAck
  split_ifs <;> exact ⟨rfl, rfl, rfl, fun h => ⟨h, rfl⟩⟩

theorem windowAck_rx (c : TcpConn α) (wnd : UInt32) (f : Frame) :
    RxSame c (takeAck { c with sndWnd := wnd } f) := by
  have hwnd : RxSame c { c with sndWnd := wnd } := ⟨rfl, rfl, rfl, fun h => ⟨h, rfl⟩⟩
  exact hwnd.trans takeAck_rx

theorem finTaken_of_established (h : c.state = .established) : c.state.finTaken = false := by
  rw [h]
  rfl

theorem continue_bytes {l : List UInt8} (h : l <+: stream) {k : ℕ} :
    l ++ (stream.drop l.length).take k <+: stream := by
  obtain ⟨t, rfl⟩ := h
  rw [drop_left, prefix_append_right_inj]
  exact take_prefix k t

theorem takePayload_received (h : Received stream r handed c) (hstate : c.state = .established)
    (hcut : CutAt stream r f o) (hseq : f.seq = c.rcvNxt)
    (hlow : (handed ++ c.rxBuf.toList).length < o + 2 ^ 32)
    (hhigh : o < (handed ++ c.rxBuf.toList).length + 2 ^ 32) :
    Received stream r handed (takePayload c f) := by
  have hplace : o = (handed ++ c.rxBuf.toList).length := by
    have hnum := hcut.seq.symm.trans (hseq.trans h.rcvNxt)
    rw [finTaken_of_established hstate] at hnum
    exact num_inj hnum hhigh hlow
  have hbuf : takePayload c f = { c with
      rxBuf := c.rxBuf.fill f.payload
      rcvNxt := f.seq + UInt32.ofNat (min f.dataLen c.rxFree) } := by
    rw [takePayload, h.buffered, Bool.false_and, if_neg Bool.false_ne_true]
  have hbytes : handed ++ (c.rxBuf.fill f.payload).toList = (handed ++ c.rxBuf.toList) ++
        (stream.drop (handed ++ c.rxBuf.toList).length).take (min c.rxFree f.dataLen) := by
    rw [BoundedList.toList_fill, hcut.payload, take_take, hplace, append_assoc]
    rfl
  have hlen : (handed ++ (c.rxBuf.fill f.payload).toList).length =
      (handed ++ c.rxBuf.toList).length + min f.dataLen c.rxFree := by
    have hinside := hcut.inside
    rw [hbytes, length_append, length_take, length_drop]
    omega
  rw [hbuf]
  refine ⟨h.synced, h.buffered, ?_, ?_, ?_⟩
  · rw [hbytes]
    exact continue_bytes h.bytes
  · simp only [finTaken_of_established hstate, Bool.false_eq_true, if_false, Nat.add_zero]
    rw [hlen, ← num_add, ← hplace, hcut.seq]
  · intro hfin
    simp [finTaken_of_established hstate] at hfin

theorem takePayload_grows (c : TcpConn α) (f : Frame) :
    c.rxBuf.toList.length ≤ (takePayload c f).rxBuf.toList.length := by
  unfold takePayload
  split_ifs <;> simp

theorem onSegment_received (h : Received stream r handed c) (hstate : c.state = .established)
    (hcut : CutAt stream r f o) (hlow : (handed ++ c.rxBuf.toList).length < o + 2 ^ 32)
    (hhigh : o + f.dataLen < (handed ++ c.rxBuf.toList).length + 2 ^ 32) :
    Received stream r handed (tcpDataOnSegment net c f).1 ∧
      c.rxBuf.toList.length ≤ (tcpDataOnSegment net c f).1.rxBuf.toList.length := by
  have hcases := onSegment_cases net c f
  generalize tcpDataOnSegment net c f = out at hcases
  cases hcases with
  | malformed hbounds => simp [hcut.bounds] at hbounds
  | bare wnd =>
    have hsame := windowAck_rx c wnd f
    exact ⟨h.of_same hsame, by rw [hsame.rxBuf]⟩
  | inOrder wnd _ _ hseq =>
    have hsame := windowAck_rx c wnd f
    have hstate' : (takeAck { c with sndWnd := wnd } f).state = .established := by
      rw [takeAck_state]
      exact hstate
    have htaken := takePayload_received (h.of_same hsame) hstate' hcut
      (hseq.trans hsame.rcvNxt.symm) (by rw [hsame.rxBuf]; exact hlow)
      (by rw [hsame.rxBuf]; omega)
    have hgrows := takePayload_grows (takeAck { c with sndWnd := wnd } f) f
    rw [hsame.rxBuf] at hgrows
    exact ⟨htaken.of_same (sendSegment_rx _ _ _ _), by simpa using hgrows⟩
  | outOfOrder wnd =>
    have hsame := (windowAck_rx c wnd f).trans
      (sendSegment_rx net (takeAck { c with sndWnd := wnd } f) flagAck [])
    exact ⟨h.of_same hsame, by rw [hsame.rxBuf]⟩

theorem onFin_received (h : Received stream r handed c) (hcut : CutAt stream r f o)
    (hfin : has f.flags flagFin = true)
    (hhigh : o + f.dataLen < (handed ++ c.rxBuf.toList).length + 2 ^ 32) :
    Received stream r handed (tcpCloseOnFin net c f).1 := by
  have hcases := onFin_cases net c f
  generalize tcpCloseOnFin net c f = out at hcases
  cases hcases with
  | ignored => exact h
  | @taken next tick _ hseq hnext =>
    have hstates : c.state.finTaken = false ∧ next.finTaken = true ∧ next.synced = true := by
      revert hnext
      cases c.state <;> cases next <;> simp [TcpState.afterFin, TcpState.finTaken, TcpState.synced]
    have hend := hcut.fin hfin
    have hall : (handed ++ c.rxBuf.toList).length = stream.length := by
      have hnum := hcut.finSeq.symm.trans (hseq.trans h.rcvNxt)
      rw [hstates.1, hend] at hnum
      have hle := h.bytes.length_le
      exact (num_inj hnum (by omega) (by simp only [Bool.false_eq_true, if_false]; omega)).symm
    have hstream : handed ++ c.rxBuf.toList = stream := h.bytes.eq_of_length hall
    refine ⟨hstates.2.2, ?_, ?_, ?_, ?_⟩
    · simpa [takeFin, TcpConn.bridged] using h.buffered
    · simpa [takeFin] using h.bytes
    · have hrcv := h.rcvNxt
      simp only [hstates.1, Bool.false_eq_true, if_false, Nat.add_zero] at hrcv
      simp only [takeFin, sendSegment_fields, hstates.2.1, if_true]
      rw [hrcv, num_succ]
    · intro _
      simpa [takeFin] using hstream

theorem dispatch_received (h : Received stream r handed c) (hcut : CutAt stream r f o)
    (hlow : (handed ++ c.rxBuf.toList).length < o + 2 ^ 32)
    (hhigh : o + f.dataLen < (handed ++ c.rxBuf.toList).length + 2 ^ 32)
    (ho : (dispatch net c f).1 = some c') : Received stream r handed c' := by
  have hsynced := h.synced
  have hcases := dispatch_cases net c f
  generalize dispatch net c f = out at ho hcases
  cases hcases with
  | reset => cases ho
  | kept =>
    obtain ⟨⟩ := ho
    exact h
  | handshake hstate =>
    rw [hstate] at hsynced
    cases hsynced
  | synack _ hstate =>
    rw [hstate] at hsynced
    cases hsynced
  | data hstate =>
    obtain ⟨⟩ := ho
    exact (onSegment_received h hstate hcut hlow hhigh).1
  | dataFin hstate hfin =>
    obtain ⟨⟩ := ho
    obtain ⟨hdata, hgrows⟩ := onSegment_received h hstate hcut hlow hhigh
    refine onFin_received hdata hcut hfin ?_
    rw [length_append] at hhigh ⊢
    omega
  | fin _ hfin =>
    obtain ⟨⟩ := ho
    exact onFin_received h hcut hfin hhigh
  | finack =>
    refine h.of_same ?_
    simp only [tcpCloseOnFinack] at ho
    split at ho
    · rename_i hstate
      obtain ⟨⟩ := ho
      exact ⟨rfl, rfl, rfl, fun _ => by rw [hstate]; exact ⟨rfl, rfl⟩⟩
    · rename_i hstate
      obtain ⟨⟩ := ho
      exact ⟨rfl, rfl, rfl, fun _ => by rw [hstate]; exact ⟨rfl, rfl⟩⟩
    · cases ho
    · obtain ⟨⟩ := ho
      exact .refl c

theorem recv_received (h : Received stream r handed c) {count : ℕ} {copied : Bool} :
    Received stream r (handed ++ (tcpRecv net c count copied).2.2.2)
      (tcpRecv net c count copied).1 := by
  have hmove : ∀ n, Received stream r (handed ++ c.rxBuf.toList.take n)
      { c with rxBuf := c.rxBuf.consume n } := by
    intro n
    have hsplit : handed ++ c.rxBuf.toList.take n ++ (c.rxBuf.consume n).toList =
        handed ++ c.rxBuf.toList := by
      rw [BoundedList.toList_consume, append_assoc, take_append_drop]
    refine ⟨h.synced, h.buffered, ?_, ?_, ?_⟩
    · rw [hsplit]
      exact h.bytes
    · rw [hsplit]
      exact h.rcvNxt
    · rw [hsplit]
      exact h.fin
  have hcases := recv_cases net c count copied
  generalize tcpRecv net c count copied = out at hcases
  cases hcases with
  | nothing =>
    rw [append_nil]
    exact h
  | drained n => exact hmove n
  | updated n => exact (hmove n).of_same (sendSegment_rx _ _ _ _)

end

theorem readStep_received {stream : List UInt8} {r : UInt32} {i : Slot} {s : Reading α}
    {call : Call α} {c c' : TcpConn α} (hc : s.tcp.conns i = some c)
    (h : Received stream r s.handed c)
    (hcall : FromStream ourIp i stream r (entry (readStep ourIp i) s call))
    (hc' : (tcpStep ourIp s.tcp call).1.conns i = some c') :
    Received stream r (readStep ourIp i s call).1.handed c' := by
  by_cases hrecv : ∃ count copied, call.op = .recv i count copied
  · obtain ⟨count, copied, hop⟩ := hrecv
    obtain ⟨op, driver⟩ := call
    obtain rfl : op = .recv i count copied := hop
    simp only [readStep, handedOver, if_true]
    simp only [tcpStep, recvOn, hc, set_conns, if_true, some.injEq] at hc' ⊢
    rw [← hc']
    exact recv_received h
  · have hhanded : (readStep ourIp i s call).1.handed = s.handed := by
      simp only [readStep, handedOver]
      split
      · rename_i j count copied hop
        have hne : j ≠ i := by
          rintro rfl
          exact hrecv ⟨count, copied, hop⟩
        rw [if_neg hne, append_nil]
      · exact append_nil _
    rw [hhanded]
    have hsame : ∀ {d : TcpConn α}, s.tcp.conns i = some d → c = d := by
      intro d hd
      exact some.inj (hc.symm.trans hd)
    have hstep := tcpStep_slot ourIp s.tcp call i
    generalize (tcpStep ourIp s.tcp call).1.conns i = o at hc' hstep
    generalize (tcpStep ourIp s.tcp call).2.at i = events at hstep
    cases hstep with
    | same =>
      obtain rfl := hsame hc'
      exact h
    | packet hd f isn driver hf =>
      obtain rfl := hsame hd
      obtain ⟨o, hcut, hlow, hhigh⟩ := hcall f isn c rfl hf hc
      exact dispatch_received h hcut hlow hhigh hc'
    | send hd =>
      obtain rfl := hsame hd
      obtain ⟨⟩ := hc'
      exact h.of_same (sendData_rx _ _ _)
    | reply hd =>
      obtain rfl := hsame hd
      obtain ⟨⟩ := hc'
      exact h.of_same (replyLoop_rx _ _ _ _)
    | recv _ count copied => exact absurd ⟨count, copied, rfl⟩ hrecv
    | close hd =>
      obtain rfl := hsame hd
      exact h.of_same (close_rx hc')
    | syn hfree => simp [hc] at hfree
    | connect hfree => simp [hc] at hfree
    | connectLost hfree => simp [hc] at hfree
    | listen hfree => simp [hc] at hfree
    | dequeue hd =>
      obtain rfl := hsame hd
      obtain ⟨⟩ := hc'
      exact h.of_same ⟨rfl, rfl, rfl, fun hs => ⟨hs, rfl⟩⟩
    | acceptFault hd =>
      obtain rfl := hsame hd
      have hdequeued : RxSame c { c with listenSlot := none } :=
        ⟨rfl, rfl, rfl, fun hs => ⟨hs, rfl⟩⟩
      exact h.of_same (hdequeued.trans (close_rx hc'))
    | own hd =>
      obtain rfl := hsame hd
      obtain ⟨⟩ := hc'
      exact h.of_same ⟨rfl, rfl, rfl, fun hs => ⟨hs, rfl⟩⟩
    | tick hd =>
      obtain rfl := hsame hd
      exact h.of_same (tickConn_rx hc')

def InStream (stream : List UInt8) (r : UInt32) (i : Slot) (s : Reading α) : Prop :=
  s.gone = false → ∃ c, s.tcp.conns i = some c ∧ Received stream r s.handed c

/-- An established connection whose segments are cut from one stream, none `2 ^ 32` bytes or more
from the receive cursor, receives that stream. -/
theorem stream_received (ourIp : UInt32) {s : Tcp α} {i : Slot} {c : TcpConn α}
    (hc : s.conns i = some c) (hstate : c.state = .established) (hbridged : c.bridged = false)
    (hempty : c.rxBuf.toList = []) (stream : List UInt8) (calls : List (Call α))
    (hcuts : ∀ e ∈ trace (readStep ourIp i) ⟨s, [], false⟩ calls,
      FromStream ourIp i stream c.rcvNxt e) (k : ℕ) :
    InStream stream c.rcvNxt i
      (exec (readStep ourIp i) ⟨s, [], false⟩ (calls.take k)) := by
  have hstart : InStream stream c.rcvNxt i (⟨s, [], false⟩ : Reading α) := by
    intro _
    refine ⟨c, hc, ⟨by rw [hstate]; rfl, hbridged, by simp [hempty], ?_, ?_⟩⟩
    · simp [hempty, finTaken_of_established hstate]
    · simp [finTaken_of_established hstate]
  refine exec_invariant_of (readStep ourIp i) (P := InStream stream c.rcvNxt i)
    (Q := FromStream ourIp i stream c.rcvNxt) ?_ hstart (calls.take k) ?_
  · intro s call hcall hs hgone
    simp only [readStep, Bool.or_eq_false_iff, isNone_eq_false_iff] at hgone
    obtain ⟨c₀, hc₀, hreceived⟩ := hs hgone.1
    obtain ⟨c', hc'⟩ := isSome_iff_exists.mp hgone.2
    exact ⟨c', hc', readStep_received hc₀ hreceived hcall hc'⟩
  · intro e he
    rw [trace_take] at he
    exact hcuts e (mem_of_mem_take he)

theorem opened_connection : ∃ c : TcpConn UInt8,
    (exec (tcpStep 0x0200000A) Tcp.init (closingCalls.take 2)).conns 0 = some c ∧
      c.state = .established ∧ c.bridged = false ∧ c.rxBuf.toList = [] ∧ c.rcvNxt = 501 := by
  have hconn : ((exec (tcpStep 0x0200000A) Tcp.init (closingCalls.take 2)).conns 0).map
      (fun c => (c.state, c.bridged, c.rxBuf.toList, c.rcvNxt)) =
      some (.established, false, [], 501) := by decide +kernel
  obtain ⟨c, hc, hfields⟩ := map_eq_some_iff.mp hconn
  simp only [Prod.mk.injEq] at hfields
  exact ⟨c, hc, hfields⟩

def lastBytes : Frame where
  __ := serverSegment 501 1001 0x11
  len := 56
  totalLen := 42
  rest := [104, 105]
  rest_length := rfl

theorem last_bytes_received : ∃ c : TcpConn UInt8,
    (exec (tcpStep 0x0200000A) Tcp.init (closingCalls.take 2)).conns 0 = some c ∧
      InStream [104, 105] c.rcvNxt 0 (exec (readStep 0x0200000A 0)
        ⟨exec (tcpStep 0x0200000A) Tcp.init (closingCalls.take 2), [], false⟩
        [⟨.packet lastBytes 0, true⟩]) := by
  obtain ⟨c, hc, hstate, hbridged, hempty, hnxt⟩ := opened_connection
  refine ⟨c, hc, stream_received 0x0200000A hc hstate hbridged hempty [104, 105]
    [⟨.packet lastBytes 0, true⟩] ?_ 1⟩
  intro e he f isn d hop _ hd
  obtain rfl := mem_singleton.mp he
  obtain ⟨rfl, rfl⟩ := Op.packet.inj hop
  obtain rfl : c = d := some.inj (hc.symm.trans hd)
  have hnone : (([] : List UInt8) ++ c.rxBuf.toList).length = 0 := by simp [hempty]
  refine ⟨0, ?_, ?_, ?_⟩
  · rw [hnxt]
    exact ⟨by decide, by decide, by decide, by decide, fun _ => by decide⟩
  · exact hnone ▸ (by decide : 0 < 0 + 2 ^ 32)
  · exact hnone ▸ (by decide : 0 + lastBytes.dataLen < 0 + 2 ^ 32)

def CutFrom (ourIp : UInt32) (i : Slot) (stream : List UInt8) (r : UInt32)
    (e : Entry (Reading α) (Call α) (Reply α)) : Prop :=
  ∀ f isn, e.input.op = .packet f isn → Receives ourIp e.pre.tcp i f → ∃ o, CutAt stream r f o

theorem far_fin_taken : ∃ c : TcpConn UInt8,
    (exec (tcpStep 0x0200000A) Tcp.init (closingCalls.take 2)).conns 0 = some c ∧
      c.state = .established ∧ c.bridged = false ∧ c.rxBuf.toList = [] ∧
      ¬ ∀ (stream : List UInt8) (calls : List (Call UInt8)),
        (∀ e ∈ trace (readStep 0x0200000A 0)
          ⟨exec (tcpStep 0x0200000A) Tcp.init (closingCalls.take 2), [], false⟩ calls,
          CutFrom 0x0200000A 0 stream c.rcvNxt e) →
        InStream stream c.rcvNxt 0 (exec (readStep 0x0200000A 0)
          ⟨exec (tcpStep 0x0200000A) Tcp.init (closingCalls.take 2), [], false⟩ calls) := by
  obtain ⟨c, hc, hstate, hbridged, hempty, hnxt⟩ := opened_connection
  refine ⟨c, hc, hstate, hbridged, hempty, ?_⟩
  intro hstreams
  have hlength : (replicate (2 ^ 32) (0 : UInt8)).length = 2 ^ 32 := length_replicate
  have hafter := hstreams (replicate (2 ^ 32) 0)
    [⟨.packet (serverSegment 501 1001 0x11) 0, true⟩] ?_
  · obtain ⟨c', hc', hreceived⟩ := hafter (by decide +kernel)
    have htaken : ((exec (readStep 0x0200000A 0)
        ⟨exec (tcpStep 0x0200000A) Tcp.init (closingCalls.take 2), [], false⟩
        [⟨.packet (serverSegment 501 1001 0x11) 0, true⟩]).tcp.conns 0).map
        (fun c => (c.state.finTaken, c.rxBuf.toList)) = some (true, []) := by decide +kernel
    rw [hc'] at htaken
    simp only [map_some, some.injEq, Prod.mk.injEq] at htaken
    have hall := congrArg length (hreceived.fin htaken.1)
    rw [htaken.2, hlength] at hall
    cases hall
  · intro e he f isn hop _
    obtain rfl := mem_singleton.mp he
    obtain ⟨rfl, rfl⟩ := Op.packet.inj hop
    have hnone : (serverSegment 501 1001 0x11).dataLen = 0 := by decide
    refine ⟨2 ^ 32, by decide, ?_, ?_, ?_, ?_⟩
    · rw [hnxt]
      decide
    · rw [hnone, hlength]
      exact le_rfl
    · rw [hnone, take_zero]
      decide
    · intro _
      rw [hnone, hlength, Nat.add_zero]

end SotOs.Sotnet
