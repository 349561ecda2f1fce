import SotOs.Lib.SeqNum
import SotOs.Sotnet.CloseHandshake

/-! Every outgoing byte carries the sequence number it had when `tcp_send_data` accepted it, and
each frame that goes out is compared with the numbers its bytes carry. -/

namespace SotOs.Sotnet
open SeqNum Machine List Option
variable {α : Type} {ourIp : UInt32}

/-- A byte with the number it had when it was accepted, `none` if the driver refused it. -/
structure Octet where
  value : UInt8
  num : Option UInt32
  deriving DecidableEq

def numbered (taken : Bool) (n : UInt32) (buf : List UInt8) : List Octet :=
  buf.mapIdx fun j b => ⟨b, if taken then some (num n j) else none⟩

def nextNum (s : Tcp α) (i : Option Slot) : UInt32 := ((i.bind s.conns).map TcpConn.sndNxt).getD 0

def Call.numbered (s : Tcp Octet) (call : Call UInt8) : Call Octet where
  op := match call.op with
    | .send i buf => .send i (Sotnet.numbered call.driver (nextNum s (some i)) buf)
    | .reply connId data =>
      .reply connId (Sotnet.numbered call.driver (nextNum s (tcpConnById s.conns connId)) data)
    | .packet f isn => .packet f isn
    | .recv i count copied => .recv i count copied
    | .close i => .close i
    | .activeOpen dstIp dstPort pid port isn => .activeOpen dstIp dstPort pid port isn
    | .passiveOpen localPort => .passiveOpen localPort
    | .accept localPort fate => .accept localPort fate
    | .tick tsc => .tick tsc
    | .shell connId => .shell connId
  driver := call.driver

structure Sending where
  tcp : Tcp Octet
  accepted : Slot → List UInt32

def Sending.init : Sending := ⟨Tcp.init, fun _ => []⟩

def sentNums (events : List (Event Octet)) : List UInt32 :=
  events.flatMap fun e =>
    match e with
    | .sent x => if x.taken then x.seg.payload.filterMap Octet.num else []
    | .push _ _ _ => []

def acceptedBy (call : Call Octet) (events : List (Event Octet)) : List UInt32 :=
  match call.op with
  | .send _ _ | .reply _ _ => sentNums events
  | _ => []

def sendStep (ourIp : UInt32) (s : Sending) (call : Call UInt8) : Sending × Reply Octet :=
  let r := tcpStep ourIp s.tcp (call.numbered s.tcp)
  (⟨r.1, fun i => if (r.1.conns i).isNone then []
    else s.accepted i ++ acceptedBy (call.numbered s.tcp) (r.2.at i)⟩, r.2)

def Consecutive (n : UInt32) (data : List Octet) : Prop :=
  ∀ j b, data[j]? = some b → b.num = some (num n j)

def InPlace (events : List (Event Octet)) : Prop :=
  ∀ x, .sent x ∈ events → x.taken = true → Consecutive x.seg.seq x.seg.payload

structure Fires (s : Tcp α) (call : Call UInt8) (i : Slot) (c : TcpConn α) : Prop where
  tick : ∃ tsc, call.op = .tick tsc ∧ (tickGate s.lastTickTsc tsc).2 = true
  conn : s.conns i = some c
  state : c.state.retransmits = true
  due : c.retxDue (s.now + 1) = true
  count : c.retxCount < retxMax

def Unacked (s : Sending) (i : Slot) (c : TcpConn Octet) : Prop :=
  ∃ n ∈ s.accepted i, seqAfter c.sndUna n = false

/-- One exchange numbers its bytes right, and a resend starts at `snd_una`. -/
structure NumbersKept (e : Entry Sending (Call UInt8) (Reply Octet)) : Prop where
  bytes : ∀ i, InPlace (e.reply.at i)
  oldest : ∀ i c x, Fires e.pre.tcp e.input i c → Unacked e.pre i c →
    .sent x ∈ e.reply.at i → x.taken = true → x.seg.seq = c.sndUna ∧ x.seg.payload ≠ []

def ResendsNoData (e : Entry Sending (Call UInt8) (Reply Octet)) : Prop :=
  ∀ i c, Fires e.pre.tcp e.input i c → e.input.driver = true → c.txBuf.toList = []

variable {n : UInt32}

theorem consecutive_nil : Consecutive n [] := by
  intro j b hb
  simp at hb

variable {data : List Octet}

theorem Consecutive.take (h : Consecutive n data) (k : ℕ) :
    Consecutive n (data.take k) := by
  intro j b hb
  rw [getElem?_take] at hb
  split_ifs at hb
  exact h j b hb

theorem Consecutive.drop (h : Consecutive n data) (k : ℕ) :
    Consecutive (num n k) (data.drop k) := by
  intro j b hb
  rw [getElem?_drop] at hb
  rw [h _ b hb, num, num, num, UInt32.ofNat_add, add_assoc]

variable {buf : List UInt8} {events' : List (Event Octet)} {flags : UInt8} {f : Frame}
  {shielded : Bool} {x : Sent Octet}

theorem consecutive_numbered : Consecutive n (numbered true n buf) := by
  intro j b hb
  simp only [numbered, getElem?_mapIdx, map_eq_some_iff] at hb
  obtain ⟨value, -, rfl⟩ := hb
  rfl

theorem numbered_refused : ∀ b ∈ numbered false n buf, b.num = none := by
  intro b hb
  simp only [numbered, mem_mapIdx] at hb
  obtain ⟨j, -, rfl⟩ := hb
  rfl

theorem InPlace.append {events : List (Event Octet)} (h : InPlace events) (h' : InPlace events') :
    InPlace (events ++ events') := by
  intro x hx
  rcases mem_append.mp hx with hx | hx
  · exact h x hx
  · exact h' x hx

theorem inPlace_nil : InPlace [] := by
  intro x hx
  cases hx

section
variable {net : Net} {c c' : TcpConn Octet}

theorem sendSegment_inPlace (h : net.driver = true → Consecutive c.sndNxt data) :
    InPlace (tcpSendSegment net c flags data).events := by
  intro x hx htaken
  unfold tcpSendSegment at hx
  split_ifs at hx
  · simp only [SendResult.events, map_cons, map_nil, mem_singleton,
      Event.sent.injEq] at hx
    subst hx
    exact h htaken
  · cases hx

theorem bare_inPlace : InPlace (tcpSendSegment net c flags []).events :=
  sendSegment_inPlace fun _ => consecutive_nil

theorem bare_placed (net : Net) (c : TcpConn Octet) (flags : UInt8) :
    ∀ e ∈ (tcpSendSegment net c flags []).events, ∀ x, e = .sent x → x.taken = true →
      Consecutive x.seg.seq x.seg.payload := by
  rintro e he x rfl
  exact bare_inPlace x he

theorem dispatch_inPlace (net : Net) (c : TcpConn Octet) (f : Frame) :
    InPlace (dispatch net c f).2 :=
  fun x hx => dispatch_events bare_placed (fun _ _ _ => nofun) net c f _ hx x rfl

theorem close_inPlace (net : Net) (c : TcpConn Octet) : InPlace (sotnetTcpClose net c).2 :=
  fun x hx => close_events bare_placed net c _ hx x rfl

theorem recv_inPlace (net : Net) (c : TcpConn Octet) (count : ℕ) (copied : Bool) :
    InPlace (tcpRecv net c count copied).2.1 :=
  fun x hx => recv_events bare_placed net c count copied _ hx x rfl

theorem sendData_inPlace {buf : List Octet} (h : net.driver = true → Consecutive c.sndNxt buf) :
    InPlace (tcpSendData net c buf).2.1 := by
  have hcases := sendData_cases net c buf
  generalize tcpSendData net c buf = out at hcases
  cases hcases with
  | refused => exact inPlace_nil
  | lost =>
    intro x hx htaken
    obtain rfl := Event.sent.inj (mem_singleton.mp hx)
    cases htaken
  | taken _ hdriver =>
    intro x hx _
    obtain rfl := Event.sent.inj (mem_singleton.mp hx)
    exact (h hdriver).take _

def TcpState.opening : TcpState → Bool
  | .synSent | .synRcvd => true
  | _ => false

structure Tracked (nums : List UInt32) (c : TcpConn Octet) : Prop where
  stale : c.state.retransmits = true → ∀ b, c.txBuf.toList.head? = some b →
    b.num ≠ some c.sndNxt
  unsent : c.state.opening = true → c.txBuf.toList = []
  noSyn : c.txBuf.toList ≠ [] → has c.txFlags flagSyn = false
  cached : nums ≠ [] → c.txBuf.toList ≠ []

structure TxKept (c c' : TcpConn Octet) : Prop where
  txBuf : c'.txBuf.toList = c.txBuf.toList
  flags : c'.txFlags = c.txFlags ∨ has c'.txFlags flagSyn = false
  opening : c'.state.opening = true → c.state.opening = true
  sndNxt : c'.state.retransmits = true → c.state.opening = true ∨
    c.state.retransmits = true ∧ c'.sndNxt = c.sndNxt

theorem TxKept.refl (c : TcpConn Octet) : TxKept c c := ⟨rfl, .inl rfl, id, fun h => .inr ⟨h, rfl⟩⟩

theorem retransmits_of_opening {state : TcpState} (h : state.opening = true) :
    state.retransmits = true := by
  cases state <;> first | rfl | cases h

theorem TxKept.trans {c'' : TcpConn Octet} (h : TxKept c c') (h' : TxKept c' c'') :
    TxKept c c'' := by
  refine ⟨h'.txBuf.trans h.txBuf, ?_, fun ho => h.opening (h'.opening ho), ?_⟩
  · rcases h'.flags with hf | hf
    · rw [hf]
      exact h.flags
    · exact .inr hf
  · intro hr
    rcases h'.sndNxt hr with ho | ⟨hr', hnxt⟩
    · exact .inl (h.opening ho)
    · rcases h.sndNxt hr' with ho | ⟨hr₀, hnxt₀⟩
      · exact .inl ho
      · exact .inr ⟨hr₀, hnxt.trans hnxt₀⟩

theorem Tracked.of_kept {nums : List UInt32} (h : Tracked nums c) (hkept : TxKept c c') :
    Tracked nums c' := by
  refine ⟨?_, ?_, ?_, ?_⟩
  · intro hr b hb
    rw [hkept.txBuf] at hb
    rcases hkept.sndNxt hr with ho | ⟨hr₀, hnxt⟩
    · rw [h.unsent ho] at hb
      cases hb
    · rw [hnxt]
      exact h.stale hr₀ b hb
  · intro ho
    rw [hkept.txBuf]
    exact h.unsent (hkept.opening ho)
  · intro hne
    rw [hkept.txBuf] at hne
    rcases hkept.flags with hf | hf
    · rw [hf]
      exact h.noSyn hne
    · exact hf
  · intro hne
    rw [hkept.txBuf]
    exact h.cached hne

theorem bare_tx (h : has flags flagSyn = false) :
    TxKept c (tcpSendSegment net c flags []).conn := by
  have hopt : optLen flags = 0 := by simp [optLen, h]
  refine ⟨?_, .inr ?_, by simp, by simp +contextual⟩ <;>
    simp [tcpSendSegment, hopt, cacheSegment, h]

theorem resend_tx : TxKept c (tcpSendSegment net { c with retxCount := c.retxCount + 1 } c.txFlags
      c.txBuf.toList).conn := by
  refine ⟨?_, .inl ?_, by simp, by simp +contextual⟩
  · unfold tcpSendSegment
    split_ifs
    · simp only [cacheSegment]
      split_ifs <;> simp
    · rfl
  · unfold tcpSendSegment
    split_ifs <;> rfl

theorem takeAck_tx {wnd : UInt32} : TxKept c (takeAck { c with sndWnd := wnd } f) := by
  unfold takeAck
  split_ifs <;> exact ⟨rfl, .inl rfl, id, fun h => .inr ⟨h, rfl⟩⟩

theorem takePayload_tx : TxKept c (takePayload c f) := by
  unfold takePayload
  split_ifs <;> exact ⟨rfl, .inl rfl, id, fun h => .inr ⟨h, rfl⟩⟩

theorem onSegment_tx : TxKept c (tcpDataOnSegment net c f).1 := by
  have hack : has flagAck flagSyn = false := by decide
  have hcases := onSegment_cases net c f
  generalize tcpDataOnSegment net c f = out at hcases
  cases hcases with
  | malformed => exact .refl c
  | bare wnd => exact takeAck_tx
  | inOrder wnd =>
    exact (takeAck_tx.trans takePayload_tx).trans (bare_tx hack)
  | outOfOrder wnd => exact takeAck_tx.trans (bare_tx hack)

theorem TxKept.leave {next : TcpState} {n tick : UInt32} (h : TxKept c c')
    (hnext : next.retransmits = false) :
    TxKept c { c' with state := next, sndNxt := n, timeWaitTick := tick } := by
  refine ⟨h.txBuf, h.flags, ?_, ?_⟩
  · intro ho
    rw [retransmits_of_opening ho] at hnext
    cases hnext
  · intro hr
    rw [hr] at hnext
    cases hnext

theorem onFin_tx : TxKept c (tcpCloseOnFin net c f).1 := by
  have hcases := onFin_cases net c f
  generalize tcpCloseOnFin net c f = out at hcases
  cases hcases with
  | ignored => exact .refl c
  | @taken next tick _ _ hnext =>
    have hleaves : next.retransmits = false := by
      revert hnext
      cases c.state <;> rintro ⟨⟩ <;> rfl
    have hcounted : TxKept c { c with rcvNxt := c.rcvNxt + 1 } :=
      ⟨rfl, .inl rfl, id, fun h => .inr ⟨h, rfl⟩⟩
    exact (hcounted.trans (bare_tx (by decide))).leave hleaves

theorem sendFin_tx {next : TcpState} (hnext : next.retransmits = false) :
    TxKept c (sendFin net c next).1 :=
  (bare_tx (by decide)).leave hnext

theorem close_tx (h : (sotnetTcpClose net c).1 = some c') : TxKept c c' := by
  have hcases := close_cases net c
  generalize sotnetTcpClose net c = out at h hcases
  cases hcases with
  | fin hstate =>
    obtain ⟨⟩ := h
    refine sendFin_tx ?_
    rcases hstate with ⟨-, rfl⟩ | ⟨-, rfl⟩ <;> rfl
  | freed => cases h

theorem finack_tx (h : tcpCloseOnFinack net c = some c') : TxKept c c' := by
  unfold tcpCloseOnFinack at h
  split at h
  · obtain ⟨⟩ := h
    exact (TxKept.refl c).leave rfl
  · obtain ⟨⟩ := h
    exact (TxKept.refl c).leave rfl
  · cases h
  · obtain ⟨⟩ := h
    exact .refl c

theorem dispatch_tx (h : (dispatch net c f).1 = some c') : TxKept c c' := by
  have hcases := dispatch_cases net c f
  generalize dispatch net c f = out at h hcases
  cases hcases with
  | reset => cases h
  | kept =>
    obtain ⟨⟩ := h
    exact .refl c
  | handshake hstate =>
    obtain ⟨⟩ := h
    exact ⟨rfl, .inl rfl, by simp [TcpState.opening], fun _ => .inl (by rw [hstate]; rfl)⟩
  | synack wscale hstate =>
    simp only [ite_none_right_eq_some, some.injEq] at h
    rw [← h.2]
    refine TxKept.trans ?_ (bare_tx (by decide))
    exact ⟨rfl, .inl rfl, by simp [TcpState.opening], fun _ => .inl (by rw [hstate]; rfl)⟩
  | data =>
    obtain ⟨⟩ := h
    exact onSegment_tx
  | dataFin =>
    obtain ⟨⟩ := h
    exact onSegment_tx.trans onFin_tx
  | fin =>
    obtain ⟨⟩ := h
    exact onFin_tx
  | finack => exact finack_tx h

theorem recv_tx {count : ℕ} {copied : Bool} : TxKept c (tcpRecv net c count copied).1 := by
  have hdrained : ∀ n, TxKept c { c with rxBuf := c.rxBuf.consume n } :=
    fun n => ⟨rfl, .inl rfl, id, fun h => .inr ⟨h, rfl⟩⟩
  have hcases := recv_cases net c count copied
  generalize tcpRecv net c count copied = out at hcases
  cases hcases with
  | nothing => exact .refl c
  | drained n => exact hdrained n
  | updated n => exact (hdrained n).trans (bare_tx (by decide))

theorem tickConn_tx (h : (tickConn net shielded c).1 = some c') : TxKept c c' := by
  have hcases := tickConn_cases net shielded c
  generalize tickConn net shielded c = out at h hcases
  cases hcases with
  | kept =>
    obtain ⟨⟩ := h
    exact .refl c
  | resend =>
    obtain ⟨⟩ := h
    exact resend_tx
  | reset => cases h
  | finish =>
    obtain ⟨⟩ := h
    exact sendFin_tx rfl
  | expired => cases h

end

structure Marked (driver : Bool) (n : UInt32) (data : List Octet) : Prop where
  taken : driver = true → Consecutive n data
  refused : driver = false → ∀ b ∈ data, b.num = none

theorem marked_numbered {driver : Bool} {n : UInt32} : Marked driver n (numbered driver n buf) := by
  refine ⟨?_, ?_⟩
  · rintro rfl
    exact consecutive_numbered
  · rintro rfl
    exact numbered_refused

section
variable {net : Net} {c : TcpConn Octet} {nums : List UInt32} {data : List Octet}

theorem add_frame_ne {n : UInt32} {k : ℕ} (hpos : 0 < k) (hk : k ≤ txBufSize) :
    n + UInt32.ofNat k ≠ n := by
  intro h
  have hk0 : k = 0 := num_inj (r := n) (m := k) (n := 0) (by simpa [num] using h)
    (by unfold txBufSize at hk; omega) (by omega)
  omega

theorem cacheSegment_txBuf (net : Net) (c : TcpConn Octet) (flags : UInt8) (hne : data ≠ [])
    (hfits : data.length ≤ txBufSize) : (cacheSegment net c flags data hfits).txBuf.toList = data := by
  simp [cacheSegment, hne]

theorem Tracked.replaced {c' : TcpConn Octet} (hopen : c.state.opening = false)
    (hstate : c'.state = c.state) (hne : data ≠ []) (hbuf : c'.txBuf.toList = data)
    (hflags : has c'.txFlags flagSyn = false)
    (hstale : ∀ b, data[0]? = some b → b.num ≠ some c'.sndNxt) : Tracked nums c' := by
  refine ⟨?_, ?_, fun _ => hflags, fun _ => hbuf ▸ hne⟩
  · intro _ b hb
    rw [hbuf, head?_eq_getElem?] at hb
    exact hstale b hb
  · intro ho
    rw [hstate, hopen] at ho
    cases ho

theorem sendData_tracked (h : Tracked nums c) (hdata : Marked net.driver c.sndNxt data) :
    Tracked (nums ++ sentNums (tcpSendData net c data).2.1) (tcpSendData net c data).1 := by
  have hflags : has (flagAck ||| flagPsh) flagSyn = false := by decide
  have hopening : c.state = .established ∨ c.state = .closeWait → c.state.opening = false := by
    rintro (hstate | hstate) <;> rw [hstate] <;> rfl
  have hcut : data ≠ [] → data.take txBufSize ≠ [] := by simp [txBufSize]
  have hcases := sendData_cases net c data
  generalize tcpSendData net c data = out at hcases
  cases hcases with
  | refused => simpa [sentNums] using h
  | lost hne hdriver hopen hfits =>
    refine .replaced (hopening hopen) rfl (hcut hne)
      (cacheSegment_txBuf net c (flagAck ||| flagPsh) (hcut hne) hfits) hflags ?_
    intro b hb
    rw [hdata.refused hdriver b (mem_of_mem_take (mem_of_getElem? hb))]
    simp
  | taken hne hdriver hopen hfits =>
    refine .replaced (hopening hopen) rfl (hcut hne)
      (cacheSegment_txBuf net c (flagAck ||| flagPsh) (hcut hne) hfits) hflags ?_
    intro b hb heq
    rw [(hdata.taken hdriver).take _ 0 b hb, num_zero] at heq
    exact add_frame_ne (length_pos_iff.mpr (hcut hne)) hfits
      (some.inj heq).symm

theorem sendData_marked (hdata : Marked net.driver c.sndNxt data)
    (hret : ¬ (tcpSendData net c data).2.2 ≤ 0) :
    Marked net.driver (tcpSendData net c data).1.sndNxt
      (data.drop (tcpSendData net c data).2.2.toNat) := by
  have hcases := sendData_cases net c data
  generalize tcpSendData net c data = out at hcases hret
  cases hcases with
  | refused _ hle => exact absurd hle hret
  | lost => exact absurd (by decide : (-1 : ℤ) ≤ 0) hret
  | taken _ hdriver =>
    refine ⟨fun _ => (hdata.taken hdriver).drop _, ?_⟩
    intro hdriver'
    rw [hdriver] at hdriver'
    cases hdriver'

theorem sentNums_append {events : List (Event Octet)} :
    sentNums (events ++ events') = sentNums events ++ sentNums events' :=
  flatMap_append

theorem replyLoop_tracked {fuel : ℕ} (h : Tracked nums c) (hdata : Marked net.driver c.sndNxt data) :
    InPlace (replyLoop net fuel c data).2.1 ∧
      Tracked (nums ++ sentNums (replyLoop net fuel c data).2.1)
        (replyLoop net fuel c data).1 := by
  induction fuel generalizing c data nums with
  | zero => exact ⟨inPlace_nil, by simpa [replyLoop, sentNums] using h⟩
  | succ fuel ih =>
    have hfirst := sendData_inPlace hdata.taken
    have htracked := sendData_tracked h hdata
    simp only [replyLoop]
    split
    · exact ⟨inPlace_nil, by simpa [sentNums] using h⟩
    split
    · exact ⟨hfirst, htracked⟩
    rename_i hret
    obtain ⟨hrest, hend⟩ := ih htracked (sendData_marked hdata hret)
    refine ⟨hfirst.append hrest, ?_⟩
    rw [sentNums_append, ← append_assoc]
    exact hend

end

structure AllTracked (s : Sending) : Prop where
  conn : ∀ i c, s.tcp.conns i = some c → Tracked (s.accepted i) c
  free : ∀ i, s.tcp.conns i = none → s.accepted i = []

section
variable {s : Sending} {call : Call UInt8} {i : Slot}

variable {c : TcpConn Octet}

theorem numbered_send {buf : List Octet} {driver : Bool}
    (hcall : call.numbered s.tcp = ⟨.send i buf, driver⟩) (hc : s.tcp.conns i = some c) :
    Marked driver c.sndNxt buf := by
  obtain ⟨op, driver'⟩ := call
  cases op <;> simp only [Call.numbered, Call.mk.injEq, reduceCtorEq, false_and] at hcall
  obtain ⟨hop, rfl⟩ := hcall
  obtain ⟨rfl, rfl⟩ := Op.send.inj hop
  simp only [nextNum, bind_some, hc, map_some, getD_some]
  exact marked_numbered

theorem numbered_reply {connId : UInt16} {driver : Bool}
    (hcall : call.numbered s.tcp = ⟨.reply connId data, driver⟩)
    (hid : tcpConnById s.tcp.conns connId = some i) (hc : s.tcp.conns i = some c) :
    Marked driver c.sndNxt data := by
  obtain ⟨op, driver'⟩ := call
  cases op <;> simp only [Call.numbered, Call.mk.injEq, reduceCtorEq, false_and] at hcall
  obtain ⟨hop, rfl⟩ := hcall
  obtain ⟨rfl, rfl⟩ := Op.reply.inj hop
  simp only [nextNum, hid, bind_some, hc, map_some, getD_some]
  exact marked_numbered

theorem numbered_tick {tsc : UInt64} {driver : Bool}
    (hcall : call.numbered s.tcp = ⟨.tick tsc, driver⟩) :
    call.op = .tick tsc ∧ call.driver = driver := by
  obtain ⟨op, driver'⟩ := call
  cases op <;> simp only [Call.numbered, Call.mk.injEq, reduceCtorEq, false_and] at hcall
  obtain ⟨hop, rfl⟩ := hcall
  obtain rfl := Op.tick.inj hop
  exact ⟨rfl, rfl⟩

@[simp] theorem acceptedBy_nil {call : Call Octet} : acceptedBy call [] = [] := by
  unfold acceptedBy
  split <;> rfl

theorem tracked_fresh (hbuf : c.txBuf.toList = []) : Tracked [] c := by
  refine ⟨?_, fun _ => hbuf, fun h => absurd hbuf h, fun h => absurd rfl h⟩
  intro _ b hb
  rw [hbuf] at hb
  cases hb

theorem bare_txBuf {net : Net} {c : TcpConn Octet} :
    (tcpSendSegment net c flags []).conn.txBuf = c.txBuf := by
  unfold tcpSendSegment
  split_ifs
  · simp [cacheSegment]
  · rfl

theorem sendStep_tracked (hs : AllTracked s) : AllTracked (sendStep ourIp s call).1 := by
  refine ⟨?_, ?_⟩
  · intro i c' hc'
    change (tcpStep ourIp s.tcp (call.numbered s.tcp)).1.conns i = some c' at hc'
    have hstep := tcpStep_slot ourIp s.tcp (call.numbered s.tcp) i
    simp only [sendStep, hc', isNone_some, Bool.false_eq_true, if_false]
    generalize hcall : call.numbered s.tcp = call' at hstep hc'
    generalize (tcpStep ourIp s.tcp call').1.conns i = o at hc' hstep
    generalize (tcpStep ourIp s.tcp call').2.at i = events at hstep
    cases hstep with
    | same =>
      rw [acceptedBy_nil, append_nil]
      exact hs.conn i c' hc'
    | packet hc =>
      simp only [acceptedBy, append_nil]
      exact (hs.conn i _ hc).of_kept (dispatch_tx hc')
    | syn hfree =>
      obtain ⟨⟩ := hc'
      simp only [acceptedBy, hs.free i hfree, append_nil]
      exact tracked_fresh (by rw [bare_txBuf]; rfl)
    | send hc =>
      obtain ⟨⟩ := hc'
      exact sendData_tracked (hs.conn i _ hc) (numbered_send hcall hc)
    | reply hc _ _ _ hid =>
      obtain ⟨⟩ := hc'
      exact (replyLoop_tracked (hs.conn i _ hc) (numbered_reply hcall hid hc)).2
    | recv hc =>
      obtain ⟨⟩ := hc'
      simp only [acceptedBy, append_nil]
      exact (hs.conn i _ hc).of_kept recv_tx
    | close hc =>
      simp only [acceptedBy, append_nil]
      exact (hs.conn i _ hc).of_kept (close_tx hc')
    | connect hfree =>
      obtain ⟨⟩ := hc'
      simp only [acceptedBy, hs.free i hfree, append_nil]
      exact tracked_fresh (by rw [bare_txBuf]; rfl)
    | connectLost => cases hc'
    | listen hfree =>
      obtain ⟨⟩ := hc'
      simp only [acceptedBy, hs.free i hfree, append_nil]
      exact tracked_fresh rfl
    | dequeue hc =>
      obtain ⟨⟩ := hc'
      simp only [acceptedBy, append_nil]
      exact (hs.conn i _ hc).of_kept ⟨rfl, .inl rfl, id, fun h => .inr ⟨h, rfl⟩⟩
    | @acceptFault c hc =>
      simp only [acceptedBy, append_nil]
      have hdequeued : TxKept c { c with listenSlot := none } :=
        ⟨rfl, .inl rfl, id, fun h => .inr ⟨h, rfl⟩⟩
      exact ((hs.conn i _ hc).of_kept hdequeued).of_kept (close_tx hc')
    | own hc =>
      obtain ⟨⟩ := hc'
      simp only [acceptedBy, append_nil]
      exact (hs.conn i _ hc).of_kept ⟨rfl, .inl rfl, id, fun h => .inr ⟨h, rfl⟩⟩
    | tick hc =>
      simp only [acceptedBy, append_nil]
      exact (hs.conn i _ hc).of_kept (tickConn_tx hc')
  · intro i hfree
    change (tcpStep ourIp s.tcp (call.numbered s.tcp)).1.conns i = none at hfree
    simp [sendStep, hfree]

theorem sent_taken {net : Net} {c : TcpConn Octet}
    (h : .sent x ∈ (tcpSendSegment net c flags data).events) : x.taken = net.driver := by
  unfold tcpSendSegment at h
  split_ifs at h
  · simp only [SendResult.events, map_cons, map_nil, mem_singleton,
      Event.sent.injEq] at h
    rw [h]
  · cases h

theorem Fires.events (h : Fires s.tcp call i c) :
    (sendStep ourIp s call).2.at i =
      (tcpSendSegment ⟨s.tcp.now + 1, call.driver⟩ { c with retxCount := c.retxCount + 1 }
        c.txFlags c.txBuf.toList).events := by
  obtain ⟨tsc, hop, hgate⟩ := h.tick
  have hcall : call.numbered s.tcp = ⟨.tick tsc, call.driver⟩ := by simp only [Call.numbered, hop]
  have hresend : tickConn ⟨s.tcp.now + 1, call.driver⟩ (s.tcp.protected c.connId) c =
      (some (tcpSendSegment ⟨s.tcp.now + 1, call.driver⟩ { c with retxCount := c.retxCount + 1 }
        c.txFlags c.txBuf.toList).conn, (tcpSendSegment ⟨s.tcp.now + 1, call.driver⟩
        { c with retxCount := c.retxCount + 1 } c.txFlags c.txBuf.toList).events) := by
    have hstate := h.state
    unfold tickConn
    split <;> rename_i heq
    case h_1 | h_2 | h_3 => rw [if_pos h.due, if_neg (Nat.not_le.mpr h.count)]
    all_goals
      simp_all [TcpState.retransmits]
  simp only [sendStep, hcall, tcpStep]
  rw [tick_at hgate]
  simp only [tickSlot, h.conn]
  rw [hresend]

theorem Fires.driver (h : Fires s.tcp call i c)
    (hx : .sent x ∈ (sendStep ourIp s call).2.at i) (htaken : x.taken = true) :
    call.driver = true := by
  rw [h.events] at hx
  exact (sent_taken hx).symm.trans htaken

theorem Fires.misplaced (h : Fires s.tcp call i c)
    (hc : Tracked (s.accepted i) c) (hdriver : call.driver = true) (hne : c.txBuf.toList ≠ []) :
    ¬ InPlace ((sendStep ourIp s call).2.at i) := by
  have hopt : optLen c.txFlags = 0 := by simp [optLen, hc.noSyn hne]
  have hfits : optLen c.txFlags + c.txBuf.toList.length ≤ txBufSize := by
    rw [hopt, Nat.zero_add]
    exact c.txBuf.length_le
  intro hplace
  rw [h.events, tcpSendSegment, dif_pos hfits] at hplace
  obtain ⟨b, rest, hbuf⟩ := exists_cons_of_ne_nil hne
  have hfirst := hplace _ (mem_singleton.mpr rfl) hdriver 0 b (by simp [buildSegment, hbuf])
  rw [num_zero] at hfirst
  exact hc.stale h.state b (by rw [hbuf]; rfl) hfirst

theorem tickConn_inPlace {net : Net} {c : TcpConn Octet}
    (h : c.state.retransmits = true → c.retxDue net.now = true → c.retxCount < retxMax →
      net.driver = true → c.txBuf.toList = []) : InPlace (tickConn net shielded c).2 := by
  have hcases := tickConn_cases net shielded c
  generalize tickConn net shielded c = out at hcases
  cases hcases with
  | kept => exact inPlace_nil
  | resend hstate hdue hcount =>
    refine sendSegment_inPlace fun hdriver => ?_
    rw [h hstate hdue hcount hdriver]
    exact consecutive_nil
  | reset => exact bare_inPlace
  | finish => exact bare_inPlace
  | expired => exact inPlace_nil

theorem sendStep_inPlace (hs : AllTracked s)
    (hquiet : ∀ c, Fires s.tcp call i c → call.driver = true → c.txBuf.toList = []) :
    InPlace ((sendStep ourIp s call).2.at i) := by
  have hstep := tcpStep_slot ourIp s.tcp (call.numbered s.tcp) i
  change InPlace ((tcpStep ourIp s.tcp (call.numbered s.tcp)).2.at i)
  generalize hcall : call.numbered s.tcp = call' at hstep
  generalize (tcpStep ourIp s.tcp call').1.conns i = o at hstep
  generalize (tcpStep ourIp s.tcp call').2.at i = events at hstep
  cases hstep with
  | same => exact inPlace_nil
  | packet => exact dispatch_inPlace _ _ _
  | syn => exact bare_inPlace
  | send hc => exact sendData_inPlace (numbered_send hcall hc).taken
  | reply hc _ _ _ hid =>
    exact (replyLoop_tracked (hs.conn i _ hc) (numbered_reply hcall hid hc)).1
  | recv => exact recv_inPlace _ _ _ _
  | close => exact close_inPlace _ _
  | connect => exact bare_inPlace
  | connectLost => exact bare_inPlace
  | listen => exact inPlace_nil
  | dequeue => exact inPlace_nil
  | acceptFault => exact close_inPlace _ _
  | own => exact inPlace_nil
  | @tick c hc tsc driver hgate =>
    obtain ⟨hop, hdriver⟩ := numbered_tick hcall
    refine tickConn_inPlace fun hstate hdue hcount htakes => ?_
    exact hquiet c ⟨⟨tsc, hop, hgate⟩, hc, hstate, hdue, hcount⟩ (hdriver.trans htakes)

theorem numbersKept_iff (hs : AllTracked s) : NumbersKept (entry (sendStep ourIp) s call) ↔
      ResendsNoData (entry (sendStep ourIp) s call) := by
  constructor
  · intro hkept i c hfires hdriver
    by_contra hne
    exact Fires.misplaced hfires (hs.conn i c hfires.conn) hdriver hne (hkept.bytes i)
  · intro hquiet
    refine ⟨fun i => sendStep_inPlace hs (hquiet i), ?_⟩
    intro i c x hfires hunacked hx htaken
    obtain ⟨n, hn, -⟩ := hunacked
    exact absurd (hquiet i c hfires (Fires.driver hfires hx htaken))
      ((hs.conn i c hfires.conn).cached (ne_nil_of_mem hn))

end

/-- Every byte keeps its number and every resend starts at `snd_una` exactly if no data is resent.
-/
theorem numbers_kept_iff_resends_no_data (ourIp : UInt32) (calls : List (Call UInt8)) :
    (∀ e ∈ trace (sendStep ourIp) Sending.init calls, NumbersKept e) ↔
      ∀ e ∈ trace (sendStep ourIp) Sending.init calls, ResendsNoData e :=
  trace_forall_congr (sendStep ourIp) (P := AllTracked)
    (fun _ _ hs => sendStep_tracked hs) (fun _ _ hs => numbersKept_iff hs)
    ⟨by simp [Sending.init, Tcp.init], fun _ _ => rfl⟩ calls

def bareTick : Call UInt8 := ⟨.tick 0, true⟩

def sendingCalls : List (Call UInt8) := closingCalls.take 2 ++ [⟨.send 0 [104, 105], true⟩]

theorem resend_misnumbered : ¬ ∀ e ∈ trace (sendStep 0x0200000A) Sending.init
      (sendingCalls ++ List.replicate retxTicks bareTick ++ [bareTick]), NumbersKept e := by
  intro hkept
  let s := exec (sendStep 0x0200000A) Sending.init (sendingCalls ++ replicate retxTicks bareTick)
  have hlast := hkept (entry (sendStep 0x0200000A) s bareTick) (by
    rw [trace_append]
    exact mem_append_right _ (.head _))
  have hconn : (s.tcp.conns 0).map (fun c => (c.state, c.retxDue (s.tcp.now + 1), c.retxCount,
      c.txBuf.toList.length)) = some (.established, true, 0, 2) := by decide +kernel
  have htracked : AllTracked s :=
    exec_invariant _ (fun _ _ hs => sendStep_tracked hs)
      ⟨by simp [Sending.init, Tcp.init], fun _ _ => rfl⟩ _
  clear_value s
  obtain ⟨c, hc, hfields⟩ := map_eq_some_iff.mp hconn
  simp only [Prod.mk.injEq] at hfields
  obtain ⟨hstate, hdue, hcount, hlength⟩ := hfields
  have hfires : Fires s.tcp bareTick 0 c :=
    ⟨⟨0, rfl, rfl⟩, hc, by rw [hstate]; rfl, hdue, by rw [hcount]; decide⟩
  have hne : c.txBuf.toList ≠ [] := ne_nil_of_length_pos (by rw [hlength]; decide)
  have hplace : InPlace ((sendStep 0x0200000A s bareTick).2.at 0) := hlast.bytes 0
  exact hfires.misplaced (htracked.conn 0 c hc) rfl hne hplace

end SotOs.Sotnet
