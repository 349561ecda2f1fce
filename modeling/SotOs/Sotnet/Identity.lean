import SotOs.Sotnet.TcpSpec

/-! Which connection a segment or a reply belongs to. Handlers never change the numbers a connection
is found by, so two connections can only come to share them when one of them is set up. -/

namespace SotOs.Sotnet

open Machine Option
variable {α : Type} {ourIp : UInt32} {s : Tcp α} {net : Net} {c c' : TcpConn α}

def TcpConn.tuple (c : TcpConn α) : UInt32 × UInt16 × UInt16 :=
  (c.remoteIp, c.remotePort, c.localPort)

structure SameConn (c c' : TcpConn α) : Prop where
  tuple : c'.tuple = c.tuple
  connId : c'.connId = c.connId
  listen : c'.state = .listen ↔ c.state = .listen

theorem SameConn.refl (c : TcpConn α) : SameConn c c := ⟨rfl, rfl, Iff.rfl⟩

theorem SameConn.trans {c'' : TcpConn α} (h : SameConn c c') (h' : SameConn c' c'') :
    SameConn c c'' :=
  ⟨h'.tuple.trans h.tuple, h'.connId.trans h.connId, h'.listen.trans h.listen⟩

theorem sendSegment_same (net : Net) (c : TcpConn α) (flags : UInt8) (data : List α) :
    SameConn c (tcpSendSegment net c flags data).conn := by
  unfold tcpSendSegment
  split_ifs
  · exact ⟨rfl, rfl, Iff.rfl⟩
  · exact .refl c

theorem sendData_same (net : Net) (c : TcpConn α) (buf : List α) :
    SameConn c (tcpSendData net c buf).1 := by
  have hsent := sendSegment_same net c (flagAck ||| flagPsh) (buf.take txBufSize)
  unfold tcpSendData
  split_ifs
  · exact .refl c
  · exact .refl c
  simp only
  split_ifs
  · exact { hsent with }
  · exact hsent

theorem replyLoop_same (net : Net) (fuel : ℕ) (c : TcpConn α) (data : List α) :
    SameConn c (replyLoop net fuel c data).1 := by
  induction fuel generalizing c data with
  | zero => exact .refl c
  | succ fuel ih =>
    simp only [replyLoop]
    split_ifs
    · exact .refl c
    · exact sendData_same net c data
    · exact (sendData_same net c data).trans (ih _ _)

theorem recv_same (net : Net) (c : TcpConn α) (count : ℕ) (copied : Bool) :
    SameConn c (tcpRecv net c count copied).1 := by
  simp only [tcpRecv]
  split
  · exact .refl c
  split
  · exact .refl c
  split
  · have hsent := sendSegment_same net
      { c with rxBuf := c.rxBuf.consume (min count c.rxBuf.toList.length) } flagAck []
    exact { hsent with }
  · exact ⟨rfl, rfl, Iff.rfl⟩

variable {f : Frame}

theorem takeAck_same : SameConn c (takeAck c f) := by
  unfold takeAck
  split_ifs <;> exact ⟨rfl, rfl, Iff.rfl⟩

theorem takePayload_same : SameConn c (takePayload c f) := by
  unfold takePayload
  split_ifs <;> exact ⟨rfl, rfl, Iff.rfl⟩

theorem onSegment_same : SameConn c (tcpDataOnSegment net c f).1 := by
  have hack : ∀ wnd : UInt32, SameConn c (takeAck { c with sndWnd := wnd } f) := by
    intro wnd
    have hwnd : SameConn c { c with sndWnd := wnd } := ⟨rfl, rfl, Iff.rfl⟩
    exact hwnd.trans takeAck_same
  have hcases := onSegment_cases net c f
  generalize tcpDataOnSegment net c f = out at hcases
  cases hcases with
  | malformed => exact .refl c
  | bare wnd => exact hack wnd
  | inOrder wnd =>
    exact ((hack wnd).trans takePayload_same).trans (sendSegment_same _ _ _ _)
  | outOfOrder wnd => exact (hack wnd).trans (sendSegment_same _ _ _ _)

theorem sendFin_same (net : Net) {next : TcpState} (hstate : c.state ≠ .listen)
    (hnext : next ≠ .listen) : SameConn c (sendFin net c next).1 := by
  have hsent := sendSegment_same net c (flagFin ||| flagAck) []
  exact ⟨hsent.tuple, hsent.connId, by simp [sendFin, hstate, hnext]⟩

theorem close_same (h : (sotnetTcpClose net c).1 = some c') : SameConn c c' := by
  have hcases := close_cases net c
  generalize sotnetTcpClose net c = out at h hcases
  cases hcases with
  | fin hnext =>
    obtain ⟨⟩ := h
    obtain ⟨hstate, rfl⟩ | ⟨hstate, rfl⟩ := hnext
    · exact sendFin_same net (by simp [hstate]) (by decide)
    · exact sendFin_same net (by simp [hstate]) (by decide)
  | freed => cases h

theorem onFin_same : SameConn c (tcpCloseOnFin net c f).1 := by
  have hcases := onFin_cases net c f
  generalize tcpCloseOnFin net c f = out at hcases
  cases hcases with
  | ignored => exact .refl c
  | @taken next tick _ _ hnext =>
    have hsent := sendSegment_same net { c with rcvNxt := c.rcvNxt + 1 } flagAck []
    have hlisten : c.state ≠ .listen ∧ next ≠ .listen := by
      revert hnext
      cases c.state <;> simp +contextual [TcpState.afterFin, eq_comm]
    exact ⟨hsent.tuple, hsent.connId, by simp [takeFin, hlisten]⟩

theorem onFinack_same (h : tcpCloseOnFinack net c = some c') : SameConn c c' := by
  unfold tcpCloseOnFinack at h
  split at h
  · rename_i hstate
    obtain ⟨⟩ := h
    exact ⟨rfl, rfl, by simp [hstate]⟩
  · rename_i hstate
    obtain ⟨⟩ := h
    exact ⟨rfl, rfl, by simp [hstate]⟩
  · cases h
  · obtain ⟨⟩ := h
    exact .refl c

variable {f : Frame} {i : Slot} {localPort : UInt16} {isn : UInt32}

theorem dispatch_same (h : (dispatch net c f).1 = some c') : SameConn c c' := by
  have hcases := dispatch_cases net c f
  generalize dispatch net c f = out at h hcases
  cases hcases with
  | reset => cases h
  | kept =>
    obtain ⟨⟩ := h
    exact .refl c
  | handshake hstate =>
    obtain ⟨⟩ := h
    exact ⟨rfl, rfl, by simp [hstate]⟩
  | synack wscale hstate =>
    simp only [ite_none_right_eq_some, some.injEq] at h
    rw [← h.2]
    refine SameConn.trans ?_ (sendSegment_same _ _ _ _)
    exact ⟨rfl, rfl, by simp [hstate]⟩
  | data =>
    obtain ⟨⟩ := h
    exact onSegment_same
  | dataFin =>
    obtain ⟨⟩ := h
    exact onSegment_same.trans onFin_same
  | fin =>
    obtain ⟨⟩ := h
    exact onFin_same
  | finack => exact onFinack_same h

theorem tickConn_same {shielded : Bool} (h : (tickConn net shielded c).1 = some c') :
    SameConn c c' := by
  have hcases := tickConn_cases net shielded c
  generalize tickConn net shielded c = out at h hcases
  cases hcases with
  | kept =>
    obtain ⟨⟩ := h
    exact .refl c
  | resend =>
    obtain ⟨⟩ := h
    refine SameConn.trans ?_ (sendSegment_same _ _ _ _)
    exact ⟨rfl, rfl, Iff.rfl⟩
  | reset => cases h
  | finish hstate =>
    obtain ⟨⟩ := h
    exact sendFin_same net (by simp [hstate]) (by decide)
  | expired => cases h

variable {call : Call α}

theorem SlotStep.same_conn {o : Option (TcpConn α)} {events : List (Event α)}
    (h : SlotStep ourIp s i call o events) (hc : s.conns i = some c) (ho : o = some c') :
    SameConn c c' := by
  have hsame : ∀ {d : TcpConn α}, s.conns i = some d → d = c := by
    intro d hd
    exact some.inj (hd.symm.trans hc)
  cases h with
  | same => exact some.inj (hc.symm.trans ho) ▸ .refl c
  | packet hd => exact dispatch_same (hsame hd ▸ ho)
  | syn hfree => simp [hc] at hfree
  | send hd => exact some.inj ho ▸ hsame hd ▸ sendData_same _ _ _
  | reply hd => exact some.inj ho ▸ hsame hd ▸ replyLoop_same _ _ _ _
  | recv hd => exact some.inj ho ▸ hsame hd ▸ recv_same _ _ _ _
  | close hd => exact close_same (hsame hd ▸ ho)
  | connect hfree => simp [hc] at hfree
  | connectLost hfree => simp [hc] at hfree
  | listen hfree => simp [hc] at hfree
  | dequeue hd =>
    obtain ⟨⟩ := ho
    exact hsame hd ▸ ⟨rfl, rfl, Iff.rfl⟩
  | acceptFault hd =>
    have hclose := close_same ho
    exact hsame hd ▸ { hclose with }
  | own hd =>
    obtain ⟨⟩ := ho
    exact hsame hd ▸ ⟨rfl, rfl, Iff.rfl⟩
  | tick hd => exact tickConn_same (hsame hd ▸ ho)

structure Identified (s : Tcp α) : Prop where
  tuple : ∀ i j c d, s.conns i = some c → s.conns j = some d → c.state ≠ .listen →
    d.state ≠ .listen → c.tuple = d.tuple → i = j
  connId : ∀ i j c d, s.conns i = some c → s.conns j = some d → c.connId ≠ 0 →
    c.connId = d.connId → i = j
  routed : ∀ i c, s.conns i = some c → c.connId ≠ 0 → tcpConnById s.conns c.connId = some i

def Distinct (ourIp : UInt32) (s : Tcp α) (call : Call α) : Prop :=
  match call.op with
  | .packet f _ => (∃ i l, Accepts ourIp s i l f) →
      ∀ j d, s.conns j = some d → d.connId ≠ s.connIdNext
  | .activeOpen dstIp dstPort _ port _ => call.driver = true → tcpConnAlloc s.conns ≠ none →
      ∀ j d, s.conns j = some d → d.state ≠ .listen →
        d.tuple ≠ (dstIp, dstPort, bswap16 (UInt16.ofNat (ephemeralPortBase + port.val)))
  | _ => True

theorem byId_of_unique {conns : Conns α} (hi : conns i = some c) (hid : c.connId ≠ 0)
    (huniq : ∀ j d, conns j = some d → d.connId = c.connId → j = i) :
    tcpConnById conns c.connId = some i := by
  rw [tcpConnById, if_neg hid]
  apply Slots.first_eq_of_unique
  · simp [hi]
  · intro j hj
    obtain ⟨d, hd, hmatch⟩ := (Option.any_eq_true _ _).mp hj
    exact huniq j d hd (by simpa using hmatch)

theorem Identified.of_same {s' : Tcp α} (h : Identified s)
    (hold : ∀ i c', s'.conns i = some c' → ∃ c, s.conns i = some c ∧ SameConn c c') :
    Identified s' := by
  have hid : ∀ i j c d, s'.conns i = some c → s'.conns j = some d → c.connId ≠ 0 →
      c.connId = d.connId → i = j := by
    intro i j c d hi hj hne heq
    obtain ⟨c₀, hc₀, hsame⟩ := hold i c hi
    obtain ⟨d₀, hd₀, hsame'⟩ := hold j d hj
    exact h.connId i j c₀ d₀ hc₀ hd₀ (hsame.connId ▸ hne)
      (hsame.connId ▸ hsame'.connId ▸ heq)
  refine ⟨?_, hid, ?_⟩
  · intro i j c d hi hj hlc hld heq
    obtain ⟨c₀, hc₀, hsame⟩ := hold i c hi
    obtain ⟨d₀, hd₀, hsame'⟩ := hold j d hj
    exact h.tuple i j c₀ d₀ hc₀ hd₀ (mt hsame.listen.mpr hlc) (mt hsame'.listen.mpr hld)
      (hsame.tuple ▸ hsame'.tuple ▸ heq)
  · intro i c hi hne
    exact byId_of_unique hi hne fun j d hj heq => (hid i j c d hi hj hne heq.symm).symm

theorem Identified.opened_iff (s' : Tcp α) (h : Identified s) (hfree : s.conns i = none)
    (hi : s'.conns i = some c) (hrest : ∀ j, j ≠ i → s'.conns j = s.conns j) :
    Identified s' ↔
      (c.state ≠ .listen → ∀ j d, s.conns j = some d → d.state ≠ .listen → d.tuple ≠ c.tuple) ∧
      (c.connId ≠ 0 → ∀ j d, s.conns j = some d → d.connId ≠ c.connId) := by
  have hother : ∀ {j d}, s.conns j = some d → j ≠ i ∧ s'.conns j = some d := by
    intro j d hd
    have hne : j ≠ i := by
      rintro rfl
      simp [hfree] at hd
    exact ⟨hne, (hrest j hne).trans hd⟩
  constructor
  · intro h'
    refine ⟨fun hl j d hd hld heq => ?_, fun hne j d hd heq => ?_⟩
    · obtain ⟨hji, hd'⟩ := hother hd
      exact hji (h'.tuple j i d c hd' hi hld hl heq)
    · obtain ⟨hji, hd'⟩ := hother hd
      exact hji (h'.connId i j c d hi hd' hne heq.symm).symm
  · rintro ⟨htuple, hconnId⟩
    have hold : ∀ {j d}, s'.conns j = some d → j ≠ i → s.conns j = some d := by
      intro j d hd hne
      exact (hrest j hne).symm.trans hd
    have hnew : ∀ {d}, s'.conns i = some d → d = c := by
      intro d hd
      exact some.inj (hd.symm.trans hi)
    have hid : ∀ k j d e, s'.conns k = some d → s'.conns j = some e → d.connId ≠ 0 →
        d.connId = e.connId → k = j := by
      intro k j d e hk hj hne heq
      by_cases hki : k = i
      · by_cases hji : j = i
        · rw [hki, hji]
        · subst hki
          obtain rfl := hnew hk
          exact absurd heq.symm (hconnId hne j e (hold hj hji))
      · by_cases hji : j = i
        · subst hji
          obtain rfl := hnew hj
          exact absurd heq (hconnId (heq ▸ hne) k d (hold hk hki))
        · exact h.connId k j d e (hold hk hki) (hold hj hji) hne heq
    refine ⟨?_, hid, fun k d hk hne =>
      byId_of_unique hk hne fun j e hj heq => (hid k j d e hk hj hne heq.symm).symm⟩
    intro k j d e hk hj hld hle heq
    by_cases hki : k = i
    · by_cases hji : j = i
      · rw [hki, hji]
      · subst hki
        obtain rfl := hnew hk
        exact absurd heq.symm (htuple hld j e (hold hj hji) hle)
    · by_cases hji : j = i
      · subst hji
        obtain rfl := hnew hj
        exact absurd heq (htuple hle k d (hold hk hki) hld)
      · exact h.tuple k j d e (hold hk hki) (hold hj hji) hld hle heq

theorem SlotStep.opened {o : Option (TcpConn α)} {events : List (Event α)}
    (h : SlotStep ourIp s i call o events) (hfree : s.conns i = none) (ho : o = some c') :
    (∃ l f isn driver, call = ⟨.packet f isn, driver⟩ ∧ Accepts ourIp s i l f) ∨
    (∃ dstIp dstPort pid port isn, call = ⟨.activeOpen dstIp dstPort pid port isn, true⟩ ∧
      tcpConnAlloc s.conns = some i) ∨
    ∃ localPort driver, call = ⟨.passiveOpen localPort, driver⟩ := by
  cases h with
  | same => simp [hfree] at ho
  | syn _ f isn driver hf => exact .inl ⟨_, f, isn, driver, rfl, hf⟩
  | connect _ hslot dstIp dstPort pid port isn =>
    exact .inr (.inl ⟨dstIp, dstPort, pid, port, isn, rfl, hslot⟩)
  | connectLost => cases ho
  | listen _ localPort driver => exact .inr (.inr ⟨localPort, driver, rfl⟩)
  | packet hc => simp [hfree] at hc
  | send hc => simp [hfree] at hc
  | reply hc => simp [hfree] at hc
  | recv hc => simp [hfree] at hc
  | close hc => simp [hfree] at hc
  | dequeue hc => simp [hfree] at hc
  | acceptFault hc => simp [hfree] at hc
  | own hc => simp [hfree] at hc
  | tick hc => simp [hfree] at hc

theorem Identified.step_of_not_opened (h : Identified s)
    (hopen : ∀ i c', s.conns i = none → (tcpStep ourIp s call).1.conns i = some c' → False) :
    Identified (tcpStep ourIp s call).1 := by
  refine h.of_same fun i c' hc' => ?_
  cases hi : s.conns i with
  | none => exact (hopen i c' hi hc').elim
  | some c => exact ⟨c, rfl, (tcpStep_slot ourIp s call i).same_conn hi hc'⟩

theorem handlePacket_accepts (net : Net) {l : Slot} (isn : UInt32) (hf : Accepts ourIp s i l f) :
    (tcpHandlePacket ourIp s net f isn).1.conns =
      (s.set i (some (tcpSendSegment net (synRcvdConn s.connIdNext l f isn)
        (sotfpSynackFlags f.flags) []).conn)).conns := by
  rw [tcpHandlePacket, if_pos hf.headers]
  simp only [hf.unmatched, hf.action]
  simp only [tcpServerOnSyn, hf.listener, hf.slot]

theorem not_matches_of_lookup_none {conns : Conns α} {ip : UInt32} {remotePort : UInt16}
    (h : tcpConnLookup conns ip remotePort localPort = none) {j : Slot} {d : TcpConn α}
    (hd : conns j = some d) (hl : d.state ≠ .listen) : d.tuple ≠ (ip, remotePort, localPort) := by
  have hmiss := Slots.first_none h j
  rintro heq
  simp only [TcpConn.tuple, Prod.mk.injEq] at heq
  simp [hd, TcpConn.matches, hl, heq] at hmiss

theorem packet_identified {driver : Bool} (hnext : s.connIdNext ≠ 0) (h : Identified s) :
    Identified (tcpStep ourIp s ⟨.packet f isn, driver⟩).1 ↔
      Distinct ourIp s ⟨.packet f isn, driver⟩ := by
  by_cases hacc : ∃ i l, Accepts ourIp s i l f
  · obtain ⟨i, l, hf⟩ := hacc
    have hstep := handlePacket_accepts ⟨s.now, driver⟩ isn hf
    have hsame := sendSegment_same ⟨s.now, driver⟩
      (synRcvdConn s.connIdNext l f isn : TcpConn α) (sotfpSynackFlags f.flags) []
    have hopened := h.opened_iff (tcpHandlePacket ourIp s ⟨s.now, driver⟩ f isn).1
      (alloc_free hf.slot) (by rw [hstep, set_conns, if_pos rfl])
      (fun j hj => by rw [hstep, set_conns, if_neg hj])
    refine hopened.trans ?_
    rw [hsame.tuple, hsame.connId]
    constructor
    · rintro ⟨-, hid⟩ -
      exact hid hnext
    · intro hdistinct
      refine ⟨fun _ j d hd hl => not_matches_of_lookup_none hf.unmatched hd hl, fun _ => ?_⟩
      exact hdistinct ⟨i, l, hf⟩
  · refine iff_of_true (h.step_of_not_opened fun i c' hi hc' => ?_) fun hex => absurd hex hacc
    obtain ⟨l, f', isn', driver', heq, hf⟩ | ⟨_, _, _, _, _, heq, _⟩ | ⟨_, _, heq⟩ :=
      (tcpStep_slot ourIp s _ i).opened hi hc'
    · cases heq
      exact hacc ⟨i, l, hf⟩
    · cases heq
    · cases heq

theorem open_identified {dstIp : UInt32} {dstPort : UInt16} {pid : UInt32}
    {port : Fin ephemeralPortRange} {driver : Bool} (h : Identified s) :
    Identified (tcpStep ourIp s ⟨.activeOpen dstIp dstPort pid port isn, driver⟩).1 ↔
      Distinct ourIp s ⟨.activeOpen dstIp dstPort pid port isn, driver⟩ := by
  by_cases hgo : driver = true ∧ ∃ i, tcpConnAlloc s.conns = some i
  · obtain ⟨rfl, i, hi⟩ := hgo
    have hstep : (tcpStep ourIp s ⟨.activeOpen dstIp dstPort pid port isn, true⟩).1 =
        s.set i (some (tcpSendSegment ⟨s.now, true⟩ (synSentConn dstIp dstPort pid port isn)
          flagSyn []).conn) := by
      simp only [tcpStep, tcpActiveOpen, hi]
      rfl
    have hsame := sendSegment_same ⟨s.now, true⟩
      (synSentConn dstIp dstPort pid port isn : TcpConn α) flagSyn []
    have hopened := h.opened_iff
      (tcpStep ourIp s ⟨.activeOpen dstIp dstPort pid port isn, true⟩).1 (alloc_free hi)
      (by rw [hstep, set_conns, if_pos rfl]) (fun j hj => by rw [hstep, set_conns, if_neg hj])
    refine hopened.trans ?_
    rw [hsame.tuple, hsame.connId]
    constructor
    · rintro ⟨htuple, -⟩ - -
      exact htuple (mt hsame.listen.mp (by simp [synSentConn]))
    · intro hdistinct
      refine ⟨fun _ => hdistinct rfl (by simp [hi]), fun hne => absurd rfl hne⟩
  · refine iff_of_true (h.step_of_not_opened fun i c' hfree hc' => ?_) fun hdriver halloc => ?_
    · obtain ⟨_, _, _, _, heq, _⟩ | ⟨_, _, _, _, _, heq, hslot⟩ | ⟨_, _, heq⟩ :=
        (tcpStep_slot ourIp s _ i).opened hfree hc'
      · cases heq
      · cases heq
        exact hgo ⟨rfl, i, hslot⟩
      · cases heq
    · exact absurd ⟨hdriver, ne_none_iff_exists'.mp halloc⟩ hgo

theorem listen_identified {driver : Bool} (h : Identified s) :
    Identified (tcpStep ourIp s ⟨.passiveOpen localPort, driver⟩).1 := by
  simp only [tcpStep, tcpPassiveOpen]
  split
  · rename_i i _ hi
    refine (h.opened_iff _ (alloc_free hi) (by rw [set_conns, if_pos rfl])
      (fun j hj => by rw [set_conns, if_neg hj])).mpr ⟨fun hl => absurd rfl hl, fun hne => ?_⟩
    exact absurd rfl hne
  · exact h

theorem step_frame (htick : ∀ tsc, call.op ≠ .tick tsc)
    (hshell : ∀ connId, call.op ≠ .shell connId) : ∃ conns connIdNext,
      (tcpStep ourIp s call).1 = { s with conns := conns, connIdNext := connIdNext } ∧
      (connIdNext = s.connIdNext ∨ connIdNext = bumpConnId s.connIdNext) := by
  obtain ⟨op, driver⟩ := call
  cases op with
  | packet f isn =>
    simp only [tcpStep, tcpHandlePacket, tcpServerOnSyn]
    repeat' split
    all_goals first | exact ⟨_, _, rfl, .inl rfl⟩ | exact ⟨_, _, rfl, .inr rfl⟩
  | activeOpen =>
    simp only [tcpStep, tcpActiveOpen]
    repeat' split
    all_goals exact ⟨_, _, rfl, .inl rfl⟩
  | passiveOpen =>
    simp only [tcpStep, tcpPassiveOpen]
    split <;> exact ⟨_, _, rfl, .inl rfl⟩
  | send =>
    simp only [tcpStep, sendOn]
    split <;> exact ⟨_, _, rfl, .inl rfl⟩
  | reply =>
    simp only [tcpStep, replyTo]
    repeat' split
    all_goals exact ⟨_, _, rfl, .inl rfl⟩
  | recv =>
    simp only [tcpStep, recvOn]
    split <;> exact ⟨_, _, rfl, .inl rfl⟩
  | close =>
    simp only [tcpStep, closeOn]
    split <;> exact ⟨_, _, rfl, .inl rfl⟩
  | accept =>
    simp only [tcpStep, doAccept]
    repeat' split
    all_goals exact ⟨_, _, rfl, .inl rfl⟩
  | tick tsc => exact absurd rfl (htick tsc)
  | shell connId => exact absurd rfl (hshell connId)

theorem step_connIdNext : (tcpStep ourIp s call).1.connIdNext = s.connIdNext ∨
      (tcpStep ourIp s call).1.connIdNext = bumpConnId s.connIdNext := by
  by_cases htick : ∃ tsc, call.op = .tick tsc
  · obtain ⟨tsc, hop⟩ := htick
    simp only [tcpStep, hop, tcpTimerTick]
    split <;> exact .inl rfl
  · by_cases hshell : ∃ connId, call.op = .shell connId
    · obtain ⟨connId, hop⟩ := hshell
      left
      simp only [tcpStep, hop]
    · obtain ⟨conns, next, heq, hnext⟩ := step_frame (not_exists.mp htick) (not_exists.mp hshell)
      rwa [heq]

theorem step_connIdNext_ne {s : Tcp α} {call : Call α} (h : s.connIdNext ≠ 0) :
    (tcpStep ourIp s call).1.connIdNext ≠ 0 := by
  rcases step_connIdNext with heq | heq
  · rwa [heq]
  rw [heq, bumpConnId]
  split_ifs with hwrap
  · decide
  · exact hwrap

theorem step_identified (hnext : s.connIdNext ≠ 0) (h : Identified s) :
    Identified (tcpStep ourIp s call).1 ↔ Distinct ourIp s call := by
  have hquiet : (∀ f isn, call.op ≠ .packet f isn) →
      (∀ a b c d e, call.op ≠ .activeOpen a b c d e) → (∀ p, call.op ≠ .passiveOpen p) →
      Identified (tcpStep ourIp s call).1 := by
    intro hpacket hopen hlisten
    refine h.step_of_not_opened fun i c' hfree hc' => ?_
    obtain ⟨_, f, isn, _, rfl, _⟩ | ⟨a, b, c, d, e, rfl, _⟩ | ⟨p, _, rfl⟩ :=
      (tcpStep_slot ourIp s call i).opened hfree hc'
    · exact hpacket f isn rfl
    · exact hopen a b c d e rfl
    · exact hlisten p rfl
  obtain ⟨op, driver⟩ := call
  cases op with
  | packet f isn => exact packet_identified hnext h
  | activeOpen => exact open_identified h
  | passiveOpen => exact iff_of_true (listen_identified h) trivial
  | _ => exact iff_of_true (hquiet (by simp) (by simp) (by simp)) trivial

theorem init_identified : Identified (Tcp.init : Tcp α) := by
  constructor <;> simp [Tcp.init]

/-- Connections stay apart in every state of a run exactly if each one set up was distinct. -/
theorem identified_iff (ourIp : UInt32) (calls : List (Call α)) :
    (∀ k, Identified (exec (tcpStep ourIp) Tcp.init (calls.take k))) ↔
      ∀ e ∈ trace (tcpStep ourIp) Tcp.init calls, Distinct ourIp e.pre e.input := by
  have hnext : ∀ is : List (Call α), (exec (tcpStep ourIp) Tcp.init is).connIdNext ≠ 0 :=
    exec_invariant (tcpStep ourIp) (P := fun s => s.connIdNext ≠ 0)
      (fun s call => step_connIdNext_ne) (by simp [Tcp.init])
  have hboth := always_iff (tcpStep ourIp)
    (P := fun s : Tcp α => Identified s ∧ s.connIdNext ≠ 0)
    (Q := fun e => Distinct ourIp e.pre e.input)
    (fun s call h => by
      rw [and_iff_left (step_connIdNext_ne h.2)]
      exact step_identified h.2 h.1)
    ⟨init_identified, by simp [Tcp.init]⟩ calls
  rw [← hboth]
  exact forall_congr' fun k => (and_iff_left (hnext _)).symm

def twinOpens : List (Call UInt8) :=
  [⟨.activeOpen 0x0100000A 0x5000 7 0 1000, true⟩, ⟨.activeOpen 0x0100000A 0x5000 7 0 2000, true⟩]

theorem open_shares_tuple :
    ¬ ∀ k, Identified (exec (tcpStep 0x0200000A) Tcp.init (twinOpens.take k)) := by
  intro h
  have hconns : ∀ i : Slot, i.val < 2 → ((exec (tcpStep 0x0200000A) Tcp.init twinOpens).conns i).map
        (fun c => (c.tuple, c.state)) = some ((0x0100000A, 0x5000, 0x00C0), .synSent) := by
    decide +kernel
  obtain ⟨c, hc, hc'⟩ := map_eq_some_iff.mp (hconns 0 (by decide))
  obtain ⟨d, hd, hd'⟩ := map_eq_some_iff.mp (hconns 1 (by decide))
  simp only [Prod.mk.injEq] at hc' hd'
  have heq := (h 2).tuple 0 1 c d hc hd (by simp [hc'.2]) (by simp [hd'.2])
    (hc'.1.trans hd'.1.symm)
  exact absurd heq (by decide)

end SotOs.Sotnet
