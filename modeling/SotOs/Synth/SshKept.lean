import SotOs.Synth.SshSpec

/-! What the message handlers leave alone in a session, and how much they answer. -/

namespace SotOs.Synth
open List Turn
variable {env : Env} {flags : ShellFlags} {room : Option ℕ} {c : SshConn} {rng : ℕ}

structure SameSession (c c' : SshConn) : Prop where
  connId : c'.connId = c.connId := by rfl
  greeted : c'.phase = .fresh → c.phase = .fresh := by exact fun h => h
  idDone : c.idDone = true → c'.idDone = true := by exact fun h => h
  keyed : c.phase.keyed = true → c'.phase.keyed = true := by exact fun h => h
  auth : c.phase = .auth → c'.phase = .auth := by exact fun h => h

structure Untouched (c c' : SshConn) : Prop extends SameSession c c' where
  recvEnc : c'.recvEnc = c.recvEnc := by rfl
  pending : c'.shellStartPending = c.shellStartPending := by rfl

structure KeysKept (c c' : SshConn) : Prop extends Untouched c c' where
  sendEnc : c'.sendEnc = c.sendEnc := by rfl
  receiveKeys : c'.receiveKeys = c.receiveKeys := by rfl
  ended : c.aborted = true → c'.aborted = true := by exact fun h => h

theorem SameSession.refl (c : SshConn) : SameSession c c := { }

variable {c' c'' d : SshConn} {p : Prop} {t u : Turn} {e : Emitted} {crypto : Crypto}

theorem SameSession.trans {c : SshConn} (h : SameSession c c') (h' : SameSession c' c'') :
    SameSession c c'' :=
  ⟨h'.connId.trans h.connId, h.greeted ∘ h'.greeted, h'.idDone ∘ h.idDone, h'.keyed ∘ h.keyed,
    h'.auth ∘ h.auth⟩

theorem Untouched.trans {c : SshConn} (h : Untouched c c') (h' : Untouched c' c'') :
    Untouched c c'' :=
  ⟨h.toSameSession.trans h'.toSameSession, h'.recvEnc.trans h.recvEnc, h'.pending.trans h.pending⟩

theorem KeysKept.refl (c : SshConn) : KeysKept c c := { }

theorem KeysKept.trans {c : SshConn} (h : KeysKept c c') (h' : KeysKept c' c'') : KeysKept c c'' :=
  ⟨h.toUntouched.trans h'.toUntouched, h'.sendEnc.trans h.sendEnc,
    h'.receiveKeys.trans h.receiveKeys, h'.ended ∘ h.ended⟩

theorem turn_ite {P : Turn → Prop} [Decidable p] (h : P t) (h' : P u) : P (if p then t else u) := by
  split_ifs
  · exact h
  · exact h'

theorem kept_ite {P : SshConn → Prop} [Decidable p] (h : P t.conn) (h' : P u.conn) :
    P (if p then t else u).conn := turn_ite (P := fun t => P t.conn) h h'

variable {payload : List UInt8}

theorem emit_kept (h : sshEmit env room c rng payload = some e) :
    KeysKept c e.conn := by
  obtain ⟨seq, giv, cc, hconn⟩ := emit_conn h
  rw [hconn]
  exact { }

theorem abort_kept (c : SshConn) : KeysKept c c.abort := { ended := fun _ => rfl }

def SshEvent.quiet : SshEvent → Bool
  | .got _ _ | .keyed _ => false
  | _ => true

structure Calm (c : SshConn) (t : Turn) : Prop extends KeysKept c t.conn where
  quiet : ∀ e ∈ t.events, e.quiet = true

theorem KeysKept.calm (h : KeysKept c d) (h' : Calm d t) : Calm c t :=
  ⟨h.trans h'.toKeysKept, h'.quiet⟩

theorem calm_idle : Calm c (.idle c rng) := ⟨.refl c, List.forall_mem_nil _⟩

theorem calm_abort : Calm c (.abort c rng) := ⟨abort_kept c, List.forall_mem_nil _⟩

theorem calm_emit (h : sshEmit env room c rng payload = some e) :
    Calm c ⟨e.conn, e.rng, [.sent payload e.wire]⟩ :=
  ⟨emit_kept h, forall_mem_singleton.mpr rfl⟩

def kexCost : ℕ := 2300

def SshConn.credit (c : SshConn) : ℕ := if c.phase.keyed then 0 else kexCost

def Turn.size (t : Turn) : ℕ := (outBytes t.events).length

def Turn.spent (t : Turn) : ℕ := t.size + if t.conn.aborted then 0 else t.conn.credit

theorem SameSession.credit_le (h : SameSession c d) : d.credit ≤ c.credit := by
  unfold SshConn.credit
  by_cases hc : c.phase.keyed = true
  · rw [if_pos (h.keyed hc)]
    exact Nat.zero_le _
  · rw [if_neg hc]
    split_ifs
    · exact Nat.zero_le _
    · exact le_rfl

theorem idle_spent (c : SshConn) (rng n : ℕ) : (idle c rng).spent ≤ c.credit + n := by
  cases h : c.aborted <;> simp [spent, idle, size, h]

theorem abort_spent {n : ℕ} : (abort c rng).spent ≤ n := by
  simp [spent, abort, size, SshConn.abort]

variable {pl : List UInt8}

structure Paid (pl : List UInt8) (c : SshConn) (t : Turn) : Prop extends Calm c t where
  spent : t.spent ≤ c.credit + (pl.length + 120)

theorem KeysKept.paid (h : KeysKept c d) (h' : Paid pl d t) : Paid pl c t :=
  ⟨h.calm h'.toCalm, h'.spent.trans (Nat.add_le_add_right h.credit_le _)⟩

theorem paid_idle : Paid pl c (.idle c rng) := ⟨calm_idle, idle_spent _ _ _⟩

theorem paid_emit (h : sshEmit env room c rng payload = some e)
    (hlen : payload.length ≤ pl.length + 64) : Paid pl c ⟨e.conn, e.rng, [.sent payload e.wire]⟩ := by
  refine ⟨calm_emit h, ?_⟩
  have hwire := emit_length h
  have hle := sealedLen_le c payload.length
  have hcredit := (emit_kept h).credit_le
  simp only [spent, size, outBytes, flatMap_cons, flatMap_nil, SshEvent.bytes, append_nil]
  split_ifs <;> omega

theorem answer_paid {rep : Option (List UInt8)}
    (h : ∀ payload, rep = some payload → payload.length ≤ pl.length + 64) :
    Paid pl c (answer env room c rng rep) := by
  unfold answer
  split
  · exact paid_idle
  rename_i payload
  split
  · exact ⟨calm_abort, abort_spent⟩
  · rename_i e he
    exact paid_emit he (h payload rfl)

theorem answerAuth_paid (h : payload.length ≤ 64) :
    Paid pl c (answerAuth env room c rng payload) := by
  unfold answerAuth
  split
  · exact paid_idle
  · rename_i e he
    exact paid_emit he (h.trans (Nat.le_add_left _ _))

theorem put_paid {cap : ℕ} {buf : Option (List UInt8)} {bytes : List UInt8} (h : cap ≤ 64) :
    Paid pl c (answer env room c rng (sshPutBytes cap buf bytes)) :=
  answer_paid fun _ hput => (length_of_putBytes hput).trans (h.trans (Nat.le_add_left _ _))

theorem reply_paid {msg : UInt8} {chan : UInt32} :
    Paid pl c (answer env room c rng (channelReply msg chan)) := by
  unfold channelReply sshPutU32
  exact put_paid (by decide)

theorem captureExec_kept (c : SshConn) (pl rtype : List UInt8) (off : ℕ) :
    KeysKept c (captureExec c pl rtype off) := by
  unfold captureExec
  split
  · split
    · split
      · exact { }
      · exact .refl c
    · exact .refl c
  · exact .refl c

theorem onUserauthRequest_paid : Paid pl c (onUserauthRequest env room c rng pl) := by
  have hauth : KeysKept c { c with phase := .auth } :=
    { greeted := (fun h => by cases h), keyed := fun _ => rfl, auth := fun _ => rfl }
  refine turn_ite (hauth.paid (answerAuth_paid (by decide))) ?_
  refine KeysKept.paid ?_ (answerAuth_paid (by decide))
  split
  · exact { greeted := (fun h => by cases h), keyed := fun _ => rfl, auth := fun _ => rfl }
  · exact hauth

theorem onChannelOpen_paid : Paid pl c (onChannelOpen env room c rng pl) := by
  unfold onChannelOpen
  split
  · exact paid_idle
  rename_i sender win _
  have hset : KeysKept c { c with peerChan := sender, peerWindow := win } :=
    { }
  simp only [foldl_cons, foldl_nil, sshPutU32]
  exact hset.paid (put_paid (by decide))

theorem onWindowAdjust_paid : Paid pl c (onWindowAdjust c rng pl) := by
  unfold onWindowAdjust
  split
  · exact paid_idle
  rename_i add _
  have hset : KeysKept c { c with peerWindow := c.peerWindow + add } := { }
  exact hset.paid paid_idle

theorem channelData_length {chan : UInt32} {pl data payload : List UInt8} {off : ℕ}
    (h : ((sshRdU32 pl 1).bind fun r => sshRdStr pl r.2) = some (data, off))
    (hpayload : channelDataReply chan data = some payload) : payload.length ≤ pl.length := by
  obtain ⟨⟨recip, o⟩, ho, hdata⟩ := Option.bind_eq_some_iff.mp h
  have hbounds := rdStr_bounds hdata
  have hoff := rdU32_off ho
  unfold channelDataReply sshPutString sshPutU32 sshPutByte at hpayload
  obtain ⟨b₁, hb₁, rfl, -⟩ := putBytes_some hpayload
  obtain ⟨b₂, hb₂, rfl, -⟩ := putBytes_some hb₁
  obtain ⟨b₃, hb₃, rfl, -⟩ := putBytes_some hb₂
  obtain ⟨b₄, hb₄, rfl, -⟩ := putBytes_some hb₃
  obtain ⟨⟩ := hb₄
  simp only [length_append, length_nil, length_singleton, u32Bytes_length]
  dsimp only at hbounds
  omega

theorem onChannelData_paid : Paid pl c (onChannelData env flags room c rng pl) := by
  unfold onChannelData
  split
  · exact paid_idle
  rename_i data off hdata
  refine turn_ite paid_idle (turn_ite ?_ (answer_paid fun payload hpayload => ?_))
  · exact ⟨⟨.refl c, forall_mem_singleton.mpr rfl⟩, idle_spent c rng _⟩
  · exact (channelData_length hdata hpayload).trans (Nat.le_add_right _ _)

theorem onChannelClose_paid : Paid pl c (onChannelClose env flags room c rng) := by
  have hreply : Paid pl c (answer env room c rng (channelReply msgChannelClose c.peerChan)) :=
    reply_paid
  refine turn_ite hreply ⟨⟨hreply.toKeysKept.trans ?_, hreply.quiet⟩, hreply.spent⟩
  exact { }

def asksShell (pl : List UInt8) : Bool :=
  pl.headD 0 == msgChannelRequest && (channelRequestType pl).any fun r => isShellRequest r.1

structure SealedTurn (pl : List UInt8) (c : SshConn) (t : Turn) : Prop where
  kept : KeysKept { c with shellStartPending := t.conn.shellStartPending } t.conn
  asked : t.conn.shellStartPending = true → c.shellStartPending = true ∨ asksShell pl = true
  quiet : ∀ e ∈ t.events, e.quiet = true

structure SealedPaid (pl : List UInt8) (c : SshConn) (t : Turn) : Prop extends SealedTurn pl c t where
  spent : t.spent ≤ c.credit + (pl.length + 120)

theorem Paid.sealed (h : Paid pl c t) : SealedPaid pl c t := by
  refine ⟨⟨{ h.toKeysKept with pending := rfl }, ?_, h.quiet⟩, h.spent⟩
  rw [h.pending]
  exact .inl

theorem KeysKept.starts {start : Bool} (h : KeysKept c d)
    (h' : Paid pl { d with shellActive := true, shellStartPending := start } t)
    (hasks : asksShell pl = true) : SealedPaid pl c t := by
  have hmark : KeysKept { c with shellStartPending := start }
      { d with shellActive := true, shellStartPending := start } := { h with pending := rfl }
  exact ⟨⟨{ hmark.trans h'.toKeysKept with pending := rfl }, fun _ => .inr hasks, h'.quiet⟩,
    (hmark.paid h').spent⟩

theorem winchEvents_cases (flags : ShellFlags) (pl rtype : List UInt8) (off : ℕ) :
    winchEvents flags pl rtype off = [] ∨
      ∃ cols rows, winchEvents flags pl rtype off = [.winch cols rows] := by
  unfold winchEvents
  split
  · split
    · split
      · exact .inr ⟨_, _, rfl⟩
      · exact .inl rfl
    · exact .inl rfl
  · exact .inl rfl

theorem onChannelRequest_sealed (hmsg : pl.headD 0 = msgChannelRequest) :
    SealedPaid pl c (onChannelRequest env flags room c rng pl) := by
  simp only [onChannelRequest]
  split
  · exact paid_idle.sealed
  rename_i rtype off htype
  -- the window size is told before the reply, whatever that is
  have hwinch : ∀ (off : ℕ) (t : Turn), SealedPaid pl c t → SealedPaid pl c
      { t with events := winchEvents flags pl rtype off ++ t.events } := by
    intro off t h
    rcases winchEvents_cases flags pl rtype off with hnone | ⟨cols, rows, hone⟩
    · rwa [hnone]
    · rw [hone]
      exact ⟨⟨h.kept, h.asked, forall_mem_cons.mpr ⟨rfl, h.quiet⟩⟩, h.spent⟩
  have hreply : ∀ (want : Bool) (d : SshConn) (msg : UInt8), Paid pl d
      (if want then answer env room d rng (channelReply msg d.peerChan) else .idle d rng) :=
    fun want d msg => turn_ite reply_paid paid_idle
  have hexec := fun off' => captureExec_kept c pl rtype off'
  refine hwinch _ _ (turn_ite ((hexec _).paid (hreply _ _ _)).sealed ?_)
  split
  · rename_i hshell
    have hasks : asksShell pl = true := by
      simp only [asksShell, hmsg, htype, Option.any_some, hshell, beq_self_eq_true, Bool.and_self]
    exact (hexec _).starts (hreply _ _ _) hasks
  · exact ((hexec _).paid (hreply _ _ _)).sealed

theorem handleSealed_sealed (env : Env) (flags : ShellFlags) (room : Option ℕ) (c : SshConn)
    (rng : ℕ) (pl : List UInt8) : SealedPaid pl c (handleSealed env flags room c rng pl) := by
  have hglobal : Paid pl c (onGlobalRequest env room c rng pl) :=
    turn_ite (put_paid (by decide)) paid_idle
  refine turn_ite (put_paid le_rfl).sealed ?_
  refine turn_ite onUserauthRequest_paid.sealed (turn_ite hglobal.sealed ?_)
  refine turn_ite onChannelOpen_paid.sealed ?_
  split
  · rename_i hmsg
    exact onChannelRequest_sealed hmsg
  · refine turn_ite onWindowAdjust_paid.sealed ?_
    refine turn_ite onChannelData_paid.sealed ?_
    exact turn_ite onChannelClose_paid.sealed paid_idle.sealed

inductive KexOutcome (c : SshConn) (t : Turn) : Prop
  | stopped (h : Calm c t)
  | done (h : Untouched c t.conn) (hphase : t.conn.phase.keyed = true) (rep wire wire' : List UInt8)
      (hevents : t.events = [.sent rep wire, .sent [msgNewkeys] wire', .keyed t.conn.receiveKeys])

theorem KexOutcome.untouched (h : KexOutcome c t) : Untouched c t.conn := by
  cases h with
  | stopped h => exact h.toUntouched
  | done h _ _ _ _ _ => exact h

theorem KeysKept.outcome (h : KeysKept c d) (h' : KexOutcome d t) : KexOutcome c t := by
  cases h' with
  | stopped h' => exact .stopped (h.calm h')
  | done h' hphase rep wire wire' hevents =>
    exact .done (h.toUntouched.trans h') hphase rep wire wire' hevents

@[mk_iff]
structure KexPaid (c : SshConn) (t : Turn) : Prop where
  outcome : KexOutcome c t
  spent : t.spent ≤ kexCost

theorem kexPaid_abort : KexPaid c (.abort c rng) := ⟨.stopped calm_abort, abort_spent⟩

theorem KeysKept.kexPaid (h : KeysKept c d) (h' : KexPaid d t) : KexPaid c t :=
  ⟨h.outcome h'.outcome, h'.spent⟩

theorem finishKex_paid {rep : List UInt8} (h : c.phase ≠ .auth) (hrep : rep.length ≤ 2048) :
    KexPaid c (finishKex env room c rng rep) := by
  have hkdf : ∀ d : SshConn, Untouched d (sshKdf env d) := by
    intro d
    unfold sshKdf
    split
    · exact { }
    · split <;> exact { }
  simp only [finishKex]
  split
  · exact kexPaid_abort
  rename_i e he
  have hfirst := calm_emit he
  have hlen := emit_length he
  have hle := sealedLen_le c rep.length
  split
  · refine ⟨.stopped ⟨hfirst.toKeysKept.trans (abort_kept _), hfirst.quiet⟩, ?_⟩
    simp only [spent, size, SshConn.abort, if_true, outBytes, flatMap_cons,
      flatMap_nil, SshEvent.bytes, append_nil, kexCost]
    omega
  rename_i e' he'
  have hsecond := hfirst.toKeysKept.trans (emit_kept he')
  have hkeys := hsecond.toUntouched.trans (hkdf e'.conn)
  refine ⟨.done ?_ rfl rep _ _ rfl, ?_⟩
  · exact { hkeys with
      greeted := fun hfresh => by cases hfresh
      keyed := fun _ => rfl
      auth := fun hauth => absurd hauth h }
  · have hlen' := emit_length he'
    have hle' := sealedLen_le e.conn [msgNewkeys].length
    rw [length_singleton] at hlen' hle'
    simp only [spent, size, outBytes, flatMap_append, flatMap_cons,
      flatMap_nil, SshEvent.bytes, append_nil, length_append, SshConn.credit,
      SshPhase.keyed, if_true, ite_self, kexCost]
    omega

theorem signAndFinish_paid {cap : ℕ} {ks qs : List UInt8} (h : c.phase ≠ .auth)
    (hcap : cap ≤ 2048) : KexPaid c (signAndFinish env room c rng cap ks qs) := by
  simp only [signAndFinish]
  split
  · exact kexPaid_abort
  split
  · exact kexPaid_abort
  · rename_i rep hrep
    exact finishKex_paid h ((length_of_putBytes hrep).trans hcap)

theorem kex_paid {qc : List UInt8} (h : c.phase ≠ .auth) :
    KexPaid c (doKex env room c rng qc) ∧ KexPaid c (doKexHybrid env room c rng qc) := by
  have hstop : ∀ d rng', KeysKept c d → KexPaid c (.abort d rng') :=
    fun d rng' h => h.kexPaid kexPaid_abort
  -- both stop with the keys as they were, or go on to the signature
  constructor
  all_goals
    simp only [doKex, doKexHybrid]
    split
    · exact hstop _ _ { }
    refine turn_ite (hstop _ _ { }) ?_
    split
    · exact hstop _ _ { }
    split
    · exact hstop _ _ { }
    split
    · exact hstop _ _ { }
    · refine KeysKept.kexPaid ?_ (signAndFinish_paid h (by decide))
      exact { }

theorem onKexEcdhInit_outcome (env : Env) (room : Option ℕ) (c : SshConn) (rng : ℕ)
    (pl : List UInt8) : KexOutcome c (onKexEcdhInit env room c rng pl) ∧
      (onKexEcdhInit env room c rng pl).spent ≤ c.credit := by
  unfold onKexEcdhInit
  split
  · exact ⟨.stopped calm_abort, abort_spent⟩
  rename_i hkeyed
  have hauth : c.phase ≠ .auth := fun h => hkeyed (by rw [h]; rfl)
  have hcredit : c.credit = kexCost := if_neg hkeyed
  rw [hcredit, ← kexPaid_iff]
  exact turn_ite (kex_paid hauth).1 (turn_ite (kex_paid hauth).2 kexPaid_abort)

theorem negotiate_untouched (c : SshConn) :
    Untouched c (negotiate c) ∧ (negotiate c).sendEnc = c.sendEnc := by
  simp only [negotiate]
  split
  · exact ⟨{ }, rfl⟩
  rename_i kex hk enc _
  cases (nameList enc).findSome? cipherOf with
  | none => exact ⟨{ }, rfl⟩
  | some choice => cases choice <;> exact ⟨{ }, rfl⟩

theorem onKexinit_same : SameSession c (onKexinit c rng pl).conn := by
  have hnegotiate := (negotiate_untouched { c with ic := pl }).1.toSameSession
  refine kept_ite (abort_kept c).toSameSession (kept_ite (abort_kept c).toSameSession ?_)
  exact { hnegotiate with }

theorem handle_same (env : Env) (flags : ShellFlags) (room : Option ℕ) (c : SshConn) (rng : ℕ)
    (pl : List UInt8) : SameSession c (handle env flags room c rng pl).conn := by
  refine kept_ite onKexinit_same ?_
  refine kept_ite (onKexEcdhInit_outcome env room c rng pl).1.untouched.toSameSession ?_
  refine kept_ite { } (kept_ite ?_ (.refl c))
  have hsealed := (handleSealed_sealed env flags room c rng pl).kept
  exact { hsealed with }

structure Taken (c d : SshConn) (payload : List UInt8) : Prop extends KeysKept c d where
  aborted : d.aborted = c.aborted
  phase : d.phase = c.phase
  clear : d.rx.length + payload.length + 5 ≤ c.rx.length
  tagged : c.recvEnc = true → d.rx.length + payload.length + 21 ≤ c.rx.length

theorem nextPacket_taken (h : sshNextPacket crypto c = .packet d payload) :
    Taken c d payload := by
  have hcases := nextPacket_cases crypto c
  rw [h] at hcases
  cases hcases with
  | packet giv cc total payload hclear hsealed htotal =>
    have hdrop : ({ c with givIn := giv, ccIn := cc }.shifted total).rx.length =
        c.rx.length - total := by simp [SshConn.shifted]
    refine ⟨{ }, rfl, rfl, by omega, fun henc => ?_⟩
    have := hsealed henc
    omega

theorem nextPacket_bad_same (h : sshNextPacket crypto c = .bad d) : SameSession c d := by
  have hcases := nextPacket_cases crypto c
  rw [h] at hcases
  cases hcases
  exact { }

variable {fuel : ℕ}

theorem takePackets_same : SameSession c (takePackets env flags fuel room c rng).conn := by
  induction fuel generalizing c rng room with
  | zero => exact .refl c
  | succ fuel ih =>
    unfold takePackets
    split
    · exact .refl c
    · rename_i d hopen
      exact nextPacket_bad_same hopen
    rename_i d payload hopen
    have hhandle := (nextPacket_taken hopen).toSameSession.trans
      (handle_same env flags room d rng payload)
    exact kept_ite hhandle (hhandle.trans ih)

theorem consume_same : SameSession c (consume env flags room c rng).conn := by
  refine kept_ite takePackets_same ?_
  split
  · exact kept_ite { } { }
  · exact { }
  · refine SameSession.trans ?_ takePackets_same
    exact { idDone := fun _ => rfl }

def IdScan.rest : IdScan → List UInt8
  | .waiting rest | .tooLong rest | .found _ rest => rest

theorem scanId_rest_le (fuel : ℕ) (rx : List UInt8) : (scanId fuel rx).rest.length ≤ rx.length := by
  induction fuel generalizing rx with
  | zero => exact le_rfl
  | succ fuel ih =>
    unfold scanId
    split
    · exact le_rfl
    rename_i line rest hsplit
    have hlt := splitLine_length hsplit
    split
    · exact (ih rest).trans hlt.le
    · split
      · exact le_rfl
      · exact hlt.le

inductive SlotFor (s : Server) (connId : UInt16) (req : List UInt8) : SshSlot × SshConn × Bool → Prop
  | kept (i : SshSlot) (c : SshConn) (hslot : s.slots i = some c) (hid : c.connId = connId) :
      SlotFor s connId req (i, c, false)
  | anew (i : SshSlot) (c : SshConn) (hslot : s.slots i = some c) (hid : c.connId = connId)
      (hreq : req = []) : SlotFor s connId req (i, .init connId, true)
  | evict (hfind : sshFind s connId = none) :
      SlotFor s connId req (sshEvict s, .init connId, true)

theorem sshSlot_for (s : Server) (connId : UInt16) (req : List UInt8) :
    SlotFor s connId req (sshSlot s connId (req.length == 0)) := by
  unfold sshSlot
  rcases hfind : sshFind s connId with _ | i
  · exact .evict hfind
  obtain ⟨c, hslot, hid⟩ := (Option.any_eq_true _ _).mp (Slots.first_some hfind)
  have hid := beq_iff_eq.mp hid
  dsimp only
  split_ifs with hreq
  · exact .anew i c hslot hid (length_eq_zero_iff.mp (beq_iff_eq.mp hreq))
  · rw [hslot]
    exact .kept i c hslot hid

end SotOs.Synth
