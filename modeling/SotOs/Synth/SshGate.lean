import SotOs.Lib.History
import SotOs.Synth.SshKept

/-! The order a session insists on: no reply to a key exchange without the client's KEXINIT, no
message behind the encryption without derived keys, no shell without a login. -/

namespace SotOs.Synth
open History Machine Function List
variable {env : Env} {flags : ShellFlags} {room : Option ℕ} {c : SshConn} {rng : ℕ}

/-- The tag of the packet at the front of the buffer is right under these keys, and the packet holds
this payload. -/
def Authentic (crypto : Crypto) (keys : ReceiveKeys) (c : SshConn) (payload : List UInt8) : Prop :=
  ∃ n, if keys.cipherGcm then
      ∃ key, keys.gcmIn = some key ∧
        let r := crypto.gcm false key c.givIn (c.rx.take 4) ((c.rx.drop 4).take n)
        r.2 = (c.rx.drop (4 + n)).take 16 ∧ unpad r.1 = some payload
    else if keys.cipherChacha then
      crypto.poly1305 (c.rx.take (4 + n)) (cc20PolyKey crypto keys.cc20C2s c.seqIn) =
          (c.rx.drop (4 + n)).take 16 ∧
        unpad (crypto.chacha (keys.cc20C2s.take 32) (cc20Iv c.seqIn) 1 ((c.rx.drop 4).take n)) =
          some payload
    else
      let r := crypto.aesCtr keys.cin c.ivIn c.ccIn (c.rx.take (4 + n))
      crypto.hmac keys.macIn (u32Bytes c.seqIn ++ r.1) = (c.rx.drop (4 + n)).take 32 ∧
        unpad (r.1.drop 4) = some payload

theorem openWith_packet {head tag pktlen : ℕ} {inRange : Bool} {finish : Opened} {d : SshConn}
    {payload : List UInt8} (h : openWith c head tag pktlen inRange finish = .packet d payload) :
    finish = .packet d payload := by
  unfold openWith at h
  split_ifs at h
  exact h

theorem of_packet {total : ℕ} {body : List UInt8} {d : SshConn} {payload : List UInt8}
    (h : Opened.of c total body = .packet d payload) : unpad body = some payload := by
  unfold Opened.of at h
  split at h
  · cases h
  · rename_i p hp
    cases h
    exact hp

section
variable {crypto : Crypto} {pktlen : ℕ} {d : SshConn} {payload : List UInt8}

theorem gcmFinish_authentic (hgcm : c.cipherGcm = true)
    (h : gcmFinish crypto c pktlen = .packet d payload) :
    Authentic crypto c.receiveKeys c payload := by
  simp only [gcmFinish] at h
  split at h
  · cases h
  · split at h
    · cases h
    · rename_i key hkey
      split at h
      · cases h
      · rename_i htag
        refine ⟨pktlen, ?_⟩
        rw [if_pos (show c.receiveKeys.cipherGcm = true from hgcm)]
        exact ⟨key, hkey, not_not.mp htag, of_packet h⟩

theorem cc20Finish_authentic (hgcm : ¬c.cipherGcm = true) (hchacha : c.cipherChacha = true)
    (h : cc20Finish crypto c pktlen = .packet d payload) :
    Authentic crypto c.receiveKeys c payload := by
  simp only [cc20Finish] at h
  split at h
  · cases h
  · rename_i htag
    split at h
    · cases h
    · refine ⟨pktlen, ?_⟩
      rw [if_neg (show ¬c.receiveKeys.cipherGcm = true from hgcm),
        if_pos (show c.receiveKeys.cipherChacha = true from hchacha)]
      exact ⟨not_not.mp htag, of_packet h⟩

theorem ctrFinish_authentic (hgcm : ¬c.cipherGcm = true) (hchacha : ¬c.cipherChacha = true)
    (h : ctrFinish crypto c pktlen = .packet d payload) :
    Authentic crypto c.receiveKeys c payload := by
  simp only [ctrFinish] at h
  split at h
  · cases h
  · rename_i htag
    refine ⟨pktlen, ?_⟩
    rw [if_neg (show ¬c.receiveKeys.cipherGcm = true from hgcm),
      if_neg (show ¬c.receiveKeys.cipherChacha = true from hchacha)]
    exact ⟨not_not.mp htag, of_packet h⟩

theorem nextPacket_authentic (henc : c.recvEnc = true)
    (h : sshNextPacket crypto c = .packet d payload) :
    Authentic crypto c.receiveKeys c payload := by
  unfold sshNextPacket at h
  rw [if_neg (by simp [henc])] at h
  split at h
  · rename_i hgcm
    exact gcmFinish_authentic hgcm (openWith_packet h)
  · rename_i hgcm
    split at h
    · rename_i hchacha
      exact cc20Finish_authentic hgcm hchacha (openWith_packet h)
    · rename_i hchacha
      exact ctrFinish_authentic hgcm hchacha (openWith_packet h)

end

def SshEvent.isKexinit : SshEvent → Bool
  | .got _ q => q.headD 0 == msgKexinit
  | _ => false

def SshEvent.isKeyed : SshEvent → Bool
  | .keyed _ => true
  | _ => false

def SshEvent.isSuccess : SshEvent → Bool
  | .sent p _ => p == [msgUserauthSuccess]
  | _ => false

def KexinitSeen (log : List SshEvent) : Prop := ∃ e ∈ log, e.isKexinit = true

def KeysDerived (log : List SshEvent) : Prop := ∃ e ∈ log, e.isKeyed = true

def LoggedIn (log : List SshEvent) : Prop := ∃ e ∈ log, e.isSuccess = true

instance (log : List SshEvent) : Decidable (KexinitSeen log) :=
  inferInstanceAs (Decidable (∃ e ∈ log, e.isKexinit = true))

instance (log : List SshEvent) : Decidable (KeysDerived log) :=
  inferInstanceAs (Decidable (∃ e ∈ log, e.isKeyed = true))

instance (log : List SshEvent) : Decidable (LoggedIn log) :=
  inferInstanceAs (Decidable (∃ e ∈ log, e.isSuccess = true))

theorem exists_append {p : SshEvent → Bool} {log : List SshEvent} (h : ∃ e ∈ log, p e = true)
    {more : List SshEvent} : ∃ e ∈ log ++ more, p e = true := by
  obtain ⟨e, hmem, he⟩ := h
  exact ⟨e, mem_append_left _ hmem, he⟩

variable {log : List SshEvent}

theorem KexinitSeen.append (h : KexinitSeen log) (more : List SshEvent) :
    KexinitSeen (log ++ more) := exists_append h

theorem KeysDerived.append (h : KeysDerived log) (more : List SshEvent) :
    KeysDerived (log ++ more) := exists_append h

theorem LoggedIn.append (h : LoggedIn log) (more : List SshEvent) :
    LoggedIn (log ++ more) := exists_append h

theorem keysDerived_iff : KeysDerived log ↔ ∃ keys, .keyed keys ∈ log := by
  constructor
  · rintro ⟨e, hmem, he⟩
    cases e with
    | keyed keys => exact ⟨keys, hmem⟩
    | _ => cases he
  · rintro ⟨keys, hmem⟩
    exact ⟨_, hmem, rfl⟩

def gated (q : List UInt8) : Bool :=
  let msg := q.headD 0
  msg == 5 || msg == 6 || (50 ≤ msg && msg ≤ 127)

def TakesEffect (env : Env) (c : SshConn) (q : List UInt8) : Prop :=
  ∃ d flags room rng, sshNextPacket env.crypto c = .packet d q ∧
    handle env flags room d rng q ≠ .idle d rng

def Gate (env : Env) (log : List SshEvent) : SshEvent → Prop
  | .sent p _ => p.headD 0 = msgKexEcdhReply → KexinitSeen log
  | .got c q => gated q = true → TakesEffect env c q →
      .keyed c.receiveKeys ∈ log ∧ Authentic env.crypto c.receiveKeys c q
  | _ => True

/-- KEXINIT before KEX_ECDH_INIT, NEWKEYS once keys are derived, a shell once logged in. -/
def InOrder (log : List SshEvent) : SshEvent → Prop
  | .got _ q => (q.headD 0 = msgKexEcdhInit → KexinitSeen log) ∧
      (q.headD 0 = msgNewkeys → KeysDerived log) ∧ (asksShell q = true → LoggedIn log)
  | _ => True

instance (log : List SshEvent) (e : SshEvent) : Decidable (InOrder log e) :=
  match e with
  | .got _ _ => inferInstanceAs (Decidable ((_ → _) ∧ (_ → _) ∧ (_ → _)))
  | .idLine _ | .sent _ _ | .keyed _ | .shellIn _ | .winch _ _ => .isTrue trivial

variable {q : List UInt8} {msg : UInt8} {es : List SshEvent} {t : Turn} {cap : ℕ}
  {b : Option (List UInt8)} {call : SshCall}

theorem gated_ne (hq : gated q = true) (hmsg : gated [msg] = false) : q.headD 0 ≠ msg := by
  rintro rfl
  exact Bool.false_ne_true (hmsg.symm.trans hq)

theorem recvEnc_of_effect (hq : gated q = true) (h : TakesEffect env c q) : c.recvEnc = true := by
  obtain ⟨d, flags, room, rng, hopen, heffect⟩ := h
  rw [← (nextPacket_taken hopen).recvEnc]
  by_contra hclear
  refine heffect ?_
  unfold handle
  dsimp only
  rw [if_neg (gated_ne hq (by decide)), if_neg (gated_ne hq (by decide)),
    if_neg (gated_ne hq (by decide)), if_neg hclear]

structure Faithful (c : SshConn) (log : List SshEvent) : Prop where
  derived : ∀ keys, .keyed keys ∈ log →
    c.phase.keyed = true ∧ c.receiveKeys = keys ∧ KexinitSeen log
  encrypted : c.recvEnc = true ∨ c.sendEnc = true → KeysDerived log
  pending : c.shellStartPending = true → LoggedIn log

variable {connId : UInt16} {req : List UInt8}

theorem faithful_init : Faithful (.init connId) [] :=
  ⟨fun _ h => absurd h not_mem_nil, fun h => by simp [SshConn.init] at h,
    fun h => by simp [SshConn.init] at h⟩

section
variable {d : SshConn} {log : List SshEvent}

theorem Faithful.kexinit (h : Faithful c log) (henc : c.recvEnc = true ∨ c.sendEnc = true) :
    KexinitSeen log := by
  obtain ⟨keys, hmem⟩ := keysDerived_iff.mp (h.encrypted henc)
  exact (h.derived keys hmem).2.2

theorem Faithful.keys (h : Faithful c log) (henc : c.recvEnc = true) :
    .keyed c.receiveKeys ∈ log := by
  obtain ⟨keys, hmem⟩ := keysDerived_iff.mp (h.encrypted (.inl henc))
  rw [(h.derived keys hmem).2.1]
  exact hmem

theorem mem_quiet (hes : ∀ e ∈ es, e.quiet = true) {keys : ReceiveKeys} :
    .keyed keys ∉ es := fun hmem => Bool.false_ne_true (hes _ hmem)

theorem Faithful.more (h : Faithful c log) (hkeys : ∀ keys, .keyed keys ∉ es) :
    Faithful c (log ++ es) := by
  refine ⟨fun keys hmem => ?_, fun henc => (h.encrypted henc).append es,
    fun hp => (h.pending hp).append es⟩
  have hold := (mem_append.mp hmem).resolve_right (hkeys keys)
  obtain ⟨hphase, heq, hseen⟩ := h.derived keys hold
  exact ⟨hphase, heq, hseen.append es⟩

theorem Faithful.kept (h : Faithful c log) (hkept : KeysKept c d) : Faithful d log := by
  refine ⟨fun keys hmem => ?_, ?_, ?_⟩
  · obtain ⟨hphase, heq, hseen⟩ := h.derived keys hmem
    exact ⟨hkept.keyed hphase, hkept.receiveKeys.trans heq, hseen⟩
  · rw [hkept.recvEnc, hkept.sendEnc]
    exact h.encrypted
  · rw [hkept.pending]
    exact h.pending

theorem Faithful.calm (h : Faithful c log) (ht : Calm c t) : Faithful t.conn (log ++ t.events) :=
  (h.kept ht.toKeysKept).more fun _ => mem_quiet ht.quiet

theorem quiet_gate (hseen : KexinitSeen log) (hes : ∀ e ∈ es, e.quiet = true) :
    Along (Gate env) log es := by
  refine along_of_forall fun e he more => ?_
  have hquiet := hes e he
  cases e with
  | sent p wire => exact fun _ => hseen.append more
  | got c q => cases hquiet
  | _ => trivial

structure Passed (env : Env) (log : List SshEvent) (t : Turn) : Prop where
  gate : Along (Gate env) log t.events
  faithful : Faithful t.conn (log ++ t.events)

theorem passed_calm (h : Faithful c log) (hseen : t.events ≠ [] → KexinitSeen log) (ht : Calm c t) :
    Passed env log t := by
  refine ⟨?_, h.calm ht⟩
  cases hes : t.events with
  | nil => exact along_nil
  | cons e es =>
    rw [← hes]
    exact quiet_gate (hseen (by simp [hes])) ht.quiet

theorem passed_kex (h : Faithful c log) (hseen : KexinitSeen log) (hfresh : c.phase.keyed = false)
    (ht : KexOutcome c t) : Passed env log t := by
  cases ht with
  | stopped ht => exact passed_calm h (fun _ => hseen) ht
  | done huntouched hphase rep wire wire' hevents =>
    refine ⟨?_, fun keys hmem => ?_, fun _ => ?_, fun hp => ?_⟩
    · rw [hevents]
      exact ⟨fun _ => hseen, fun _ => hseen.append _, trivial, trivial⟩
    · refine ⟨hphase, ?_, hseen.append _⟩
      rcases mem_append.mp hmem with hold | hnew
      · rw [(h.derived keys hold).1] at hfresh
        cases hfresh
      · rw [hevents] at hnew
        have heq : keys = t.conn.receiveKeys := by simpa using hnew
        exact heq.symm
    · exact keysDerived_iff.mpr ⟨t.conn.receiveKeys, by simp [hevents]⟩
    · exact (h.pending (huntouched.pending ▸ hp)).append _

theorem onKexinit_passed (h : Faithful c log) : Passed env log (onKexinit c rng q) := by
  have hstop : Passed env log (Turn.abort c rng) :=
    passed_calm h (fun hne => absurd rfl hne) calm_abort
  unfold onKexinit
  split
  · exact hstop
  rename_i hphase
  refine turn_ite hstop ⟨along_nil, ?_⟩
  obtain ⟨huntouched, hsend⟩ := negotiate_untouched { c with ic := q }
  refine Faithful.more ⟨fun keys hmem => ?_, fun henc => ?_, fun hp => ?_⟩
    fun _ => not_mem_nil
  -- keys are exchanged once: there are none yet that a new negotiation could spoil
  · exact absurd (h.derived keys hmem).1 hphase
  · exact h.encrypted (henc.imp (huntouched.recvEnc ▸ ·) (hsend ▸ ·))
  · exact h.pending (huntouched.pending ▸ hp)

theorem onKexEcdhInit_passed (h : Faithful c log) (hseen : KexinitSeen log) :
    Passed env log (onKexEcdhInit env room c rng q) := by
  have houtcome := (onKexEcdhInit_outcome env room c rng q).1
  by_cases hphase : c.phase.keyed = true
  · have hstop : onKexEcdhInit env room c rng q = .abort c rng := if_pos hphase
    rw [hstop]
    exact passed_calm h (fun _ => hseen) calm_abort
  · exact passed_kex h hseen (Bool.eq_false_of_not_eq_true hphase) houtcome

theorem onNewkeys_passed (h : Faithful c log) (hkeys : KeysDerived log) :
    Passed env log (onNewkeys c rng) := by
  have hnew : Faithful (onNewkeys c rng).conn log := ⟨h.derived, fun _ => hkeys, h.pending⟩
  exact ⟨along_nil, hnew.more fun _ => not_mem_nil⟩

theorem handleSealed_passed (h : Faithful c log) (henc : c.recvEnc = true)
    (hshell : asksShell q = true → LoggedIn log) :
    Passed env log (handleSealed env flags room c rng q) := by
  have hturn := handleSealed_sealed env flags room c rng q
  generalize handleSealed env flags room c rng q = t at hturn ⊢
  have hmark : Faithful { c with shellStartPending := t.conn.shellStartPending } log :=
    ⟨h.derived, h.encrypted, fun hp => (hturn.asked hp).elim h.pending hshell⟩
  exact ⟨quiet_gate (h.kexinit (.inl henc)) hturn.quiet,
    (hmark.kept hturn.kept).more fun _ => mem_quiet hturn.quiet⟩

theorem handle_passed (h : Faithful c log) (hinit : q.headD 0 = msgKexEcdhInit → KexinitSeen log)
    (hnewkeys : q.headD 0 = msgNewkeys → KeysDerived log)
    (hshell : asksShell q = true → LoggedIn log) :
    Passed env log (handle env flags room c rng q) := by
  unfold handle
  dsimp only
  split
  · exact onKexinit_passed h
  split
  · rename_i hmsg
    exact onKexEcdhInit_passed h (hinit hmsg)
  split
  · rename_i hmsg
    exact onNewkeys_passed h (hnewkeys hmsg)
  split
  · rename_i henc
    exact handleSealed_passed h henc hshell
  · exact passed_calm h (fun hne => absurd rfl hne) calm_idle

theorem Passed.andThen {u : Turn} (ht : Passed env log t) (hu : Passed env (log ++ t.events) u) :
    Passed env log (t.andThen u) :=
  ⟨along_append.mpr ⟨ht.gate, hu.gate⟩, by simpa [Turn.andThen] using hu.faithful⟩

theorem got_passed (h : Faithful c log) (hopen : sshNextPacket env.crypto c = .packet d q)
    (horder : InOrder log (.got c q)) (ht : t = handle env flags room d rng q) :
    Passed env log { t with events := .got c q :: t.events } := by
  have hd : Faithful d (log ++ [.got c q]) :=
    (h.kept (nextPacket_taken hopen).toKeysKept).more fun keys => by simp
  have hturn : Passed env (log ++ [.got c q]) t := by
    rw [ht]
    exact handle_passed hd (fun hmsg => (horder.1 hmsg).append _)
      (fun hmsg => (horder.2.1 hmsg).append _) fun hshell => (horder.2.2 hshell).append _
  refine ⟨⟨fun hq heffect => ?_, hturn.gate⟩, by simpa using hturn.faithful⟩
  have henc := recvEnc_of_effect hq heffect
  exact ⟨h.keys henc, nextPacket_authentic henc hopen⟩

theorem takePackets_passed {fuel : ℕ} (h : Faithful c log)
    (horder : Along InOrder log (takePackets env flags fuel room c rng).events) :
    Passed env log (takePackets env flags fuel room c rng) := by
  induction fuel generalizing c rng room log with
  | zero => exact passed_calm h (fun hne => absurd rfl hne) calm_idle
  | succ fuel ih =>
    unfold takePackets at horder ⊢
    cases hopen : sshNextPacket env.crypto c with
    | more => exact passed_calm h (fun hne => absurd rfl hne) calm_idle
    | bad d =>
      have hcases := nextPacket_cases env.crypto c
      rw [hopen] at hcases
      cases hcases
      refine passed_calm (c := c) h (fun hne => absurd rfl hne) ⟨?_, forall_mem_nil _⟩
      exact { ended := fun _ => rfl }
    | packet d q =>
      simp only [hopen] at horder ⊢
      obtain ⟨t, ht⟩ : ∃ t, t = handle env flags room d rng q := ⟨_, rfl⟩
      rw [← ht] at horder ⊢
      split
      · rename_i haborted
        rw [if_pos haborted] at horder
        exact got_passed h hopen horder.1 ht
      · rename_i haborted
        rw [if_neg haborted] at horder
        obtain ⟨hfirst, hrest⟩ := along_append.mp horder
        have hgot := got_passed h hopen hfirst.1 ht
        exact hgot.andThen (ih hgot.faithful hrest)

theorem consume_passed (h : Faithful c log)
    (horder : Along InOrder log (consume env flags room c rng).events) :
    Passed env log (consume env flags room c rng) := by
  have hrx : ∀ rx : List UInt8, KeysKept c { c with rx := rx } :=
    fun _ => { }
  have hstop : ∀ rx, Passed env log (Turn.abort { c with rx := rx } rng) :=
    fun rx => passed_calm h (fun hne => absurd rfl hne) ((hrx rx).calm calm_abort)
  unfold consume at horder ⊢
  by_cases hid : c.idDone = true
  · rw [if_pos hid] at horder ⊢
    exact takePackets_passed h horder
  rw [if_neg hid] at horder ⊢
  cases hscan : scanId c.rx.length c.rx with
  | waiting rest =>
    refine turn_ite (hstop rest) ?_
    exact passed_calm h (fun hne => absurd rfl hne) ((hrx rest).calm calm_idle)
  | tooLong rest => exact hstop rest
  | found id rest =>
    rw [hscan] at horder
    refine takePackets_passed (h.kept ?_) horder
    exact { idDone := fun _ => rfl }

def Leads (msg : UInt8) (b : Option (List UInt8)) : Prop := ∀ r, b = some r → r.head? = some msg

theorem leads_putBytes (h : Leads msg b) (p : List UInt8) : Leads msg (sshPutBytes cap b p) := by
  intro r hr
  obtain ⟨b', hb, rfl, -⟩ := putBytes_some hr
  have hhead := h b' hb
  cases b' with
  | nil => cases hhead
  | cons x xs => exact hhead

theorem leads_putCstr (h : Leads msg b) (s : String) :
    Leads msg (sshPutCstr cap b s) := leads_putBytes (leads_putBytes h _) _

theorem leads_putCstrs (h : Leads msg b) (names : List String) :
    Leads msg (names.foldl (sshPutCstr cap) b) := by
  induction names generalizing b with
  | nil => exact h
  | cons s names ih => exact ih (leads_putCstr h s)

theorem serverKexinit_leads {cookie : List UInt8} : Leads msgKexinit (serverKexinit cookie) := by
  have hfirst : Leads msgKexinit (sshPutByte sshIsMax (some []) msgKexinit) := by
    intro r hr
    obtain ⟨b', hb, rfl, -⟩ := putBytes_some hr
    cases hb
    rfl
  exact leads_putBytes (leads_putBytes (leads_putCstrs (leads_putBytes hfirst cookie) _) _) _

theorem greetWith_passed (h : Faithful c log) (hfresh : c.phase = .fresh)
    {kexinit : Option (List UInt8)} (hleads : Leads msgKexinit kexinit) :
    Passed env log (greetWith env room c rng kexinit) := by
  have hid : Along (Gate env) log [.idLine sshId] := ⟨trivial, trivial⟩
  have hquiet : ∀ keys, .keyed keys ∉ [SshEvent.idLine sshId] := by simp
  unfold greetWith
  split
  · exact passed_calm h (fun hne => absurd rfl hne) calm_abort
  rcases kexinit with _ | p
  · exact ⟨hid, (h.kept (abort_kept c)).more hquiet⟩
  have his : KeysKept c { c with is := p } := { }
  dsimp only
  split
  · exact ⟨hid, (h.kept (his.trans (abort_kept _))).more hquiet⟩
  rename_i e he
  have hsent := his.trans (emit_kept he)
  have hphase : e.conn.phase.keyed = false := by
    obtain ⟨seq, giv, cc, hconn⟩ := emit_conn he
    rw [hconn]
    simp [hfresh, SshPhase.keyed]
  refine ⟨⟨trivial, fun hmsg => ?_, trivial⟩, ?_⟩
  · have hhead := hleads p rfl
    cases p with
    | nil => cases hhead
    | cons x xs =>
      cases hhead
      exact absurd hmsg (show msgKexinit ≠ msgKexEcdhReply by decide)
  · have hgreeted : KeysKept e.conn { e.conn with phase := .idsent } := by
      refine { greeted := (fun h => by cases h), keyed := fun hk => ?_, auth := fun hauth => ?_ }
      · rw [hphase] at hk
        cases hk
      · rw [hauth] at hphase
        cases hphase
    exact (h.kept (hsent.trans hgreeted)).more fun keys => by simp

theorem greeting_passed (h : Faithful c log) : Passed env log (greeting env room c rng) := by
  unfold greeting
  split
  · rename_i hfresh
    exact greetWith_passed h hfresh serverKexinit_leads
  · exact passed_calm h (fun hne => absurd rfl hne) calm_idle

theorem respondOn_passed (h : Faithful c log)
    (horder : Along InOrder log (respondOn env flags room c rng req).events) :
    Passed env log (respondOn env flags room c rng req) := by
  have hgreet : Passed env log (greeting env room c rng) := greeting_passed h
  rw [respondOn_eq] at horder ⊢
  generalize greeting env room c rng = g at hgreet horder ⊢
  split
  · exact passed_calm h (fun hne => absurd rfl hne) calm_idle
  rename_i haborted
  rw [if_neg haborted] at horder
  unfold afterGreeting at horder ⊢
  split
  · exact hgreet
  rename_i hskip
  rw [if_neg hskip] at horder
  split
  · exact ⟨hgreet.gate, hgreet.faithful.kept (abort_kept _)⟩
  rename_i hroom
  rw [if_neg hroom] at horder
  refine hgreet.andThen (consume_passed (hgreet.faithful.kept ?_) (along_append.mp horder).2)
  exact { }

end

structure Watched where
  server : Server
  logs : SshSlot → List SshEvent

def Watched.past (w : Watched) (reply : SshReply) : List SshEvent :=
  match reply.slot with
  | some i => if reply.reset then [] else w.logs i
  | none => []

def watchStep (env : Env) (w : Watched) (call : SshCall) : Watched × SshReply :=
  let r := sshStep env w.server call
  (⟨r.1, match r.2.slot with
    | some i => update w.logs i (w.past r.2 ++ r.2.events)
    | none => w.logs⟩, r.2)

def Watched.init (rng : ℕ) : Watched := ⟨.init rng, fun _ => []⟩

def GateCall (env : Env) (e : Entry Watched SshCall SshReply) : Prop :=
  Along (Gate env) (e.pre.past e.reply) e.reply.events ∧
    ∀ connId, e.input = .takeShellStart connId → e.reply.ret = 1 → LoggedIn (e.pre.past e.reply)

variable (e : Entry Watched SshCall SshReply)

def InOrderCall : Prop :=
  Along InOrder (e.pre.past e.reply) e.reply.events

structure Aside (c : SshConn) (t : Turn) : Prop where
  kept : KeysKept { c with shellStartPending := t.conn.shellStartPending } t.conn
  pending : t.conn.shellStartPending = true → c.shellStartPending = true
  quiet : ∀ e ∈ t.events, e.quiet = true
  encrypted : t.events ≠ [] → c.sendEnc = true

def SshCall.target : SshCall → Option UInt16
  | .respond connId _ _ | .takeShellStart connId | .takeExecCmd connId _ | .takeClientEof connId
  | .emitChannelData connId _ _ | .emitChannelClose connId _ => some connId
  | .shellRingsSetReady _ | .shellSetBusy _ => none

inductive CallCase (env : Env) (s : Server) (call : SshCall) : Server × SshReply → Prop
  | none (s' : Server) (hslots : s'.slots = s.slots) : CallCase env s call (s', .none)
  | frame (i : SshSlot) (c : SshConn) (reset : Bool) (room : Option ℕ) (req : List UInt8) (t : Turn)
      (ret : ℕ) (ht : t = respondOn env s.flags room c s.rng req)
      (connId : UInt16) (outmax : ℕ) (hcall : call = .respond connId req outmax)
      (hslot : SlotFor s connId req (i, c, reset)) :
      CallCase env s call (s.set i t, ⟨some i, reset, t.events, ret, []⟩)
  | aside (i : SshSlot) (c : SshConn) (t : Turn) (ret : ℕ) (data : List UInt8) (ht : Aside c t)
      (hc : s.slots i = some c) (hid : call.target = some c.connId)
      (hshell : ∀ connId, call = .takeShellStart connId → c.shellStartPending = true) :
      CallCase env s call (s.set i t, ⟨some i, false, t.events, ret, data⟩)

variable {s : Server}

theorem onSession_cases {connId : UInt16} {f : SshSlot → SshConn → Server × SshReply}
    (h : ∀ i c, s.slots i = some c → some connId = some c.connId → CallCase env s call (f i c)) :
    CallCase env s call (onSession s connId f) := by
  unfold onSession
  rcases hfind : sshFind s connId with _ | i
  · exact .none s rfl
  obtain ⟨c, hslot, hid⟩ := (Option.any_eq_true _ _).mp (Slots.first_some hfind)
  simp only [hslot]
  exact h i c hslot (congrArg some (beq_iff_eq.mp hid).symm)

theorem aside_kept (h : KeysKept c t.conn) (hevents : t.events = []) : Aside c t := by
  refine ⟨{ h with pending := rfl }, fun hp => h.pending ▸ hp, ?_, fun hne => absurd hevents hne⟩
  rw [hevents]
  exact forall_mem_nil _

theorem aside_emit (h : Calm c t) (hsend : c.sendEnc = true) : Aside c t :=
  ⟨{ h.toKeysKept with pending := rfl }, fun hp => h.pending ▸ hp, h.quiet, fun _ => hsend⟩

theorem emitOn_calm {rep : Option (List UInt8)} (h : emitOn env room c rng rep = some t) :
    Calm c t := by
  obtain ⟨payload, -, hemit⟩ := Option.bind_eq_some_iff.mp h
  obtain ⟨e, he, rfl⟩ := Option.map_eq_some_iff.mp hemit
  exact calm_emit he

variable {outmax : ℕ} {w : Watched}

theorem sshRespond_cases :
    CallCase env s (.respond connId req outmax) (sshRespond env s connId req outmax) :=
  .frame _ _ _ _ req _ _ rfl connId outmax rfl (sshSlot_for s connId req)

theorem sshTakeShellStart_cases :
    CallCase env s (.takeShellStart connId) (sshTakeShellStart s connId) := by
  refine onSession_cases fun i c hslot hid => ?_
  split
  · rename_i hpending
    refine .aside i c _ 1 [] ⟨?_, fun h => absurd h Bool.false_ne_true, forall_mem_nil _,
      fun h => absurd rfl h⟩ hslot hid fun _ _ => hpending
    exact { }
  · exact .none s rfl

theorem sshTakeExecCmd_cases {buflen : ℕ} :
    CallCase env s (.takeExecCmd connId buflen) (sshTakeExecCmd s connId buflen) := by
  refine onSession_cases fun i c hslot hid => ?_
  split
  · exact .none s rfl
  · refine .aside i c _ _ _ (aside_kept ?_ rfl) hslot hid nofun
    exact { }

theorem sshTakeClientEof_cases :
    CallCase env s (.takeClientEof connId) (sshTakeClientEof s connId) := by
  refine onSession_cases fun i c hslot hid => ?_
  split
  · refine .aside i c _ _ _ (aside_kept ?_ rfl) hslot hid nofun
    exact { }
  · exact .none s rfl

theorem sendEnc_of_guard (h : ¬(c.aborted || !c.sendEnc) = true) : c.sendEnc = true := by
  cases hsend : c.sendEnc with
  | true => rfl
  | false => simp [hsend] at h

theorem sshEmitChannelData_cases {data : List UInt8} :
    CallCase env s (.emitChannelData connId data outmax)
      (sshEmitChannelData env s connId data outmax) := by
  refine onSession_cases fun i c hslot hid => ?_
  split
  · exact .none s rfl
  rename_i hguard
  split
  · exact .none s rfl
  split
  · exact .none s rfl
  · rename_i t ht
    exact .aside i c t _ _ (aside_emit (emitOn_calm ht) (sendEnc_of_guard hguard)) hslot hid nofun

theorem sshEmitChannelClose_cases : CallCase env s (.emitChannelClose connId outmax)
      (sshEmitChannelClose env s connId outmax) := by
  refine onSession_cases fun i c hslot hid => ?_
  split
  · exact .none s rfl
  rename_i hguard
  have hsend := sendEnc_of_guard hguard
  split
  · exact .none s rfl
  rename_i t ht
  have hfirst := emitOn_calm ht
  split
  · exact .aside i c t _ _ (aside_emit hfirst hsend) hslot hid nofun
  rename_i t' ht'
  have hsecond := emitOn_calm ht'
  refine .aside i c _ _ _ (aside_emit ⟨?_, ?_⟩ hsend) hslot hid nofun
  · refine (hfirst.toKeysKept.trans hsecond.toKeysKept).trans ?_
    exact { }
  · exact forall_mem_append.mpr ⟨hfirst.quiet, hsecond.quiet⟩

theorem sshStep_cases (env : Env) (s : Server) (call : SshCall) :
    CallCase env s call (sshStep env s call) := by
  cases call with
  | respond connId req outmax => exact sshRespond_cases
  | takeShellStart connId => exact sshTakeShellStart_cases
  | takeExecCmd connId buflen => exact sshTakeExecCmd_cases
  | takeClientEof connId => exact sshTakeClientEof_cases
  | emitChannelData connId data outmax => exact sshEmitChannelData_cases
  | emitChannelClose connId outmax => exact sshEmitChannelClose_cases
  | shellRingsSetReady ready => exact .none _ rfl
  | shellSetBusy busy => exact .none _ rfl

def Watched.Faithful (w : Watched) : Prop :=
  ∀ i c, w.server.slots i = some c → Synth.Faithful c (w.logs i)

theorem faithful_set (hw : w.Faithful) {i : SshSlot} {log : List SshEvent}
    (ht : Faithful t.conn log) : (⟨w.server.set i t, update w.logs i log⟩ : Watched).Faithful := by
  intro j c hc
  by_cases hj : j = i
  · subst hj
    simp only [Server.set, update_self] at hc ⊢
    cases hc
    exact ht
  · simp only [Server.set, update_of_ne hj] at hc ⊢
    exact hw j c hc

theorem aside_passed (h : Faithful c log) (ht : Aside c t) :
    Passed env log t := by
  have hmark : Faithful { c with shellStartPending := t.conn.shellStartPending } log :=
    ⟨h.derived, h.encrypted, fun hp => h.pending (ht.pending hp)⟩
  refine ⟨?_, (hmark.kept ht.kept).more fun _ => mem_quiet ht.quiet⟩
  cases hes : t.events with
  | nil => exact along_nil
  | cons e es =>
    rw [← hes]
    exact quiet_gate (h.kexinit (.inr (ht.encrypted (by simp [hes])))) ht.quiet

theorem watchStep_passed (hw : w.Faithful) (horder : InOrderCall (entry (watchStep env) w call)) :
    GateCall env (entry (watchStep env) w call) ∧ (watchStep env w call).1.Faithful := by
  have hcases := sshStep_cases env w.server call
  simp only [InOrderCall, GateCall, entry, watchStep] at horder ⊢
  generalize sshStep env w.server call = r at hcases horder ⊢
  cases hcases with
  | none s' hslots =>
    refine ⟨⟨along_nil, fun _ _ hret => absurd hret Nat.zero_ne_one⟩, ?_⟩
    intro i c hc
    exact hw i c (hslots ▸ hc)
  | frame i c reset room req t ret ht connId outmax hcall hslot =>
    have hfaithful : Faithful c (w.past ⟨some i, reset, t.events, ret, []⟩) := by
      rcases hslot with ⟨_, _, hc, -⟩ | _ | _
      · exact hw i c hc
      · exact faithful_init
      · exact faithful_init
    have hpassed : Passed env (w.past ⟨some i, reset, t.events, ret, []⟩) t := by
      rw [ht] at horder ⊢
      exact respondOn_passed (by rw [ht] at hfaithful; exact hfaithful) horder
    subst hcall
    exact ⟨⟨hpassed.gate, fun _ hinput => by cases hinput⟩, faithful_set hw hpassed.faithful⟩
  | aside i c t ret data ht hc hid hshell =>
    have hpassed : Passed env (w.logs i) t := aside_passed (hw i c hc) ht
    exact ⟨⟨hpassed.gate, fun connId hinput _ => (hw i c hc).pending (hshell connId hinput)⟩,
      faithful_set hw hpassed.faithful⟩

/-- In every run in which the client keeps the order, every call passes the gates. -/
theorem in_order_gated (env : Env) (rng : ℕ) (calls : List SshCall)
    (horder : ∀ e ∈ trace (watchStep env) (.init rng) calls, InOrderCall e) :
    ∀ e ∈ trace (watchStep env) (.init rng) calls, GateCall env e := by
  have hinit : (Watched.init rng).Faithful := fun i c hc => by cases hc
  have hrun : (∀ e ∈ trace (watchStep env) (.init rng) calls, GateCall env e) ∧
      (exec (watchStep env) (.init rng) calls).Faithful := by
    refine trace_induction_of (watchStep env)
      (P := fun past w => (∀ e ∈ past, GateCall env e) ∧ w.Faithful) (Q := InOrderCall)
      ⟨forall_mem_nil _, hinit⟩ ?_ calls horder
    intro past w call hcall hpast
    obtain ⟨hgate, hfaithful⟩ := watchStep_passed hpast.2 hcall
    exact ⟨forall_mem_append.mpr ⟨hpast.1, forall_mem_singleton.mpr hgate⟩, hfaithful⟩
  exact hrun.1

instance (e : Entry Watched SshCall SshReply) : Decidable (InOrderCall e) :=
  inferInstanceAs (Decidable (Along InOrder _ _))

def clearPacket (msg : UInt8) : List UInt8 := [0, 0, 0, 12, 10, msg] ++ List.replicate 10 0

def orderlyCalls : List SshCall :=
  [.respond 1 [] 65472,
    .respond 1 (ascii "SSH-2.0-x\n" ++ clearPacket msgKexinit ++
      [0, 0, 0, 44, 6, msgKexEcdhInit, 0, 0, 0, 32] ++ List.replicate 38 8 ++
      clearPacket msgNewkeys) 65472]

theorem orderly_exchange : (∃ e ∈ trace (watchStep plainEnv) (.init 0) orderlyCalls,
        ∃ event ∈ e.reply.events, event.isKeyed = true) ∧
      ∀ e ∈ trace (watchStep plainEnv) (.init 0) orderlyCalls, GateCall plainEnv e :=
  ⟨by decide +kernel, in_order_gated plainEnv 0 orderlyCalls (by decide +kernel)⟩

def intruderCalls : List SshCall :=
  -- NEWKEYS straight behind the identification, then a request for a shell under the keys nobody
  -- derived.
  [.shellRingsSetReady true, .respond 1 [] 65472,
    .respond 1 (ascii "SSH-2.0-x\n" ++ clearPacket msgNewkeys ++
      ([0, 0, 0, 28, 12, msgChannelRequest, 0, 0, 0, 0, 0, 0, 0, 5] ++ ascii "shell" ++ [0] ++
        List.replicate 12 0 ++ List.replicate 32 0)) 65472,
    .takeShellStart 1]

theorem shell_without_login :
    ∃ e ∈ trace (watchStep plainEnv) (.init 0) intruderCalls, ¬GateCall plainEnv e := by
  have hrun : ∃ e ∈ trace (watchStep plainEnv) (.init 0) intruderCalls,
      (match e.input with | .takeShellStart _ => true | _ => false) = true ∧ e.reply.ret = 1 ∧
        ¬LoggedIn (e.pre.past e.reply) := by decide +kernel
  obtain ⟨e, hmem, hinput, hret, hlogin⟩ := hrun
  refine ⟨e, hmem, fun hgate => ?_⟩
  cases hcall : e.input with
  | takeShellStart connId => exact hlogin (hgate.2 connId hcall hret)
  | _ =>
    rw [hcall] at hinput
    cases hinput

end SotOs.Synth
