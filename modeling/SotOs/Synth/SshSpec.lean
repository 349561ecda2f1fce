import SotOs.Synth.SshServer

/-! What the parts of the SSH server do, once for each: the size of a packet, how a full reply
buffer shows, that the handlers never look at the reassembly buffer, and what opening a packet takes
from it. -/

namespace SotOs.Synth
open List Option
variable {env : Env} {flags : ShellFlags} {room : Option ℕ} {c : SshConn} {rng : ℕ}

def sealedLen (c : SshConn) (plen : ℕ) : ℕ :=
  if c.sendEnc = false then 4 + (1 + plen + framePad plen)
  else if c.cipherGcm then 4 + (1 + plen + padTo 16 (plen + 1)) + 16
  else if c.cipherChacha then 4 + (1 + plen + padTo 8 (plen + 1)) + 16
  else 4 + (1 + plen + padTo 16 (plen + 5)) + 32

theorem padTo_le (block n : ℕ) (h : 4 ≤ block) : padTo block n ≤ block + 3 := by
  have hmod : (block - n % block) % block < block := Nat.mod_lt _ (by omega)
  simp only [padTo]
  split_ifs <;> omega

theorem framePad_le (plen : ℕ) : framePad plen ≤ 11 := by
  simp only [framePad]
  split_ifs <;> omega

theorem sealedLen_le (c : SshConn) (plen : ℕ) : sealedLen c plen ≤ plen + 56 := by
  have hframe := framePad_le plen
  have hgcm := padTo_le 16 (plen + 1) (by decide)
  have hchacha := padTo_le 8 (plen + 1) (by decide)
  have hctr := padTo_le 16 (plen + 5) (by decide)
  unfold sealedLen
  split_ifs <;> omega

variable {crypto : Crypto} {body : List UInt8}

theorem cc20Seal_length {keys : List UInt8} {seqnr : UInt32} :
    (cc20Seal crypto keys seqnr body).length = 4 + body.length + 16 := by
  simp [cc20Seal, crypto.chacha_length, crypto.poly1305_length]
  omega

theorem gcmSeal_length {key iv : List UInt8} :
    (gcmSeal crypto key iv body).length = 4 + body.length + 16 := by
  simp [gcmSeal, crypto.gcm_length, crypto.gcm_tag_length]
  omega

variable {e : Emitted} {m n head pktlen : ℕ} {p : Prop} {f : Option ℕ → Turn}
  {body line : List UInt8}

variable {payload : List UInt8} {rx : List UInt8}

theorem emit_length (h : sshEmit env room c rng payload = some e) :
    e.wire.length = sealedLen c payload.length := by
  simp only [sshEmit] at h
  unfold sealedLen
  split at h
  · rename_i hclear
    obtain ⟨wire, hwire, rfl⟩ := map_eq_some_iff.mp h
    simp only [sshPktFrame] at hwire
    split_ifs at hwire
    obtain ⟨⟩ := hwire
    simp [hclear]
  · rename_i hclear
    rw [if_neg hclear]
    split at h
    · rename_i hgcm
      rw [if_pos hgcm]
      split at h
      · cases h
      · split_ifs at h
        obtain ⟨⟩ := h
        simp [gcmSeal_length]
    · rename_i hgcm
      rw [if_neg hgcm]
      split at h
      · rename_i hchacha
        rw [if_pos hchacha]
        split_ifs at h
        obtain ⟨⟩ := h
        simp [cc20Seal_length]
      · rename_i hchacha
        rw [if_neg hchacha]
        split_ifs at h
        obtain ⟨⟩ := h
        simp [env.crypto.aesCtr_length, env.crypto.hmac_length]

variable {payload : List UInt8}

theorem emit_room : sshEmit env room c rng payload =
      if allows room (sealedLen c payload.length) then sshEmit env none c rng payload else none := by
  simp only [sshEmit, sealedLen, sshPktFrame, packetBody_length, length_replicate]
  split
  · split_ifs <;> simp_all
  split
  · split
    · split_ifs <;> rfl
    · split_ifs <;> simp_all
  · split <;> split_ifs <;> simp_all

variable {events : List SshEvent}

theorem outBytes_append {events' : List SshEvent} :
    outBytes (events ++ events') = outBytes events ++ outBytes events' := List.flatMap_append

@[simp] theorem outBytes_nil : outBytes [] = [] := rfl

@[simp] theorem roomAfter_none : roomAfter none events = none := rfl

theorem allows_mono (h : allows room n = true) (hmn : m ≤ n) : allows room m = true := by
  cases room with
  | none => rfl
  | some r =>
    simp only [allows, all_some, decide_eq_true_eq] at h ⊢
    omega

theorem allows_roomAfter {events : List SshEvent}
    (h : allows room ((outBytes events).length + n) = true) :
    allows (roomAfter room events) n = true := by
  cases room with
  | none => rfl
  | some r =>
    simp only [allows, roomAfter, map_some, all_some, decide_eq_true_eq] at h ⊢
    omega

def RoomFree (f : Option ℕ → Turn) : Prop :=
  ∀ room, allows room (outBytes (f none).events).length = true → f room = f none

theorem roomFree_const {t : Turn} : RoomFree fun _ => t := fun _ _ => rfl

theorem roomFree_ite [Decidable p] {g : Option ℕ → Turn} (hf : RoomFree f) (hg : RoomFree g) :
    RoomFree fun room => if p then f room else g room := by
  by_cases hp : p
  · simpa only [if_pos hp] using hf
  · simpa only [if_neg hp] using hg

theorem emit_fits (he : sshEmit env none c rng payload = some e)
    (h : allows room e.wire.length = true) : sshEmit env room c rng payload = some e := by
  rw [emit_room, if_pos (emit_length he ▸ h), he]

theorem emit_none (he : sshEmit env none c rng payload = none) :
    sshEmit env room c rng payload = none := by
  rw [emit_room, he]
  exact ite_self none

theorem answer_roomFree {rep : Option (List UInt8)} :
    RoomFree fun room => answer env room c rng rep := by
  intro room h
  simp only [answer] at h ⊢
  rcases rep with _ | payload
  · rfl
  cases he : sshEmit env none c rng payload with
  | none => simp only [emit_none he]
  | some e =>
    simp only [he, outBytes, flatMap_cons, flatMap_nil, SshEvent.bytes,
      append_nil] at h
    simp only [emit_fits he h, he]

theorem answerAuth_roomFree : RoomFree fun room => answerAuth env room c rng payload := by
  intro room h
  simp only [answerAuth] at h ⊢
  rcases he : sshEmit env none c rng payload with _ | e
  · simp only [emit_none he]
  simp only [he, outBytes, flatMap_cons, flatMap_nil, SshEvent.bytes,
    append_nil] at h
  simp only [emit_fits he h]

theorem finishKex_roomFree {rep : List UInt8} :
    RoomFree fun room => finishKex env room c rng rep := by
  intro room h
  simp only [finishKex] at h ⊢
  cases he : sshEmit env none c rng rep with
  | none => simp only [emit_none he]
  | some e =>
    simp only [he, roomAfter_none] at h
    cases he' : sshEmit env none e.conn e.rng [msgNewkeys] with
    | none =>
      simp only [he', outBytes, flatMap_cons, flatMap_nil, SshEvent.bytes,
        append_nil] at h
      simp only [emit_fits he h, roomAfter_none, he', emit_none he']
    | some e' =>
      have hsplit : allows room (e.wire.length + e'.wire.length) = true := by
        simpa [he', outBytes, SshEvent.bytes] using h
      have hfirst := emit_fits he (allows_mono hsplit (Nat.le_add_right _ _))
      have hroom : allows (roomAfter room [.sent rep e.wire]) e'.wire.length = true :=
        allows_roomAfter (by simpa [outBytes, SshEvent.bytes] using hsplit)
      simp only [hfirst, emit_fits he' hroom, roomAfter_none, he']

theorem RoomFree.map (h : RoomFree f) (g : Turn → Turn)
    (hg : ∀ t, (outBytes t.events).length ≤ (outBytes (g t).events).length) :
    RoomFree fun room => g (f room) := by
  intro room hroom
  have hfits := h room (allows_mono hroom (hg _))
  simp only [hfits]

def Turn.withRx (t : Turn) (rx : List UInt8) : Turn := { t with conn := { t.conn with rx := rx } }

def Emitted.withRx (e : Emitted) (rx : List UInt8) : Emitted :=
  { e with conn := { e.conn with rx := rx } }

structure Plain (rx : List UInt8) (f g : Option ℕ → Turn) : Prop where
  free : RoomFree f
  moved : ∀ room, g room = (f room).withRx rx

section
variable {rx : List UInt8}

theorem plain_const {t : Turn} : Plain rx (fun _ => t) fun _ => t.withRx rx :=
  ⟨roomFree_const, fun _ => rfl⟩

theorem plain_ite [Decidable p] {f' g g' : Option ℕ → Turn} (h : Plain rx f g)
    (h' : Plain rx f' g') :
    Plain rx (fun room => if p then f room else f' room) fun room => if p then g room else g' room := by
  refine ⟨roomFree_ite h.free h'.free, fun room => ?_⟩
  split_ifs
  · exact h.moved room
  · exact h'.moved room

theorem emit_rx : sshEmit env room { c with rx := rx } rng payload =
      (sshEmit env room c rng payload).map fun e => e.withRx rx := by
  simp only [sshEmit]
  split
  · rw [Option.map_map]
    rfl
  split
  · split
    · rfl
    · split <;> rfl
  · split <;> split <;> rfl

theorem answer_plain {rep : Option (List UInt8)} : Plain rx (fun room => answer env room c rng rep)
    fun room => answer env room { c with rx := rx } rng rep := by
  refine ⟨answer_roomFree, fun room => ?_⟩
  cases rep with
  | none => rfl
  | some payload =>
    simp only [answer, emit_rx]
    cases sshEmit env room c rng payload <;> rfl

theorem answerAuth_plain : Plain rx (fun room => answerAuth env room c rng payload)
    fun room => answerAuth env room { c with rx := rx } rng payload := by
  refine ⟨answerAuth_roomFree, fun room => ?_⟩
  simp only [answerAuth, emit_rx]
  cases sshEmit env room c rng payload <;> rfl

theorem kdf_rx : sshKdf env { c with rx := rx } = { sshKdf env c with rx := rx } := by
  unfold sshKdf
  split
  · rfl
  · split <;> rfl

theorem finishKex_plain {rep : List UInt8} : Plain rx (fun room => finishKex env room c rng rep)
    fun room => finishKex env room { c with rx := rx } rng rep := by
  refine ⟨finishKex_roomFree, fun room => ?_⟩
  simp only [finishKex, emit_rx]
  rcases sshEmit env room c rng rep with _ | e
  · rfl
  simp only [Option.map_some, Emitted.withRx, emit_rx]
  cases sshEmit env (roomAfter room [.sent rep e.wire]) e.conn e.rng [msgNewkeys] with
  | none => rfl
  | some e' =>
    simp only [Option.map_some, kdf_rx]
    rfl

theorem signAndFinish_plain {cap : ℕ} {ks qs : List UInt8} :
    Plain rx (fun room => signAndFinish env room c rng cap ks qs)
      fun room => signAndFinish env room { c with rx := rx } rng cap ks qs := by
  have hsign : signExchangeHash env { c with rx := rx } c.sessionId =
      signExchangeHash env c c.sessionId := rfl
  simp only [signAndFinish, hsign]
  cases signExchangeHash env c c.sessionId with
  | none => exact plain_const
  | some sb =>
    dsimp only
    split
    · exact plain_const
    · exact finishKex_plain

theorem doKex_plain {qc : List UInt8} : Plain rx (fun room => doKex env room c rng qc)
    fun room => doKex env room { c with rx := rx } rng qc := by
  simp only [doKex]
  cases env.crypto.mul qc (env.draw rng 32) with
  | none => exact plain_const
  | some k =>
    refine plain_ite plain_const ?_
    cases hostKeyBlob env.crypto with
    | none => exact plain_const
    | some ks =>
      dsimp only
      generalize hqs : env.crypto.mulgen (env.draw rng 32) = qs
      have hinput : exchangeInput { c with rx := rx, qs := qs } ks qc qs =
          exchangeInput { c with qs := qs } ks qc qs := rfl
      rw [hinput]
      cases sshPutMpint 8192 (exchangeInput { c with qs := qs } ks qc qs) k with
      | none => exact plain_const
      | some hb =>
        cases sshPutMpint 80 (some []) k with
        | none => exact plain_const
        | some kEnc =>
          exact signAndFinish_plain (c := { c with
            qs := qs, sessionId := env.crypto.sha256 hb, kexSha512 := false, kEnc := kEnc })

theorem doKexHybrid_plain {qc : List UInt8} : Plain rx (fun room => doKexHybrid env room c rng qc)
    fun room => doKexHybrid env room { c with rx := rx } rng qc := by
  simp only [doKexHybrid]
  generalize env.crypto.kemEnc (qc.take kemPublicKeyBytes) (env.draw rng env.crypto.kemDraws) = kem
  generalize rng + env.crypto.kemDraws = rng
  cases env.crypto.mul (qc.drop kemPublicKeyBytes) (env.draw rng 32) with
  | none => exact plain_const
  | some ecdh =>
    refine plain_ite plain_const ?_
    cases sshPutString 80 (some []) (env.crypto.sha512 (kem.2 ++ ecdh)) with
    | none => exact plain_const
    | some kEnc =>
      cases hostKeyBlob env.crypto with
      | none => exact plain_const
      | some ks =>
        dsimp only
        generalize hqs : env.crypto.mulgen (env.draw rng 32) = qs
        have hinput : exchangeInput { c with rx := rx, qs := qs, kEnc := kEnc } ks qc (kem.1 ++ qs) =
            exchangeInput { c with qs := qs, kEnc := kEnc } ks qc (kem.1 ++ qs) := rfl
        rw [hinput]
        cases sshPutBytes 8192
            (exchangeInput { c with qs := qs, kEnc := kEnc } ks qc (kem.1 ++ qs)) kEnc with
        | none => exact plain_const
        | some hb =>
          exact signAndFinish_plain (c := { c with
            qs := qs, kEnc := kEnc, sessionId := env.crypto.sha512 hb, kexSha512 := true })

variable {pl : List UInt8}

theorem negotiate_rx (c : SshConn) :
    negotiate { c with rx := rx } = { negotiate c with rx := rx } := by
  simp only [negotiate]
  split
  · rfl
  rename_i kex hk enc _
  cases (nameList enc).findSome? cipherOf with
  | none => rfl
  | some choice => cases choice <;> rfl

theorem onUserauthRequest_plain : Plain rx (fun room => onUserauthRequest env room c rng pl)
    fun room => onUserauthRequest env room { c with rx := rx } rng pl := by
  refine plain_ite (answerAuth_plain (c := { c with phase := .auth })) ?_
  cases isPassword pl with
  | false => exact answerAuth_plain (c := { c with phase := .auth })
  | true => exact answerAuth_plain (c := { c with phase := .auth, authFails := c.authFails + 1 })

theorem onChannelOpen_plain : Plain rx (fun room => onChannelOpen env room c rng pl)
    fun room => onChannelOpen env room { c with rx := rx } rng pl := by
  unfold onChannelOpen
  split
  · exact plain_const
  · rename_i sender win _
    exact answer_plain (c := { c with peerChan := sender, peerWindow := win })

theorem captureExec_rx (pl rtype : List UInt8) (off : ℕ) :
    captureExec { c with rx := rx } pl rtype off =
      { captureExec c pl rtype off with rx := rx } := by
  unfold captureExec
  split
  · split
    · split <;> rfl
    · rfl
  · rfl

theorem onChannelRequest_plain : Plain rx (fun room => onChannelRequest env flags room c rng pl)
    fun room => onChannelRequest env flags room { c with rx := rx } rng pl := by
  simp only [onChannelRequest]
  split
  · exact plain_const
  rename_i rtype off _
  simp only [captureExec_rx]
  generalize captureExec c pl rtype _ = d
  have hreply : ∀ (want : Bool) (d : SshConn) (msg : UInt8), Plain rx
      (fun room => if want then answer env room d rng (channelReply msg d.peerChan) else .idle d rng)
      fun room => if want then answer env room { d with rx := rx } rng (channelReply msg d.peerChan)
        else .idle { d with rx := rx } rng :=
    fun want d msg => plain_ite answer_plain plain_const
  have hturn := plain_ite (p := (isShellRequest rtype && flags.ready && flags.busy) = true)
    (hreply (wantReply pl off) d msgChannelFailure)
    (plain_ite (p := isShellRequest rtype = true)
      (hreply (wantReply pl off) { d with
        shellActive := true
        shellStartPending := d.shellStartPending || flags.ready } msgChannelSuccess)
      (hreply (wantReply pl off) d msgChannelSuccess))
  constructor
  · refine RoomFree.map (g := fun t => { t with events := _ ++ t.events }) hturn.free fun t => ?_
    rw [outBytes_append, List.length_append]
    exact Nat.le_add_left _ _
  · intro room
    rw [hturn.moved room]
    rfl

theorem onChannelData_plain : Plain rx (fun room => onChannelData env flags room c rng pl)
    fun room => onChannelData env flags room { c with rx := rx } rng pl := by
  unfold onChannelData
  split
  · exact plain_const
  · exact plain_ite plain_const (plain_ite plain_const answer_plain)

theorem onChannelClose_plain : Plain rx (fun room => onChannelClose env flags room c rng)
    fun room => onChannelClose env flags room { c with rx := rx } rng := by
  constructor
  · refine RoomFree.map answer_roomFree (fun t =>
      if t.conn.aborted then t
      else
        { t with conn := { t.conn with
            clientEof := t.conn.clientEof || (flags.ready && t.conn.shellActive)
            shellActive := false } }) fun t => ?_
    dsimp only
    split <;> exact Nat.le_refl _
  · intro room
    have hmoved : answer env room { c with rx := rx } rng (channelReply msgChannelClose c.peerChan) =
      (answer env room c rng (channelReply msgChannelClose c.peerChan)).withRx rx :=
        answer_plain.moved room
    simp only [onChannelClose, hmoved]
    generalize answer env room c rng _ = t
    simp only [show (t.withRx rx).conn.aborted = t.conn.aborted from rfl]
    split_ifs <;> rfl

theorem onWindowAdjust_plain : Plain rx (fun _ => onWindowAdjust c rng pl)
    fun _ => onWindowAdjust { c with rx := rx } rng pl := by
  unfold onWindowAdjust
  split <;> exact plain_const

theorem handleSealed_plain : Plain rx (fun room => handleSealed env flags room c rng pl)
    fun room => handleSealed env flags room { c with rx := rx } rng pl := by
  refine plain_ite answer_plain (plain_ite onUserauthRequest_plain ?_)
  refine plain_ite (plain_ite answer_plain plain_const) (plain_ite onChannelOpen_plain ?_)
  refine plain_ite onChannelRequest_plain (plain_ite onWindowAdjust_plain ?_)
  exact plain_ite onChannelData_plain (plain_ite onChannelClose_plain plain_const)

theorem handle_plain : Plain rx (fun room => handle env flags room c rng pl)
    fun room => handle env flags room { c with rx := rx } rng pl := by
  have hkexinit : onKexinit { c with rx := rx } rng pl = (onKexinit c rng pl).withRx rx := by
    simp only [onKexinit]
    split_ifs
    · rfl
    · rfl
    · exact congrArg (Turn.idle · rng) (negotiate_rx { c with ic := pl })
  refine plain_ite ⟨roomFree_const, fun _ => hkexinit⟩ (plain_ite ?_ ?_)
  · exact plain_ite plain_const (plain_ite doKex_plain (plain_ite doKexHybrid_plain plain_const))
  · exact plain_ite plain_const (plain_ite handleSealed_plain plain_const)

theorem handle_rx : handle env flags room { c with rx := rx } rng pl =
    (handle env flags room c rng pl).withRx rx := handle_plain.moved room

end

def Opened.push (ys : List UInt8) : Opened → Opened
  | .more => .more
  | .bad c => .bad { c with rx := c.rx ++ ys }
  | .packet c payload => .packet { c with rx := c.rx ++ ys } payload

section
variable {crypto : Crypto} (ys : List UInt8)

theorem opened_of_push {total : ℕ} (h : total ≤ c.rx.length) (body : List UInt8) :
    Opened.of { c with rx := c.rx ++ ys } total body = (Opened.of c total body).push ys := by
  unfold Opened.of
  split
  · rfl
  · simp [Opened.push, SshConn.shifted, drop_append_of_le_length h]

theorem take_drop_push (h : m + n ≤ rx.length) :
    ((rx ++ ys).drop m).take n = (rx.drop m).take n := by
  rw [drop_append_of_le_length (by omega), take_append_of_le_length]
  rw [length_drop]
  omega

theorem openWith_push {tag pktlen' : ℕ} {inRange inRange' : Bool} {finish finish' : Opened}
    (hlen : head ≤ c.rx.length → pktlen' = pktlen ∧ inRange' = inRange)
    (hfinish : 4 + pktlen + tag ≤ c.rx.length → finish' = finish.push ys)
    (h : openWith c head tag pktlen inRange finish ≠ .more) :
    openWith { c with rx := c.rx ++ ys } head tag pktlen' inRange' finish' =
      (openWith c head tag pktlen inRange finish).push ys := by
  unfold openWith at h ⊢
  split at h
  · exact absurd rfl h
  · rename_i hhead
    obtain ⟨rfl, rfl⟩ := hlen (by omega)
    have hhead' : ¬ (c.rx ++ ys).length < head := by simp; omega
    rw [if_neg hhead', if_neg hhead]
    split at h
    · rename_i hbad
      rw [if_pos hbad, if_pos hbad]
      rfl
    · rename_i hbad
      rw [if_neg hbad, if_neg hbad]
      split at h
      · exact absurd rfl h
      · rename_i htotal
        have htotal' : ¬ (c.rx ++ ys).length < 4 + pktlen' + tag := by simp; omega
        rw [if_neg htotal', if_neg htotal]
        exact hfinish (by omega)

theorem openClear_push (h : openClear c ≠ .more) :
    openClear { c with rx := c.rx ++ ys } = (openClear c).push ys := by
  have hbe : 4 ≤ c.rx.length → be32 (c.rx ++ ys) = be32 c.rx := fun h => be32_append h
  refine openWith_push ys (fun hlen => by rw [hbe hlen]; exact ⟨rfl, rfl⟩) ?_ h
  intro htotal
  dsimp only
  rw [hbe (by omega), take_drop_push ys (by omega)]
  exact opened_of_push ys (by omega) _

theorem cc20Finish_push (h : 4 + pktlen + 16 ≤ c.rx.length) :
    cc20Finish crypto { c with rx := c.rx ++ ys } pktlen =
      (cc20Finish crypto c pktlen).push ys := by
  simp only [cc20Finish]
  rw [take_append_of_le_length (by omega), take_drop_push ys (by omega),
    take_drop_push ys (by omega)]
  split
  · rfl
  · split
    · rfl
    · exact opened_of_push ys h _

theorem cc20Open_push (h : cc20Open crypto c ≠ .more) :
    cc20Open crypto { c with rx := c.rx ++ ys } = (cc20Open crypto c).push ys := by
  have htake : 4 ≤ c.rx.length → (c.rx ++ ys).take 4 = c.rx.take 4 :=
    fun h => take_append_of_le_length h
  refine openWith_push ys (fun hlen => by rw [htake hlen]; exact ⟨rfl, rfl⟩) ?_ h
  intro htotal
  rw [htake (by omega)]
  exact cc20Finish_push ys htotal

theorem gcmFinish_push (h : 4 + pktlen + 16 ≤ c.rx.length) :
    gcmFinish crypto { c with rx := c.rx ++ ys } pktlen = (gcmFinish crypto c pktlen).push ys := by
  simp only [gcmFinish]
  split
  · rfl
  split
  · rfl
  rw [take_append_of_le_length (by omega), take_drop_push ys (by omega),
    take_drop_push ys (by omega)]
  split
  · rfl
  · exact opened_of_push (c := { c with givIn := gcmIvIncr c.givIn }) ys h _

theorem gcmOpen_push (h : gcmOpen crypto c ≠ .more) :
    gcmOpen crypto { c with rx := c.rx ++ ys } = (gcmOpen crypto c).push ys := by
  have hbe : 4 ≤ c.rx.length → be32 (c.rx ++ ys) = be32 c.rx := fun h => be32_append h
  refine openWith_push ys (fun hlen => by rw [hbe hlen]; exact ⟨rfl, rfl⟩) ?_ h
  intro htotal
  dsimp only
  rw [hbe (by omega)]
  exact gcmFinish_push ys htotal

theorem ctrFinish_push (h : 4 + pktlen + 32 ≤ c.rx.length) :
    ctrFinish crypto { c with rx := c.rx ++ ys } pktlen = (ctrFinish crypto c pktlen).push ys := by
  simp only [ctrFinish]
  rw [take_append_of_le_length (by omega), take_drop_push ys (by omega)]
  split
  · rfl
  · exact opened_of_push (c := { c with
      ccIn := (crypto.aesCtr c.cin c.ivIn c.ccIn (c.rx.take (4 + pktlen))).2 }) ys h _

theorem ctrOpen_push (h : ctrOpen crypto c ≠ .more) :
    ctrOpen crypto { c with rx := c.rx ++ ys } = (ctrOpen crypto c).push ys := by
  have htake : 16 ≤ c.rx.length → (c.rx ++ ys).take 16 = c.rx.take 16 :=
    fun h => take_append_of_le_length h
  refine openWith_push ys (fun hlen => by rw [htake hlen]; exact ⟨rfl, rfl⟩) ?_ h
  intro htotal
  rw [htake (by omega)]
  exact ctrFinish_push ys htotal

theorem nextPacket_push (h : sshNextPacket crypto c ≠ .more) :
    sshNextPacket crypto { c with rx := c.rx ++ ys } = (sshNextPacket crypto c).push ys := by
  unfold sshNextPacket at h ⊢
  dsimp only
  split at h
  · rename_i hclear
    rw [if_pos hclear, if_pos hclear]
    exact openClear_push ys h
  · rename_i hclear
    rw [if_neg hclear, if_neg hclear]
    split at h
    · rename_i hgcm
      rw [if_pos hgcm, if_pos hgcm]
      exact gcmOpen_push ys h
    · rename_i hgcm
      rw [if_neg hgcm, if_neg hgcm]
      split at h
      · rename_i hchacha
        rw [if_pos hchacha, if_pos hchacha]
        exact cc20Open_push ys h
      · rename_i hchacha
        rw [if_neg hchacha, if_neg hchacha]
        exact ctrOpen_push ys h

end

inductive OpenCase (c : SshConn) : Opened → Prop
  | more : OpenCase c .more
  | bad (giv : List UInt8) (cc : UInt32) (hrx : 0 < c.rx.length) :
      OpenCase c (.bad { c with givIn := giv, ccIn := cc }.abort)
  | packet (giv : List UInt8) (cc : UInt32) (total : ℕ) (payload : List UInt8)
      (hclear : payload.length + 5 ≤ total)
      (hsealed : c.recvEnc = true → payload.length + 21 ≤ total) (htotal : total ≤ c.rx.length) :
      OpenCase c (.packet ({ c with givIn := giv, ccIn := cc }.shifted total) payload)

section
variable {crypto : Crypto}

theorem unpad_length (h : unpad body = some payload) :
    payload.length + 1 ≤ body.length := by
  unfold unpad at h
  split at h
  · cases h
  · split_ifs at h
    obtain ⟨⟩ := h
    rw [length_take, length_cons]
    omega

theorem of_cases {giv : List UInt8} {cc : UInt32} {tag : ℕ} (hbody : body.length = pktlen)
    (htag : c.recvEnc = true → 16 ≤ tag) (htotal : 4 + pktlen + tag ≤ c.rx.length) :
    OpenCase c (.of { c with givIn := giv, ccIn := cc } (4 + pktlen + tag) body) := by
  unfold Opened.of
  split
  · exact .bad giv cc (by omega)
  rename_i payload hpad
  have hlen := unpad_length hpad
  refine .packet giv cc _ payload (by omega) (fun henc => ?_) htotal
  have := htag henc
  omega

theorem openWith_cases {tag : ℕ} {inRange : Bool} {finish : Opened} (hhead : 0 < head)
    (h : 4 + pktlen + tag ≤ c.rx.length → OpenCase c finish) :
    OpenCase c (openWith c head tag pktlen inRange finish) := by
  unfold openWith
  split
  · exact .more
  split
  · exact .bad c.givIn c.ccIn (by omega)
  · split
    · exact .more
    · exact h (by omega)

theorem length_packet {tag : ℕ} (h : 4 + pktlen + tag ≤ rx.length) :
    ((rx.drop 4).take pktlen).length = pktlen := by
  rw [length_take, length_drop]
  omega

theorem nextPacket_cases (crypto : Crypto) (c : SshConn) : OpenCase c (sshNextPacket crypto c) := by
  have hbad : 4 ≤ c.rx.length → OpenCase c (.bad c.abort) :=
    fun h => .bad c.givIn c.ccIn (by omega)
  unfold sshNextPacket
  split
  · rename_i hclear
    refine openWith_cases (by decide) fun htotal => ?_
    exact of_cases (length_packet htotal) (by simp [hclear]) htotal
  · split
    · refine openWith_cases (by decide) fun htotal => ?_
      simp only [gcmFinish]
      split
      · exact hbad (by omega)
      split
      · exact hbad (by omega)
      split
      · exact hbad (by omega)
      · refine of_cases ?_ (fun _ => le_rfl) htotal
        rw [crypto.gcm_length]
        exact length_packet htotal
    · split
      · refine openWith_cases (by decide) fun htotal => ?_
        simp only [cc20Finish]
        split
        · exact hbad (by omega)
        split
        · exact hbad (by omega)
        · refine of_cases ?_ (fun _ => le_rfl) htotal
          rw [crypto.chacha_length]
          exact length_packet htotal
      · refine openWith_cases (by decide) fun htotal => ?_
        simp only [ctrFinish]
        split
        · exact hbad (by omega)
        · refine of_cases ?_ (fun _ => by decide) htotal
          rw [length_drop, crypto.aesCtr_length, length_take]
          omega

end

theorem emit_conn (h : sshEmit env room c rng payload = some e) :
    ∃ seq giv cc, e.conn = { c with seqOut := seq, givOut := giv, ccOut := cc } := by
  simp only [sshEmit] at h
  split at h
  · obtain ⟨wire, -, rfl⟩ := map_eq_some_iff.mp h
    exact ⟨_, c.givOut, c.ccOut, rfl⟩
  · split at h
    · split at h
      · cases h
      · split_ifs at h
        obtain ⟨⟩ := h
        exact ⟨_, _, c.ccOut, rfl⟩
    · split at h
      · split_ifs at h
        obtain ⟨⟩ := h
        exact ⟨_, c.givOut, c.ccOut, rfl⟩
      · split_ifs at h
        obtain ⟨⟩ := h
        exact ⟨_, c.givOut, _, rfl⟩

theorem handle_conn_rx : (handle env flags room c rng pl).conn.rx = c.rx := by
  have h : handle env flags room { c with rx := c.rx } rng pl =
      (handle env flags room c rng pl).withRx c.rx := handle_rx
  exact congrArg (fun t => t.conn.rx) h

theorem splitLine_cons {b : UInt8} : splitLine (b :: rx) =
    if b = 10 then some ([], rx) else (splitLine rx).map fun r => (b :: r.1, r.2) := by
  by_cases hb : b = 10
  · simp [splitLine, hb]
  · simp only [splitLine, dropWhile_cons, takeWhile_cons, bne_iff_ne, ne_eq, hb,
      not_false_eq_true, if_true, if_false]
    cases rx.dropWhile (· != 10) <;> rfl

variable {rx rest : List UInt8}

theorem splitLine_spec (h : splitLine rx = some (line, rest)) :
    rx = line ++ 10 :: rest ∧ 10 ∉ line := by
  induction rx generalizing line with
  | nil => cases h
  | cons b rx ih =>
    rw [splitLine_cons] at h
    split_ifs at h with hb
    · cases h
      simp [hb]
    obtain ⟨r, hr, heq⟩ := map_eq_some_iff.mp h
    cases heq
    obtain ⟨hrx, hmem⟩ := ih hr
    exact ⟨by rw [hrx]; rfl, by simp [hmem, Ne.symm hb]⟩

theorem splitLine_append (h : splitLine rx = some (line, rest))
    {ys : List UInt8} : splitLine (rx ++ ys) = some (line, rest ++ ys) := by
  induction rx generalizing line with
  | nil => cases h
  | cons b rx ih =>
    rw [splitLine_cons] at h
    rw [cons_append, splitLine_cons]
    split_ifs at h ⊢ with hb
    · cases h
      rfl
    obtain ⟨r, hr, heq⟩ := map_eq_some_iff.mp h
    cases heq
    rw [ih hr]
    rfl

theorem splitLine_none (h : splitLine rx = none) : 10 ∉ rx := by
  induction rx with
  | nil => simp
  | cons b rx ih =>
    rw [splitLine_cons] at h
    split_ifs at h with hb
    have hrest := ih (map_eq_none_iff.mp h)
    simp [hrest, Ne.symm hb]

theorem splitLine_length (h : splitLine rx = some (line, rest)) :
    rest.length < rx.length := by
  rw [(splitLine_spec h).1, length_append, length_cons]
  omega

def greeting (env : Env) (room : Option ℕ) (c : SshConn) (rng : ℕ) : Turn :=
  if c.phase = .fresh then emitIdKexinit env room c rng else .idle c rng

def afterGreeting (env : Env) (flags : ShellFlags) (req : List UInt8) (t : Turn)
    (room : Option ℕ) : Turn :=
  if req.length = 0 ∨ t.conn.aborted then t
  else if sshRxMax < t.conn.rx.length + req.length then { t with conn := t.conn.abort }
  else
    t.andThen (consume env flags (roomAfter room t.events) { t.conn with rx := t.conn.rx ++ req }
      t.rng)

theorem respondOn_eq {req : List UInt8} : respondOn env flags room c rng req =
      if c.aborted then .idle c rng
      else afterGreeting env flags req (greeting env room c rng) room := rfl

end SotOs.Synth
