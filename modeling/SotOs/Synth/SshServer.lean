import SotOs.Lib.Machine
import SotOs.Lib.Slots
import SotOs.Synth.Ssh

/-! The message handlers, the drain of the reassembly buffer and the pool of sessions. -/

namespace SotOs.Synth

open Slots

structure ShellFlags where
  ready : Bool
  busy : Bool
  deriving DecidableEq

section
variable (env : Env) (flags : ShellFlags) (room : Option ℕ) (c : SshConn) (rng : ℕ)
  (pl : List UInt8)

def onKexinit : Turn :=
  if c.phase.keyed then .abort c rng
  else if sshIcMax < pl.length then .abort c rng
  else .idle (negotiate { c with ic := pl }) rng

def leadingLen : ℕ := if 5 ≤ pl.length then (be32 (pl.drop 1)).toNat else 0

def hybridLen : ℕ := kemPublicKeyBytes + 32

/-- The length of `Q_C` tells which exchange the client means. -/
def onKexEcdhInit : Turn :=
  if c.phase.keyed then .abort c rng
  else if leadingLen pl = 32 ∧ 1 + 4 + 32 ≤ pl.length then
    doKex env room c rng ((pl.drop 5).take 32)
  else if leadingLen pl = hybridLen ∧ 1 + 4 + hybridLen ≤ pl.length then
    doKexHybrid env room c rng ((pl.drop 5).take hybridLen)
  else .abort c rng

def onNewkeys : Turn :=
  .idle { c with recvEnc := true, seqIn := if c.strictKex then 0 else c.seqIn } rng

def serviceName : List UInt8 :=
  if 40 < leadingLen pl ∨ pl.length < 5 + leadingLen pl then []
  else (pl.drop 5).take (leadingLen pl)

def onServiceRequest : Turn := answer env room c rng
    (sshPutString 64 (sshPutByte 64 (some []) msgServiceAccept) (serviceName pl))

def isPassword : Bool :=
  match (do
    let (_, off) ← sshRdStr pl 1
    let (_, off) ← sshRdStr pl off
    let (method, _) ← sshRdStr pl off
    pure method) with
  | some method => method == ascii "password"
  | none => false

def userauthFailure : List UInt8 := msgUserauthFailure :: (u32Bytes 8 ++ ascii "password" ++ [0])

def onUserauthRequest : Turn :=
  let c := { c with phase := .auth }
  if isPassword pl && decide (2 ≤ c.authFails) then answerAuth env room c rng [msgUserauthSuccess]
  else
    answerAuth env room
      (if isPassword pl then { c with authFails := c.authFails + 1 } else c) rng userauthFailure

def wantReply (off : ℕ) : Bool := (sshRdByte pl off).any fun r => r.1 != 0

def onGlobalRequest : Turn :=
  let want := (sshRdStr pl 1).any fun r => wantReply pl r.2
  if want then answer env room c rng (sshPutByte 4 (some []) msgRequestFailure) else .idle c rng

def onChannelOpen : Turn :=
  match (do
    let (_, off) ← sshRdStr pl 1
    let (sender, off) ← sshRdU32 pl off
    let (win, _) ← sshRdU32 pl off
    pure (sender, win)) with
  | none => .idle c rng
  | some (sender, win) =>
    answer env room { c with peerChan := sender, peerWindow := win } rng
      ([sender, 0, 0x00100000, 0x00008000].foldl (sshPutU32 20)
        (sshPutByte 20 (some []) msgChannelOpenConfirm))

def channelReply (msg : UInt8) (chan : UInt32) : Option (List UInt8) :=
  sshPutU32 8 (sshPutByte 8 (some []) msg) chan

def winsize (ptyReq : Bool) (p : List UInt8) : Option (UInt16 × UInt16) := do
  let off ← if ptyReq then (sshRdStr p 0).map Prod.snd else some 0
  let (cols, off) ← sshRdU32 p off
  let (rows, _) ← sshRdU32 p off
  pure (cols.toUInt16, rows.toUInt16)

variable (rtype : List UInt8)

def winchEvents (off : ℕ) : List SshEvent :=
  if flags.ready && (rtype == ascii "pty-req" || rtype == ascii "window-change") then
    match winsize (rtype == ascii "pty-req") (pl.drop off) with
    | some (cols, rows) => if cols ≠ 0 ∧ rows ≠ 0 then [.winch cols rows] else []
    | none => []
  else []

def captureExec (off : ℕ) : SshConn :=
  if rtype = ascii "exec" then
    match sshRdStr pl off with
    | some (cmd, _) =>
      if 0 < cmd.length then { c with execCmd := cmd.take 255, isExec := true } else c
    | none => c
  else c

def isShellRequest : Bool := rtype == ascii "shell" || rtype == ascii "exec"

def channelRequestType : Option (List UInt8 × ℕ) := (sshRdU32 pl 1).bind fun r => sshRdStr pl r.2

def onChannelRequest : Turn :=
  match channelRequestType pl with
  | none => .idle c rng
  | some (rtype, off) =>
    let want := wantReply pl off
    let off := if (sshRdByte pl off).isSome then off + 1 else off
    let events := winchEvents flags pl rtype off
    let c := captureExec c pl rtype off
    let reply (c : SshConn) (msg : UInt8) : Turn :=
      if want then answer env room c rng (channelReply msg c.peerChan) else .idle c rng
    let turn := if isShellRequest rtype && flags.ready && flags.busy then reply c msgChannelFailure
      else if isShellRequest rtype then
        reply { c with
          shellActive := true
          shellStartPending := c.shellStartPending || flags.ready } msgChannelSuccess
      else reply c msgChannelSuccess
    { turn with events := events ++ turn.events }

def onWindowAdjust : Turn :=
  match (do
    let (_, off) ← sshRdU32 pl 1
    let (add, _) ← sshRdU32 pl off
    pure add) with
  | none => .idle c rng
  | some add => .idle { c with peerWindow := c.peerWindow + add } rng

def channelDataReply (chan : UInt32) (data : List UInt8) : Option (List UInt8) :=
  sshPutString (1024 + 16) (sshPutU32 (1024 + 16)
    (sshPutByte (1024 + 16) (some []) msgChannelData) chan) data

def onChannelData : Turn :=
  match (sshRdU32 pl 1).bind fun r => sshRdStr pl r.2 with
  | none => .idle c rng
  | some (data, _) =>
    if data.length = 0 ∨ 1024 < data.length then .idle c rng
    else if flags.ready && c.shellActive then ⟨c, rng, [.shellIn data]⟩
    else answer env room c rng (channelDataReply c.peerChan data)

def onChannelClose : Turn :=
  let t := answer env room c rng (channelReply msgChannelClose c.peerChan)
  if t.conn.aborted then t
  else
    { t with conn := { t.conn with
        clientEof := t.conn.clientEof || (flags.ready && t.conn.shellActive)
        shellActive := false } }

def handleSealed : Turn :=
  -- The messages that count only in an encrypted packet.
  let msg := pl.headD 0
  if msg = msgServiceRequest then onServiceRequest env room c rng pl
  else if msg = msgUserauthRequest then onUserauthRequest env room c rng pl
  else if msg = msgGlobalRequest then onGlobalRequest env room c rng pl
  else if msg = msgChannelOpen then onChannelOpen env room c rng pl
  else if msg = msgChannelRequest then onChannelRequest env flags room c rng pl
  else if msg = msgChannelWindowAdjust then onWindowAdjust c rng pl
  else if msg = msgChannelData then onChannelData env flags room c rng pl
  else if msg = msgChannelClose then onChannelClose env flags room c rng
  else .idle c rng

def handle : Turn :=
  let msg := pl.headD 0
  if msg = msgKexinit then onKexinit c rng pl
  else if msg = msgKexEcdhInit then onKexEcdhInit env room c rng pl
  else if msg = msgNewkeys then onNewkeys c rng
  else if c.recvEnc then handleSealed env flags room c rng pl
  else .idle c rng

end

def splitLine (rx : List UInt8) : Option (List UInt8 × List UInt8) :=
  match rx.dropWhile (· != 10) with
  | [] => none
  | _ :: rest => some (rx.takeWhile (· != 10), rest)

def stripCr (line : List UInt8) : List UInt8 :=
  if line.getLast? = some 13 then line.dropLast else line

def idOf (line : List UInt8) : Option (List UInt8) :=
  let id := stripCr line
  if 4 ≤ id.length ∧ id.take 4 = ascii "SSH-" then some id else none

inductive IdScan
  | waiting (rest : List UInt8)
  | tooLong (rest : List UInt8)
  | found (id rest : List UInt8)
  deriving DecidableEq

def scanId : (fuel : ℕ) → List UInt8 → IdScan
  -- The identification loop: lines that identify nobody are skipped.
  | 0, rx => .waiting rx
  | fuel + 1, rx =>
    match splitLine rx with
    | none => .waiting rx
    | some (line, rest) =>
      match idOf line with
      | none => scanId fuel rest
      | some id => if sshVcMax ≤ id.length then .tooLong rx else .found id rest

def takePackets (env : Env) (flags : ShellFlags) : (fuel : ℕ) → (room : Option ℕ) → SshConn →
    (rng : ℕ) → Turn
  | 0, _, c, rng => .idle c rng
  | fuel + 1, room, c, rng =>
    match sshNextPacket env.crypto c with
    | .more => .idle c rng
    | .bad d => .idle d rng
    | .packet d payload =>
      let t := handle env flags room d rng payload
      let t := { t with events := .got c payload :: t.events }
      if t.conn.aborted then t
      else t.andThen (takePackets env flags fuel (roomAfter room t.events) t.conn t.rng)

variable (env : Env)

/-- An unfinished line is given up once it fills `V_C`. -/
def consume (flags : ShellFlags) (room : Option ℕ) (c : SshConn) (rng : ℕ) : Turn :=
  if c.idDone then takePackets env flags c.rx.length room c rng
  else
    match scanId c.rx.length c.rx with
    | .waiting rest =>
      if sshVcMax ≤ rest.length then .abort { c with rx := rest } rng
      else .idle { c with rx := rest } rng
    | .tooLong rest => .abort { c with rx := rest } rng
    | .found id rest =>
      takePackets env flags rest.length room { c with vc := id, idDone := true, rx := rest } rng

def respondOn (flags : ShellFlags) (room : Option ℕ) (c : SshConn) (rng : ℕ)
    (req : List UInt8) : Turn :=
  if c.aborted then .idle c rng
  else
    let t := if c.phase = .fresh then emitIdKexinit env room c rng else .idle c rng
    if req.length = 0 ∨ t.conn.aborted then t
    else if sshRxMax < t.conn.rx.length + req.length then { t with conn := t.conn.abort }
    else
      t.andThen (consume env flags (roomAfter room t.events) { t.conn with rx := t.conn.rx ++ req }
        t.rng)

abbrev sshSessMax : ℕ := 8
abbrev SshSlot := Fin sshSessMax

scoped instance : NeZero sshSessMax := ⟨by decide⟩

structure Server where
  slots : SshSlot → Option SshConn
  rng : ℕ
  flags : ShellFlags

variable (s : Server) (connId : UInt16) (room : Option ℕ) (rng : ℕ)

def Server.init : Server := ⟨fun _ => none, rng, ⟨false, false⟩⟩

structure SshReply where
  slot : Option SshSlot
  reset : Bool
  events : List SshEvent
  ret : ℕ
  data : List UInt8

def SshReply.none : SshReply := ⟨.none, false, [], 0, []⟩

def Server.set (i : SshSlot) (t : Turn) : Server :=
  { s with slots := Function.update s.slots i (some t.conn), rng := t.rng }

def sshFind : Option SshSlot :=
  first fun i => (s.slots i).any fun c => c.connId == connId

/-- The slot a new session takes: an unused one, a finished one, one before its key exchange, or
slot `0`. -/
def sshEvict : SshSlot :=
  ((first fun i => (s.slots i).isNone).or
    ((first fun i => (s.slots i).any fun c => c.aborted || c.phase == .kexed).or
      (first fun i => (s.slots i).any fun c => c.phase == .idsent))).getD 0

def sshSlot (freshConnect : Bool) : SshSlot × SshConn × Bool :=
  match sshFind s connId with
  | some i =>
    if freshConnect then (i, .init connId, true) else (i, (s.slots i).getD (.init connId), false)
  | none => (sshEvict s, .init connId, true)

def sshRespond (req : List UInt8) (outmax : ℕ) :
    Server × SshReply :=
  let (i, c, reset) := sshSlot s connId (req.length == 0)
  let t := respondOn env s.flags (some outmax) c s.rng req
  (s.set i t, ⟨some i, reset, t.events, (outBytes t.events).length, []⟩)

def onSession (f : SshSlot → SshConn → Server × SshReply) :
    Server × SshReply :=
  match sshFind s connId with
  | none => (s, .none)
  | some i =>
    match s.slots i with
    | none => (s, .none)
    | some c => f i c

def sshTakeShellStart : Server × SshReply :=
  onSession s connId fun i c =>
    if c.shellStartPending then
      (s.set i (.idle { c with shellStartPending := false } s.rng), ⟨some i, false, [], 1, []⟩)
    else (s, .none)

def sshTakeExecCmd (buflen : ℕ) : Server × SshReply :=
  onSession s connId fun i c =>
    if c.isExec = false ∨ c.execCmd.length = 0 ∨ buflen = 0 then (s, .none)
    else
      (s.set i (.idle { c with isExec := false, execCmd := [] } s.rng),
        ⟨some i, false, [], min c.execCmd.length buflen, c.execCmd.take buflen⟩)

def sshTakeClientEof : Server × SshReply :=
  onSession s connId fun i c =>
    if c.clientEof then
      (s.set i (.idle { c with clientEof := false } s.rng), ⟨some i, false, [], 1, []⟩)
    else (s, .none)

def emitOn (c : SshConn) (rng : ℕ) (rep : Option (List UInt8)) :
    Option Turn :=
  -- Send one packet outside a drain; nothing happens if it does not fit.
  rep.bind fun payload =>
    (sshEmit env room c rng payload).map fun e => ⟨e.conn, e.rng, [.sent payload e.wire]⟩

def sshEmitChannelData (data : List UInt8)
    (outmax : ℕ) : Server × SshReply :=
  onSession s connId fun i c =>
    if c.aborted || !c.sendEnc then (s, .none)
    else if data.length = 0 ∨ 1024 < data.length then (s, .none)
    else
      match emitOn env (some outmax) c s.rng (channelDataReply c.peerChan data) with
      | none => (s, .none)
      | some t => (s.set i t, ⟨some i, false, t.events, (outBytes t.events).length, []⟩)

def sshEmitChannelClose (outmax : ℕ) :
    Server × SshReply :=
  -- CHANNEL_EOF and CHANNEL_CLOSE; if the second does not fit the shell stays marked active.
  onSession s connId fun i c =>
    if c.aborted || !c.sendEnc then (s, .none)
    else
      match emitOn env (some outmax) c s.rng (channelReply msgChannelEof c.peerChan) with
      | none => (s, .none)
      | some t =>
        match emitOn env (roomAfter (some outmax) t.events) t.conn t.rng
            (channelReply msgChannelClose c.peerChan) with
        | none => (s.set i t, ⟨some i, false, t.events, (outBytes t.events).length, []⟩)
        | some t' =>
          let t := t.andThen { t' with conn := { t'.conn with shellActive := false } }
          (s.set i t, ⟨some i, false, t.events, (outBytes t.events).length, []⟩)

inductive SshCall
  | respond (connId : UInt16) (req : List UInt8) (outmax : ℕ)
  | takeShellStart (connId : UInt16)
  | takeExecCmd (connId : UInt16) (buflen : ℕ)
  | takeClientEof (connId : UInt16)
  | emitChannelData (connId : UInt16) (data : List UInt8) (outmax : ℕ)
  | emitChannelClose (connId : UInt16) (outmax : ℕ)
  | shellRingsSetReady (ready : Bool)
  | shellSetBusy (busy : Bool)

def sshStep : SshCall → Server × SshReply
  | .respond connId req outmax => sshRespond env s connId req outmax
  | .takeShellStart connId => sshTakeShellStart s connId
  | .takeExecCmd connId buflen => sshTakeExecCmd s connId buflen
  | .takeClientEof connId => sshTakeClientEof s connId
  | .emitChannelData connId data outmax => sshEmitChannelData env s connId data outmax
  | .emitChannelClose connId outmax => sshEmitChannelClose env s connId outmax
  | .shellRingsSetReady ready => ({ s with flags := { s.flags with ready := ready } }, .none)
  | .shellSetBusy busy => ({ s with flags := { s.flags with busy := busy } }, .none)

end SotOs.Synth
