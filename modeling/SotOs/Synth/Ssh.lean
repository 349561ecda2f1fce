import SotOs.Synth.SshConn

/-! The SSH server: greeting, key exchange, the message handlers and the drain of the reassembly
buffer. -/

namespace SotOs.Synth

def msgServiceRequest : UInt8 := 5
def msgServiceAccept : UInt8 := 6
def msgKexinit : UInt8 := 20
def msgNewkeys : UInt8 := 21
def msgKexEcdhInit : UInt8 := 30
def msgKexEcdhReply : UInt8 := 31
def msgUserauthRequest : UInt8 := 50
def msgUserauthFailure : UInt8 := 51
def msgUserauthSuccess : UInt8 := 52
def msgGlobalRequest : UInt8 := 80
def msgRequestFailure : UInt8 := 82
def msgChannelOpen : UInt8 := 90
def msgChannelOpenConfirm : UInt8 := 91
def msgChannelWindowAdjust : UInt8 := 93
def msgChannelData : UInt8 := 94
def msgChannelEof : UInt8 := 96
def msgChannelClose : UInt8 := 97
def msgChannelRequest : UInt8 := 98
def msgChannelSuccess : UInt8 := 99
def msgChannelFailure : UInt8 := 100

structure ReceiveKeys where
  cipherGcm : Bool
  cipherChacha : Bool
  gcmIn : Option (List UInt8)
  cc20C2s : List UInt8
  cin : Option (List UInt8)
  macIn : List UInt8
  deriving DecidableEq

variable (env : Env) (room : Option ℕ) (c : SshConn) (rng : ℕ) (qc : List UInt8)

def SshConn.receiveKeys : ReceiveKeys :=
  ⟨c.cipherGcm, c.cipherChacha, c.gcmIn, c.cc20C2s, c.cin, c.macIn⟩

inductive SshEvent
  | idLine (wire : List UInt8)
  | got (c : SshConn) (payload : List UInt8)
  | sent (payload wire : List UInt8)
  | keyed (keys : ReceiveKeys)
  | shellIn (data : List UInt8)
  | winch (cols rows : UInt16)
  deriving DecidableEq

def SshEvent.bytes : SshEvent → List UInt8
  | .idLine wire => wire
  | .sent _ wire => wire
  | _ => []

def outBytes (events : List SshEvent) : List UInt8 := events.flatMap SshEvent.bytes

structure Turn where
  conn : SshConn
  rng : ℕ
  events : List SshEvent

def Turn.idle : Turn := ⟨c, rng, []⟩

def Turn.abort : Turn := ⟨c.abort, rng, []⟩

def roomAfter (events : List SshEvent) : Option ℕ :=
  room.map fun r => r - (outBytes events).length

def Turn.andThen (t : Turn) (next : Turn) : Turn := { next with events := t.events ++ next.events }

def answer (rep : Option (List UInt8)) :
    Turn :=
  -- Send a reply that was put together, if it could be; a reply that does not fit ends the session.
  match rep with
  | none => .idle c rng
  | some payload =>
    match sshEmit env room c rng payload with
    | none => .abort c rng
    | some e => ⟨e.conn, e.rng, [.sent payload e.wire]⟩

def answerAuth (payload : List UInt8) :
    Turn :=
  -- The two answers to a login attempt, whose overflow goes unnoticed.
  match sshEmit env room c rng payload with
  | none => .idle c rng
  | some e => ⟨e.conn, e.rng, [.sent payload e.wire]⟩

def sshId : List UInt8 := ascii "SSH-2.0-OpenSSH_9.7\r\n"
def sshVs : List UInt8 := ascii "SSH-2.0-OpenSSH_9.7"

def kexAlgorithms : String :=
  "sntrup761x25519-sha512@openssh.com,curve25519-sha256,curve25519-sha256@libssh.org," ++
  "ecdh-sha2-nistp256,ecdh-sha2-nistp384,ecdh-sha2-nistp521," ++
  "diffie-hellman-group-exchange-sha256,diffie-hellman-group16-sha512," ++
  "diffie-hellman-group18-sha512,diffie-hellman-group14-sha256,ext-info-s," ++
  "kex-strict-s-v00@openssh.com"

def encAlgorithms : String :=
  "chacha20-poly1305@openssh.com,aes128-ctr,aes192-ctr,aes256-ctr,aes128-gcm@openssh.com," ++
  "aes256-gcm@openssh.com"

def macAlgorithms : String :=
  "umac-64-etm@openssh.com,umac-128-etm@openssh.com,hmac-sha2-256-etm@openssh.com," ++
  "hmac-sha2-512-etm@openssh.com,hmac-sha1-etm@openssh.com,umac-64@openssh.com," ++
  "umac-128@openssh.com,hmac-sha2-256,hmac-sha2-512,hmac-sha1"

def serverKexinit (cookie : List UInt8) : Option (List UInt8) :=
  let head := sshPutBytes sshIsMax (sshPutByte sshIsMax (some []) msgKexinit) cookie
  let lists := [kexAlgorithms, "rsa-sha2-512,rsa-sha2-256", encAlgorithms, encAlgorithms,
    macAlgorithms, macAlgorithms, "none,zlib@openssh.com", "none,zlib@openssh.com", "", ""]
  let named := lists.foldl (sshPutCstr sshIsMax) head
  sshPutU32 sshIsMax (sshPutByte sshIsMax named 0) 0

def greetWith
    (kexinit : Option (List UInt8)) : Turn :=
  if allows room sshId.length = false then .abort c rng
  else
    match kexinit with
    | none => ⟨c.abort, rng + 16, [.idLine sshId]⟩
    | some p =>
      let c := { c with is := p }
      match sshEmit env (roomAfter room [.idLine sshId]) c (rng + 16) p with
      | none => ⟨c.abort, rng + 16, [.idLine sshId]⟩
      | some e => ⟨{ e.conn with phase := .idsent }, e.rng, [.idLine sshId, .sent p e.wire]⟩

def emitIdKexinit : Turn :=
  greetWith env room c rng (serverKexinit (env.draw rng 16))

/-- `ssh_kdf_one`: the hash of the secret, extended by itself until it is long enough. -/
def kdfExtend (hash : List UInt8 → List UInt8) (seed : List UInt8) : (fuel : ℕ) →
    (out : List UInt8) → List UInt8
  | 0, out => out
  | fuel + 1, out => kdfExtend hash seed fuel (out ++ hash (seed ++ out))

def sshKdfOne (label : Char) (outlen : ℕ) : List UInt8 :=
  let hash := if c.kexSha512 then env.crypto.sha512 else env.crypto.sha256
  let hlen := if c.kexSha512 then 64 else 32
  let seed := c.kEnc ++ c.sessionId
  let first := hash (seed ++ [label.toNat.toUInt8] ++ c.sessionId)
  (kdfExtend hash seed ((outlen - 1) / hlen) first).take outlen

def sshKdf : SshConn :=
  if c.cipherGcm then
    { c with
      givIn := sshKdfOne env c 'A' 12
      givOut := sshKdfOne env c 'B' 12
      gcmIn := some (sshKdfOne env c 'C' c.gcmKeylen)
      gcmOut := some (sshKdfOne env c 'D' c.gcmKeylen) }
  else if c.cipherChacha then
    { c with
      cc20C2s := sshKdfOne env c 'C' 64
      cc20S2c := sshKdfOne env c 'D' 64 }
  else
    { c with
      ivIn := (sshKdfOne env c 'A' 16).take 12
      ccIn := be32 ((sshKdfOne env c 'A' 16).drop 12)
      ivOut := (sshKdfOne env c 'B' 16).take 12
      ccOut := be32 ((sshKdfOne env c 'B' 16).drop 12)
      cin := some (sshKdfOne env c 'C' 16)
      cout := some (sshKdfOne env c 'D' 16)
      macIn := sshKdfOne env c 'E' 32
      macOut := sshKdfOne env c 'F' 32 }

inductive CipherChoice
  | chacha
  | gcm (keylen : ℕ)
  | ctr

def cipherOf (name : List UInt8) : Option CipherChoice :=
  if name = ascii "chacha20-poly1305@openssh.com" then some .chacha
  else if name = ascii "aes256-gcm@openssh.com" then some (.gcm 32)
  else if name = ascii "aes128-gcm@openssh.com" then some (.gcm 16)
  else if name = ascii "aes128-ctr" then some .ctr
  else none

def sigOf (name : List UInt8) : Option Bool :=
  if name = ascii "rsa-sha2-512" then some true
  else if name = ascii "rsa-sha2-256" then some false
  else none

def SshConn.choose : Option CipherChoice → SshConn
  | some .chacha => { c with cipherChacha := true }
  | some (.gcm keylen) => { c with cipherGcm := true, gcmKeylen := keylen }
  | some .ctr => { c with cipherChacha := false }
  | none => c

def negotiate : SshConn :=
  let lists := do
    let (kex, off) ← sshRdStr c.ic 17
    let (hk, off) ← sshRdStr c.ic off
    let (enc, _) ← sshRdStr c.ic off
    pure (kex, hk, enc)
  match lists with
  | none => c
  | some (kex, hk, enc) =>
    let c := { c with
      strictKex := listHas kex "kex-strict-c-v00@openssh.com"
      sigSha512 := ((nameList hk).findSome? sigOf).getD c.sigSha512 }
    c.choose ((nameList enc).findSome? cipherOf)

def hostKeyBlob (crypto : Crypto) : Option (List UInt8) :=
  sshPutMpint 320 (sshPutMpint 320 (sshPutCstr 320 (some []) "ssh-rsa") crypto.hostE) crypto.hostN

/-- `sign_exchange_hash`, `none` where the caller aborts. -/
def signExchangeHash (h : List UInt8) : Option (List UInt8) :=
  let digest := if c.sigSha512 then env.crypto.sha512 h else env.crypto.sha256 h
  (env.crypto.rsaSign c.sigSha512 digest).bind fun sig =>
    sshPutString 320
      (sshPutCstr 320 (some []) (if c.sigSha512 then "rsa-sha2-512" else "rsa-sha2-256")) sig

def exchangeInput (ks qc qs : List UInt8) : Option (List UInt8) :=
  [c.vc, sshVs, c.ic, c.is, ks, qc, qs].foldl (sshPutString 8192) (some [])

def finishKex (rep : List UInt8) : Turn :=
  -- The reply, NEWKEYS and the keys: the common end of both exchanges.
  match sshEmit env room c rng rep with
  | none => .abort c rng
  | some e =>
    let reply := [.sent rep e.wire]
    match sshEmit env (roomAfter room reply) e.conn e.rng [msgNewkeys] with
    | none => ⟨e.conn.abort, e.rng, reply⟩
    | some e' =>
      let c := sshKdf env e'.conn
      ⟨{ c with
          sendEnc := true
          seqOut := if c.strictKex then 0 else c.seqOut
          phase := .kexed },
        e'.rng, reply ++ [.sent [msgNewkeys] e'.wire, .keyed c.receiveKeys]⟩

def signAndFinish (cap : ℕ)
    (ks qs : List UInt8) : Turn :=
  match signExchangeHash env c c.sessionId with
  | none => .abort c rng
  | some sb =>
    match [ks, qs, sb].foldl (sshPutString cap) (sshPutByte cap (some []) msgKexEcdhReply) with
    | none => .abort c rng
    | some rep => finishKex env room c rng rep

def doKex : Turn :=
  let scalar := env.draw rng 32
  let rng := rng + 32
  let c := { c with qs := env.crypto.mulgen scalar }
  match env.crypto.mul qc scalar with
  | none => .abort c rng
  | some k =>
    if k.all (· == 0) then .abort c rng
    else
      match hostKeyBlob env.crypto with
      | none => .abort c rng
      | some ks =>
        match sshPutMpint 8192 (exchangeInput c ks qc c.qs) k with
        | none => .abort c rng
        | some hb =>
          let c := { c with sessionId := env.crypto.sha256 hb, kexSha512 := false }
          match sshPutMpint 80 (some []) k with
          | none => .abort c rng
          | some kEnc => signAndFinish env room { c with kEnc := kEnc } rng 800 ks c.qs

def kemPublicKeyBytes : ℕ := 1158

def doKexHybrid : Turn :=
  let kem := env.crypto.kemEnc (qc.take kemPublicKeyBytes) (env.draw rng env.crypto.kemDraws)
  let rng := rng + env.crypto.kemDraws
  let scalar := env.draw rng 32
  let rng := rng + 32
  let c := { c with qs := env.crypto.mulgen scalar }
  match env.crypto.mul (qc.drop kemPublicKeyBytes) scalar with
  | none => .abort c rng
  | some ecdh =>
    if ecdh.all (· == 0) then .abort c rng
    else
      match sshPutString 80 (some []) (env.crypto.sha512 (kem.2 ++ ecdh)) with
      | none => .abort c rng
      | some kEnc =>
        let c := { c with kEnc := kEnc }
        match hostKeyBlob env.crypto with
        | none => .abort c rng
        | some ks =>
          match sshPutBytes 8192 (exchangeInput c ks qc (kem.1 ++ c.qs)) kEnc with
          | none => .abort c rng
          | some hb =>
            let c := { c with sessionId := env.crypto.sha512 hb, kexSha512 := true }
            signAndFinish env room c rng 2048 ks (kem.1 ++ c.qs)

end SotOs.Synth
