import SotOs.Synth.SshWire

/-! One SSH session and its binary packet layer: sealing a packet, and opening the next one from the
reassembly buffer, in the clear and in the three encrypted modes. -/

namespace SotOs.Synth

/-- The primitives. Of a context that was never keyed (`none`) AES-CTR still computes something;
GCM does not survive it. -/
structure Crypto where
  chacha : (key iv : List UInt8) → (cc : UInt32) → List UInt8 → List UInt8
  chacha_length : ∀ key iv cc data, (chacha key iv cc data).length = data.length
  poly1305 : (msg key : List UInt8) → List UInt8
  poly1305_length : ∀ msg key, (poly1305 msg key).length = 16
  aesCtr : (key : Option (List UInt8)) → (iv : List UInt8) → (cc : UInt32) → List UInt8 →
    List UInt8 × UInt32
  aesCtr_length : ∀ key iv cc data, (aesCtr key iv cc data).1.length = data.length
  hmac : (key msg : List UInt8) → List UInt8
  hmac_length : ∀ key msg, (hmac key msg).length = 32
  gcm : (encrypt : Bool) → (key iv aad data : List UInt8) → List UInt8 × List UInt8
  gcm_length : ∀ encrypt key iv aad data, (gcm encrypt key iv aad data).1.length = data.length
  gcm_tag_length : ∀ encrypt key iv aad data, (gcm encrypt key iv aad data).2.length = 16
  sha256 : List UInt8 → List UInt8
  sha512 : List UInt8 → List UInt8
  mulgen : (scalar : List UInt8) → List UInt8
  mul : (point scalar : List UInt8) → Option (List UInt8)
  /-- The random bytes one encapsulation draws. -/
  kemDraws : ℕ
  kemEnc : (pub rand : List UInt8) → List UInt8 × List UInt8
  rsaSign : (sha512 : Bool) → (hash : List UInt8) → Option (List UInt8)
  hostE : List UInt8
  hostN : List UInt8

structure Env where
  crypto : Crypto
  rand : ℕ → UInt8

def Env.draw (env : Env) (rng n : ℕ) : List UInt8 := (List.range n).map fun k => env.rand (rng + k)

@[simp] theorem draw_length (env : Env) (rng n : ℕ) : (env.draw rng n).length = n := by
  simp [Env.draw]

def plainEnv : Env where
  crypto := {
    chacha := fun _ _ _ data => data
    chacha_length := fun _ _ _ _ => rfl
    poly1305 := fun _ _ => List.replicate 16 0
    poly1305_length := fun _ _ => List.length_replicate
    aesCtr := fun _ _ cc data => (data, cc)
    aesCtr_length := fun _ _ _ _ => rfl
    hmac := fun _ _ => List.replicate 32 0
    hmac_length := fun _ _ => List.length_replicate
    gcm := fun _ _ _ _ data => (data, List.replicate 16 0)
    gcm_length := fun _ _ _ _ _ => rfl
    gcm_tag_length := fun _ _ _ _ _ => List.length_replicate
    sha256 := fun _ => List.replicate 32 1
    sha512 := fun _ => List.replicate 64 1
    mulgen := fun _ => List.replicate 32 9
    mul := fun _ _ => some (List.replicate 32 5)
    kemDraws := 0
    kemEnc := fun _ _ => ([], [])
    rsaSign := fun _ _ => some [7]
    hostE := [1]
    hostN := [1] }
  rand := fun _ => 0

def sshRxMax : ℕ := 4096
def sshIcMax : ℕ := 2560
def sshVcMax : ℕ := 256
def sshIsMax : ℕ := 1280
def sshPlMax : ℕ := 2560

inductive SshPhase
  | fresh | idsent | kexed | auth
  deriving DecidableEq

def SshPhase.keyed : SshPhase → Bool
  | .kexed | .auth => true
  | .fresh | .idsent => false

structure SshConn where
  connId : UInt16
  phase : SshPhase
  idDone : Bool
  aborted : Bool
  rx : List UInt8
  vc : List UInt8
  ic : List UInt8
  is : List UInt8
  qs : List UInt8
  sessionId : List UInt8
  kexSha512 : Bool
  kEnc : List UInt8
  seqIn : UInt32
  seqOut : UInt32
  sendEnc : Bool
  recvEnc : Bool
  cin : Option (List UInt8)
  cout : Option (List UInt8)
  ivIn : List UInt8
  ivOut : List UInt8
  ccIn : UInt32
  ccOut : UInt32
  macIn : List UInt8
  macOut : List UInt8
  cipherChacha : Bool
  cc20C2s : List UInt8
  cc20S2c : List UInt8
  cipherGcm : Bool
  gcmKeylen : ℕ
  gcmIn : Option (List UInt8)
  gcmOut : Option (List UInt8)
  givIn : List UInt8
  givOut : List UInt8
  sigSha512 : Bool
  strictKex : Bool
  authFails : ℕ
  shellActive : Bool
  shellStartPending : Bool
  clientEof : Bool
  isExec : Bool
  execCmd : List UInt8
  peerChan : UInt32
  peerWindow : UInt32
  deriving DecidableEq

def SshConn.init (connId : UInt16) : SshConn where
  connId := connId
  phase := .fresh
  idDone := false
  aborted := false
  rx := []
  vc := []
  ic := []
  is := []
  qs := []
  sessionId := []
  kexSha512 := false
  kEnc := []
  seqIn := 0
  seqOut := 0
  sendEnc := false
  recvEnc := false
  cin := none
  cout := none
  ivIn := List.replicate 12 0
  ivOut := List.replicate 12 0
  ccIn := 0
  ccOut := 0
  macIn := List.replicate 32 0
  macOut := List.replicate 32 0
  cipherChacha := false
  cc20C2s := List.replicate 64 0
  cc20S2c := List.replicate 64 0
  cipherGcm := false
  gcmKeylen := 0
  gcmIn := none
  gcmOut := none
  givIn := List.replicate 12 0
  givOut := List.replicate 12 0
  sigSha512 := false
  strictKex := false
  authFails := 0
  shellActive := false
  shellStartPending := false
  clientEof := false
  isExec := false
  execCmd := []
  peerChan := 0
  peerWindow := 0

def cc20Iv (seqnr : UInt32) : List UInt8 := List.replicate 8 0 ++ u32Bytes seqnr

variable (crypto : Crypto) (c : SshConn) (body : List UInt8) (pktlen : ℕ)

def cc20PolyKey (keys : List UInt8) (seqnr : UInt32) : List UInt8 :=
  crypto.chacha (keys.take 32) (cc20Iv seqnr) 0 (List.replicate 32 0)

def cc20Seal (keys : List UInt8) (seqnr : UInt32) (body : List UInt8) :
    List UInt8 :=
  let len := crypto.chacha (keys.drop 32) (cc20Iv seqnr) 0 (u32Bytes (UInt32.ofNat body.length))
  let sealed := len ++ crypto.chacha (keys.take 32) (cc20Iv seqnr) 1 body
  sealed ++ crypto.poly1305 sealed (cc20PolyKey crypto keys seqnr)

def bumpBytes : List UInt8 → List UInt8
  | [] => []
  | b :: rest => if b + 1 ≠ 0 then (b + 1) :: rest else 0 :: bumpBytes rest

def gcmIvIncr (iv : List UInt8) : List UInt8 := iv.take 4 ++ (bumpBytes (iv.drop 4).reverse).reverse

def gcmSeal (key iv body : List UInt8) : List UInt8 :=
  let len := u32Bytes (UInt32.ofNat body.length)
  let r := crypto.gcm true key iv len body
  len ++ r.1 ++ r.2

structure Emitted where
  conn : SshConn
  rng : ℕ
  wire : List UInt8

/-- Frame one packet and, once our keys are in use, encrypt it; `none` if it does not fit. -/
def sshEmit (env : Env) (room : Option ℕ) (c : SshConn) (rng : ℕ) (payload : List UInt8) :
    Option Emitted :=
  let sent := { c with seqOut := c.seqOut + 1 }
  if c.sendEnc = false then
    (sshPktFrame room payload).map fun wire => ⟨sent, rng, wire⟩
  else if c.cipherGcm then
    let pad := padTo 16 (payload.length + 1)
    match c.gcmOut with
    | none => none
    | some key =>
      if allows room (4 + (1 + payload.length + pad) + 16) then
        some ⟨{ sent with givOut := gcmIvIncr c.givOut }, rng + pad,
          gcmSeal env.crypto key c.givOut (packetBody payload (env.draw rng pad))⟩
      else none
  else if c.cipherChacha then
    let pad := padTo 8 (payload.length + 1)
    if allows room (4 + (1 + payload.length + pad) + 16) then
      some ⟨sent, rng + pad,
        cc20Seal env.crypto c.cc20S2c c.seqOut (packetBody payload (env.draw rng pad))⟩
    else none
  else
    let pad := padTo 16 (payload.length + 5)
    if allows room (4 + (1 + payload.length + pad) + 32) then
      let body := packetBody payload (env.draw rng pad)
      let packet := u32Bytes (UInt32.ofNat body.length) ++ body
      -- the MAC is over the packet in the clear
      let mac := env.crypto.hmac c.macOut (u32Bytes c.seqOut ++ packet)
      let r := env.crypto.aesCtr c.cout c.ivOut c.ccOut packet
      some ⟨{ sent with ccOut := r.2 }, rng + pad, r.1 ++ mac⟩
    else none

inductive Opened
  | more
  | bad (c : SshConn)
  | packet (c : SshConn) (payload : List UInt8)

def SshConn.shifted (total : ℕ) : SshConn :=
  { c with rx := c.rx.drop total, seqIn := c.seqIn + 1 }

def SshConn.abort : SshConn := { c with aborted := true }

def unpad : Option (List UInt8) :=
  match body with
  | [] => none
  | padlen :: rest =>
    if body.length < padlen.toNat + 1 then none
    else if sshPlMax < body.length - padlen.toNat - 1 then none
    else some (rest.take (body.length - padlen.toNat - 1))

def Opened.of (total : ℕ) (body : List UInt8) : Opened :=
  match unpad body with
  | none => .bad c.abort
  | some payload => .packet (c.shifted total) payload

def openWith (head tag pktlen : ℕ) (inRange : Bool) (finish : Opened) : Opened :=
  if c.rx.length < head then .more
  else if inRange = false then .bad c.abort
  else if c.rx.length < 4 + pktlen + tag then .more
  else finish

def openClear : Opened :=
  let pktlen := (be32 c.rx).toNat
  openWith c 4 0 pktlen (decide (2 ≤ pktlen ∧ pktlen ≤ sshRxMax - 4))
    (.of c (4 + pktlen) ((c.rx.drop 4).take pktlen))

def decMax : ℕ := 2560

def cc20Finish : Opened :=
  let tag := crypto.poly1305 (c.rx.take (4 + pktlen)) (cc20PolyKey crypto c.cc20C2s c.seqIn)
  if tag ≠ (c.rx.drop (4 + pktlen)).take 16 then .bad c.abort
  else if decMax < pktlen then .bad c.abort
  else .of c (4 + pktlen + 16)
    (crypto.chacha (c.cc20C2s.take 32) (cc20Iv c.seqIn) 1 ((c.rx.drop 4).take pktlen))

def cc20Open : Opened :=
  let len := crypto.chacha (c.cc20C2s.drop 32) (cc20Iv c.seqIn) 0 (c.rx.take 4)
  let pktlen := (be32 len).toNat
  openWith c 4 16 pktlen (decide (2 ≤ pktlen ∧ pktlen ≤ sshPlMax + 64))
    (cc20Finish crypto c pktlen)

def gcmFinish : Opened :=
  if decMax < pktlen then .bad c.abort
  else
    match c.gcmIn with
    | none => .bad c.abort
    | some key =>
      let r := crypto.gcm false key c.givIn (c.rx.take 4) ((c.rx.drop 4).take pktlen)
      if r.2 ≠ (c.rx.drop (4 + pktlen)).take 16 then .bad c.abort
      else .of { c with givIn := gcmIvIncr c.givIn } (4 + pktlen + 16) r.1

def gcmOpen : Opened :=
  let pktlen := (be32 c.rx).toNat
  openWith c 4 16 pktlen (decide (pktlen % 16 = 0 ∧ 16 ≤ pktlen ∧ pktlen ≤ sshPlMax + 64))
    (gcmFinish crypto c pktlen)

def ctrFinish : Opened :=
  -- The AES-CTR packet once it is complete; the counter moves only once the MAC is right.
  let r := crypto.aesCtr c.cin c.ivIn c.ccIn (c.rx.take (4 + pktlen))
  let mac := crypto.hmac c.macIn (u32Bytes c.seqIn ++ r.1)
  if mac ≠ (c.rx.drop (4 + pktlen)).take 32 then .bad c.abort
  else .of { c with ccIn := r.2 } (4 + pktlen + 32) (r.1.drop 4)

def ctrOpen : Opened :=
  -- AES-CTR has to decrypt a whole block, of a copy, to read the length.
  let pktlen := (be32 (crypto.aesCtr c.cin c.ivIn c.ccIn (c.rx.take 16)).1).toNat
  openWith c 16 32 pktlen
    (decide (12 ≤ pktlen ∧ pktlen ≤ sshRxMax - 4 - 32 ∧ (4 + pktlen) % 16 = 0))
    (ctrFinish crypto c pktlen)

def sshNextPacket : Opened :=
  if c.recvEnc = false then openClear c
  else if c.cipherGcm then gcmOpen crypto c
  else if c.cipherChacha then cc20Open crypto c
  else ctrOpen crypto c

end SotOs.Synth
