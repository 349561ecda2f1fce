import Mathlib

/-! The TLS 1.3 wire format: the suites served, the ClientHello reader and the handshake-message
serializers. -/

namespace SotOs.Synth.Tls13

def wr16 (v : UInt16) : List UInt8 := [(v >>> 8).toUInt8, v.toUInt8]

def wr24 (v : UInt32) : List UInt8 := [(v >>> 16).toUInt8, (v >>> 8).toUInt8, v.toUInt8]

def rd16 (a b : UInt8) : UInt16 := (a.toUInt16 <<< 8) ||| b.toUInt16

def rd24 (a b c : UInt8) : UInt32 := (a.toUInt32 <<< 16) ||| (b.toUInt32 <<< 8) ||| c.toUInt32

inductive Hash
  | sha256
  | sha384
  deriving DecidableEq

def Hash.size : Hash → ℕ
  | .sha256 => 32
  | .sha384 => 48

inductive Aead
  | aes128Gcm
  | aes256Gcm
  | chacha20Poly1305
  deriving DecidableEq

/-- `tls13_suite_t`; the hash, transcript and finished lengths are those of the hash. -/
structure Suite where
  id : UInt16
  hash : Hash
  aead : Aead
  keyLen : ℕ
  sigalg : UInt16
  deriving DecidableEq

def aes128GcmSha256 : Suite := ⟨0x1301, .sha256, .aes128Gcm, 16, 0x0804⟩
def aes256GcmSha384 : Suite := ⟨0x1302, .sha384, .aes256Gcm, 32, 0x0805⟩
def chacha20Poly1305Sha256 : Suite := ⟨0x1303, .sha256, .chacha20Poly1305, 32, 0x0804⟩

def suites : List Suite := [aes128GcmSha256, aes256GcmSha384, chacha20Poly1305Sha256]

def suiteById (id : UInt16) : Option Suite := suites.find? (·.id == id)

inductive Group
  | x25519
  | secp256r1
  | secp384r1
  deriving DecidableEq

def Group.id : Group → UInt16
  | .x25519 => 0x001d
  | .secp256r1 => 0x0017
  | .secp384r1 => 0x0018

def Group.shareLen : Group → ℕ
  | .x25519 => 32
  | .secp256r1 => 65
  | .secp384r1 => 97

/-- `tls13_clienthello_t`. A share is present where its `has_*_share` flag is set. -/
structure ClientHello where
  ok : Bool := false
  x25519Share : Option (List UInt8) := none
  x25519InGroups : Bool := false
  p256Share : Option (List UInt8) := none
  p256InGroups : Bool := false
  p384Share : Option (List UInt8) := none
  p384InGroups : Bool := false
  suite1301 : Bool := false
  suite1302 : Bool := false
  suite1303 : Bool := false
  firstServedSuite : UInt16 := 0
  sigalg0804 : Bool := false
  sessionId : List UInt8 := []
  deriving DecidableEq

def pairs : List UInt8 → List UInt16
  | a :: b :: rest => rd16 a b :: pairs rest
  | _ => []

variable (cap : ℕ) (ch : ClientHello) (body : List UInt8) (suiteId : UInt16)

def ClientHello.noteVersion (ver : UInt16) : ClientHello :=
  if ver = 0x0304 then { ch with ok := true } else ch

def ClientHello.noteGroup (grp : UInt16) : ClientHello :=
  if grp = Group.x25519.id then { ch with x25519InGroups := true }
  else if grp = Group.secp256r1.id then { ch with p256InGroups := true }
  else if grp = Group.secp384r1.id then { ch with p384InGroups := true }
  else ch

def ClientHello.noteSigalg (sa : UInt16) : ClientHello :=
  if sa = 0x0804 then { ch with sigalg0804 := true } else ch

def ClientHello.noteShare (grp : UInt16) (key : List UInt8) : ClientHello :=
  -- The first share of a group is kept; a share of another length is passed over.
  if grp = Group.x25519.id ∧ key.length = 32 ∧ ch.x25519Share = none then
    { ch with x25519Share := some key }
  else if grp = Group.secp256r1.id ∧ key.length = 65 ∧ key.head? = some 0x04 ∧
      ch.p256Share = none then
    { ch with p256Share := some key }
  else if grp = Group.secp384r1.id ∧ key.length = 97 ∧ key.head? = some 0x04 ∧
      ch.p384Share = none then
    { ch with p384Share := some key }
  else ch

def ClientHello.noteSuite (suite : UInt16) : ClientHello :=
  -- The first served suite in the client's order is remembered.
  let first := if ch.firstServedSuite = 0 then suite else ch.firstServedSuite
  if suite = 0x1301 then { ch with suite1301 := true, firstServedSuite := first }
  else if suite = 0x1302 then { ch with suite1302 := true, firstServedSuite := first }
  else if suite = 0x1303 then { ch with suite1303 := true, firstServedSuite := first }
  else ch

def walkShares : (fuel : ℕ) → List UInt8 → ClientHello → Option ClientHello
  | 0, _, ch => some ch
  | fuel + 1, shares, ch =>
    match shares with
    | g₁ :: g₀ :: k₁ :: k₀ :: rest =>
      let klen := (rd16 k₁ k₀).toNat
      if rest.length < klen then none
      else walkShares fuel (rest.drop klen) (ch.noteShare (rd16 g₁ g₀) (rest.take klen))
    | _ => some ch

def listBody (ch : ClientHello)
    (read : List UInt8 → Option ClientHello) : Option ClientHello :=
  -- An extension whose body is a list with a two-byte length; a shorter body is passed over.
  match body with
  | n₁ :: n₀ :: rest =>
    let n := (rd16 n₁ n₀).toNat
    if rest.length < n then none else read (rest.take n)
  | _ => some ch

def readExtension (etype : UInt16) (body : List UInt8) (ch : ClientHello) : Option ClientHello :=
  if etype = 0x002b then
    match body with
    | n :: rest =>
      if rest.length < n.toNat then none
      else some ((pairs (rest.take n.toNat)).foldl ClientHello.noteVersion ch)
    | [] => some ch
  else if etype = 0x000a then
    listBody body ch fun groups => some ((pairs groups).foldl ClientHello.noteGroup ch)
  else if etype = 0x0033 then
    listBody body ch fun shares => walkShares shares.length shares ch
  else if etype = 0x000d then
    listBody body ch fun sigalgs => some ((pairs sigalgs).foldl ClientHello.noteSigalg ch)
  else some ch

def walkExtensions : (fuel : ℕ) → List UInt8 → ClientHello → Option ClientHello
  | 0, _, ch => some ch
  | fuel + 1, ext, ch =>
    match ext with
    | t₁ :: t₀ :: n₁ :: n₀ :: rest =>
      let elen := (rd16 n₁ n₀).toNat
      if rest.length < elen then none
      else
        (readExtension (rd16 t₁ t₀) (rest.take elen) ch).bind
          (walkExtensions fuel (rest.drop elen))
    | _ => some ch

def readTail (tail : List UInt8) (ch : ClientHello) : Option ClientHello :=
  match tail with
  | compLen :: rest =>
    if rest.length < compLen.toNat then none
    else
      match rest.drop compLen.toNat with
      | e₁ :: e₀ :: ext =>
        let total := (rd16 e₁ e₀).toNat
        if ext.length < total then none else walkExtensions total (ext.take total) ch
      | _ => none
  | [] => none

def readBody : Option ClientHello :=
  match body.drop 34 with
  | sidLen :: rest =>
    if 32 < sidLen.toNat ∨ rest.length < sidLen.toNat then none
    else
      match rest.drop sidLen.toNat with
      | c₁ :: c₀ :: offered =>
        let csLen := (rd16 c₁ c₀).toNat
        if offered.length < csLen then none
        else
          let ch : ClientHello := { sessionId := rest.take sidLen.toNat }
          readTail (offered.drop csLen)
            ((pairs (offered.take csLen)).foldl ClientHello.noteSuite ch)
      | _ => none
  | [] => none

def readHello (frag : List UInt8) : Option ClientHello :=
  match frag with
  | h :: n₂ :: n₁ :: n₀ :: msg =>
    if h ≠ 0x01 then none
    else
      let hsLen := (rd24 n₂ n₁ n₀).toNat
      if msg.length < hsLen then none else readBody (msg.take hsLen)
  | _ => none

/-- `tls13_parse_clienthello`: the view is clamped to what the record header claims. -/
def parseClienthello (rec : List UInt8) : Option ClientHello :=
  match rec with
  | t :: _ :: _ :: n₁ :: n₀ :: rest =>
    if t ≠ 0x16 then none
    else
      let fragLen := (rd16 n₁ n₀).toNat
      if rest.length < fragLen then none else readHello (rest.take fragLen)
  | _ => none

/-- `tls13_clienthello_offers_13`; what its first checks refuse, the parser refuses. -/
def clienthelloOffers13 (rec : List UInt8) : Option Bool := (parseClienthello rec).map (·.ok)

def usableShare (group : Group) (listed : Bool) (share : Option (List UInt8)) :
    Option (Group × List UInt8) :=
  if listed then share.map (Prod.mk group) else none

def selectGroup : Option (Group × List UInt8) :=
  usableShare .x25519 ch.x25519InGroups ch.x25519Share <|>
    usableShare .secp256r1 ch.p256InGroups ch.p256Share <|>
    usableShare .secp384r1 ch.p384InGroups ch.p384Share

def retryGroup : Option Group :=
  if ch.x25519InGroups then some .x25519
  else if ch.p256InGroups then some .secp256r1
  else if ch.p384InGroups then some .secp384r1
  else none

def selectSuite : Option Suite := suiteById ch.firstServedSuite

def hsMessage (t : UInt8) (body : List UInt8) : List UInt8 :=
  t :: (wr24 (UInt32.ofNat body.length) ++ body)

def chkCap (msg : List UInt8) : Option (List UInt8) :=
  if cap < msg.length then none else some msg

def makeEe : Option (List UInt8) := chkCap cap (hsMessage 0x08 (wr16 0))

def helloBody (random sessionId : List UInt8) (suiteId : UInt16) (keyShare : List UInt8) :
    List UInt8 :=
  let ext := wr16 0x002b ++ wr16 0x0002 ++ wr16 0x0304 ++
    (wr16 0x0033 ++ wr16 (UInt16.ofNat keyShare.length) ++ keyShare)
  wr16 0x0303 ++ random ++ (UInt8.ofNat sessionId.length :: sessionId) ++ wr16 suiteId ++
    [0x00] ++ wr16 (UInt16.ofNat ext.length) ++ ext

def makeServerhello (group : UInt16) (srvPub sessionId random : List UInt8) :
    Option (List UInt8) :=
  let keyShare := wr16 group ++ wr16 (UInt16.ofNat srvPub.length) ++ srvPub
  chkCap cap (hsMessage 0x02 (helloBody random sessionId suiteId keyShare))

def hrrRandom : List UInt8 :=
  [0xCF, 0x21, 0xAD, 0x74, 0xE5, 0x9A, 0x61, 0x11, 0xBE, 0x1D, 0x8C, 0x02, 0x1E, 0x65, 0xB8, 0x91,
    0xC2, 0xA2, 0x11, 0x16, 0x7A, 0xBB, 0x8C, 0x5E, 0x07, 0x9E, 0x09, 0xE2, 0xC8, 0xA8, 0x33, 0x9C]

def makeHrr (group : UInt16) (sessionId : List UInt8) : Option (List UInt8) :=
  chkCap cap (hsMessage 0x02 (helloBody hrrRandom sessionId suiteId (wr16 group)))

def makeCert (der : List UInt8) : Option (List UInt8) :=
  let entry := wr24 (UInt32.ofNat der.length) ++ der ++ wr16 0
  chkCap cap (hsMessage 0x0b ([0x00] ++ wr24 (UInt32.ofNat entry.length) ++ entry))

def makeCertverify (suite : Suite) (sig : Option (List UInt8)) : Option (List UInt8) :=
  if cap < 4 + 260 then none
  else
    sig.bind fun sig =>
      if sig.length ≠ 256 then none
      else some (hsMessage 0x0f (wr16 suite.sigalg ++ wr16 256 ++ sig))

def makeFinished (verifyData : List UInt8) : Option (List UInt8) :=
  chkCap cap (hsMessage 0x14 verifyData)

end SotOs.Synth.Tls13
