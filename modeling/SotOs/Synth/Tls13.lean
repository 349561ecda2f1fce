import SotOs.Lib.Fallible
import SotOs.Synth.SshWire
import SotOs.Synth.Tls13Wire

/-! The TLS 1.3 server session: the key schedule, the record layer, the server flight and the feed
of inbound records. -/

namespace SotOs.Synth.Tls13
open Fallible

structure Prims where
  hash : Hash → List UInt8 → List UInt8
  hmac : Hash → (key data : List UInt8) → List UInt8
  aeadSeal : Aead → (key nonce aad inner : List UInt8) → List UInt8
  aeadOpen : Aead → (key nonce aad ct : List UInt8) → Option (List UInt8)
  keygen : Group → (seed : List UInt8) → Option (List UInt8)
  mulgen : Group → (scalar : List UInt8) → List UInt8
  mul : Group → (point scalar : List UInt8) → Option (List UInt8)
  sign : (sigalg : UInt16) → (th salt : List UInt8) → Option (List UInt8)
  chain : List UInt8
  random : ℕ → UInt8
  hash_length : ∀ h m, (hash h m).length = h.size
  hmac_length : ∀ h k m, (hmac h k m).length = h.size
  seal_length : ∀ a k n d m, (aeadSeal a k n d m).length = m.length + 16
  open_length : ∀ a k n d c m, aeadOpen a k n d c = some m → m.length + 16 = c.length

def Prims.draw (P : Prims) (rng n : ℕ) : List UInt8 := (List.range n).map fun i => P.random (rng + i)

inductive Epoch
  | handshake
  | application
  deriving DecidableEq

structure TrafficKey where
  key : List UInt8 := []
  iv : List UInt8 := []
  deriving DecidableEq

inductive St
  | start
  | waitFinished
  | app
  | err
  deriving DecidableEq

/-- `tls13_sess_t`, but for its place in the table of sessions. -/
structure Sess where
  st : St := .start
  suite : Option Suite := none
  th : List UInt8 := []
  srvEphPriv : List UInt8 := []
  srvEphPub : List UInt8 := []
  ecdheShared : List UInt8 := []
  selectedGroup : Option Group := none
  cHs : TrafficKey := {}
  sHs : TrafficKey := {}
  cAp : TrafficKey := {}
  sAp : TrafficKey := {}
  cFinishedKey : List UInt8 := []
  sFinishedKey : List UInt8 := []
  cHsSecret : List UInt8 := []
  sHsSecret : List UInt8 := []
  masterSecret : List UInt8 := []
  seqRx : UInt64 := 0
  seqTx : UInt64 := 0
  rxApp : Bool := false
  txApp : Bool := false
  legacySessionId : List UInt8 := []
  hrrSent : Bool := false
  hrrGroup : Option Group := none
  deriving DecidableEq

def Sess.txKey (s : Sess) : Epoch → TrafficKey
  | .handshake => s.sHs
  | .application => s.sAp

def Sess.rxKey (s : Sess) : Epoch → TrafficKey
  | .handshake => s.cHs
  | .application => s.cAp

inductive Event
  | sealed (epoch : Epoch) (seq : UInt64)
  | opened (epoch : Epoch) (seq : UInt64) (inner : UInt8) (pt : List UInt8)
  | hashed (th : List UInt8)
  | verified (key expect : List UInt8)
  | request (req : List UInt8)
  | retry
  deriving DecidableEq

structure Work where
  sess : Sess
  rng : ℕ
  out : List UInt8
  log : List Event
  deriving DecidableEq

section
variable (P : Prims)

def hkdfExtract (h : Hash) (salt : Option (List UInt8)) (ikm : List UInt8) : List UInt8 :=
  -- An absent salt is a hash length of zeros.
  P.hmac h (salt.getD (List.replicate h.size 0)) ikm

def hkdfExpand (h : Hash) (secret info : List UInt8) :
    (fuel : ℕ) → (t : List UInt8) → (ctr : UInt8) → (left : ℕ) → List UInt8
  | 0, _, _, _ => []
  | fuel + 1, t, ctr, left =>
    if left = 0 then []
    else
      let t' := P.hmac h secret (t ++ info ++ [ctr])
      t'.take left ++ hkdfExpand h secret info fuel t' (ctr + 1) (left - h.size)

def expandLabel (h : Hash) (secret : List UInt8) (label : String) (ctx : List UInt8) (ol : ℕ) :
    List UInt8 :=
  let full := ascii "tls13 " ++ ascii label
  let info := wr16 (UInt16.ofNat ol) ++ (UInt8.ofNat full.length :: full) ++
    (UInt8.ofNat ctx.length :: ctx)
  hkdfExpand P h secret info ol [] 1 ol

def deriveSecret (h : Hash) (secret : List UInt8) (label : String) (th : List UInt8) : List UInt8 :=
  expandLabel P h secret label th h.size

variable (cap : ℕ) (suite : Suite) (app : Option (List UInt8 → List UInt8)) (secret : List UInt8)
    (ch : ClientHello) (group : Group) (rec : List UInt8) (w : Work) (frag : List UInt8)

def trafficKey : TrafficKey :=
  ⟨expandLabel P suite.hash secret "key" [] suite.keyLen, expandLabel P suite.hash secret "iv" [] 12⟩

def keyScheduleHandshake (thChsh : List UInt8) (s : Sess) : Sess :=
  let h := suite.hash
  let zero := List.replicate h.size 0
  let emptyTh := P.hash h []
  let early := hkdfExtract P h none zero
  let hs := hkdfExtract P h (some (deriveSecret P h early "derived" emptyTh)) s.ecdheShared
  let cHsSecret := deriveSecret P h hs "c hs traffic" thChsh
  let sHsSecret := deriveSecret P h hs "s hs traffic" thChsh
  { s with
    cHsSecret := cHsSecret
    sHsSecret := sHsSecret
    cHs := trafficKey P suite cHsSecret
    sHs := trafficKey P suite sHsSecret
    cFinishedKey := expandLabel P h cHsSecret "finished" [] h.size
    sFinishedKey := expandLabel P h sHsSecret "finished" [] h.size
    masterSecret := hkdfExtract P h (some (deriveSecret P h hs "derived" emptyTh)) zero }

def keyScheduleApplication (thFull : List UInt8) (s : Sess) : Sess :=
  let h := suite.hash
  { s with
    cAp := trafficKey P suite (deriveSecret P h s.masterSecret "c ap traffic" thFull)
    sAp := trafficKey P suite (deriveSecret P h s.masterSecret "s ap traffic" thFull) }

def mkNonce (iv : List UInt8) (seq : UInt64) : List UInt8 :=
  let be := [56, 48, 40, 32, 24, 16, 8, 0].map fun k : UInt64 => (seq >>> k).toUInt8
  List.zipWith (· ^^^ ·) iv (List.replicate 4 0 ++ be)

def recordHeader (ctLen : ℕ) : List UInt8 := [0x17, 0x03, 0x03] ++ wr16 (UInt16.ofNat ctLen)

def recordSeal (k : TrafficKey) (seq : UInt64) (innerType : UInt8)
    (pt : List UInt8) (room : ℕ) : Option (List UInt8) :=
  if room < 22 + pt.length then none
  else
    let hdr := recordHeader (pt.length + 1 + 16)
    some (hdr ++ P.aeadSeal suite.aead k.key (mkNonce k.iv seq) hdr (pt ++ [innerType]))

/-- `tls13_record_open`, into `cap` bytes: the inner type is the last byte that is not zero. -/
def recordOpen (k : TrafficKey) (seq : UInt64) (rec : List UInt8) (cap : ℕ) :
    Option (UInt8 × List UInt8) :=
  match rec with
  | t :: v₁ :: v₀ :: n₁ :: n₀ :: ct =>
    let ctLen := (rd16 n₁ n₀).toNat
    if t ≠ 0x17 ∨ v₁ ≠ 0x03 ∨ v₀ ≠ 0x03 ∨ ctLen ≠ ct.length ∨ ctLen < 16 ∨ cap < ctLen - 16 then none
    else
      (P.aeadOpen suite.aead k.key (mkNonce k.iv seq) [t, v₁, v₀, n₁, n₀] ct).bind fun inner =>
        match inner.reverse.dropWhile (· == 0) with
        | [] => none
        | innerType :: content => some (innerType, content.reverse)
  | _ => none

def thMax : ℕ := 16384

def thAppend (msg : List UInt8) (w : Work) : Outcome Work :=
  if thMax < w.sess.th.length + msg.length then .fail w
  else .ok { w with sess := { w.sess with th := w.sess.th ++ msg } }

def emit (bytes : List UInt8) (w : Work) : Outcome Work :=
  if cap < w.out.length + bytes.length then .fail w else .ok { w with out := w.out ++ bytes }

def emitCleartextHs (msg : List UInt8) (w : Work) : Outcome Work :=
  emit cap ([0x16, 0x03, 0x03] ++ wr16 (UInt16.ofNat msg.length) ++ msg) w

def changeCipherSpec : List UInt8 := [0x14, 0x03, 0x03, 0x00, 0x01, 0x01]

def transcriptHash (k : List UInt8 → Work → Outcome Work) : Outcome Work :=
  k (P.hash suite.hash w.sess.th) { w with log := w.log ++ [.hashed w.sess.th] }

def sealUnder (epoch : Epoch) (innerType : UInt8) (pt : List UInt8)
    (w : Work) : Outcome Work :=
  -- Seal a record under one of the server's keys. The number is used up even if the record does not
  -- fit.
  if cap < w.out.length then .fail w
  else
    let seq := w.sess.seqTx
    let w' : Work := { w with sess := { w.sess with seqTx := seq + 1 } }
    .given w' (recordSeal P suite (w.sess.txKey epoch) seq innerType pt (cap - w.out.length))
      fun rec => .ok { w' with out := w.out ++ rec, log := w.log ++ [.sealed epoch seq] }

def appendAndSealHs (msg : Option (List UInt8)) (w : Work) : Outcome Work :=
  .given w msg fun msg => (thAppend msg w).bind (sealUnder P cap suite .handshake 0x16 msg)

def Work.drawn (n : ℕ) : Work := { w with rng := w.rng + n }

def sendServerhello : Outcome Work :=
  let s := w.sess
  let random := P.draw w.rng 32
  let group := (s.selectedGroup.map Group.id).getD 0
  .given w (makeServerhello 256 suite.id group s.srvEphPub s.legacySessionId random) fun msg =>
    (thAppend msg (w.drawn 32)).bind fun w => (emitCleartextHs cap msg w).bind fun w =>
      transcriptHash P suite w fun thChsh w =>
        .ok { w with
          sess := { keyScheduleHandshake P suite thChsh w.sess with seqTx := 0, txApp := false } }

def sendCertverify : Outcome Work :=
  transcriptHash P suite w fun thCert w =>
    let salt := P.draw w.rng suite.hash.size
    appendAndSealHs P cap suite (makeCertverify 2048 suite (P.sign suite.sigalg thCert salt))
      (w.drawn suite.hash.size)

def sendFinished : Outcome Work :=
  transcriptHash P suite w fun thCv w =>
    appendAndSealHs P cap suite
      (makeFinished 2048 (P.hmac suite.hash w.sess.sFinishedKey thCv)) w

def finishFlight : Outcome Work :=
  -- The application keys; the client's Finished still comes under its handshake key.
  transcriptHash P suite w fun thFull w =>
    .ok { w with
      sess := { keyScheduleApplication P suite thFull w.sess with
        st := .waitFinished, rxApp := false, seqRx := 0 } }

def buildServerFlight : Outcome Work :=
  (sendServerhello P cap suite w).bind fun w =>
  (emit cap changeCipherSpec w).bind fun w =>
  (appendAndSealHs P cap suite (makeEe 2048) w).bind fun w =>
  (appendAndSealHs P cap suite (makeCert 2048 P.chain) w).bind fun w =>
  (sendCertverify P cap suite w).bind fun w =>
  (sendFinished P cap suite w).bind (finishFlight P suite)

def ephemeral (seed : List UInt8) : Option (List UInt8) :=
  match group with
  | .x25519 => some seed
  | g => P.keygen g seed

def deriveEcdhe (clientPub : List UInt8) (w : Work) : Outcome Work :=
  if clientPub.length ≠ group.shareLen then .fail w
  else
    let seed := P.draw w.rng 32
    let w := w.drawn 32
    .given w (ephemeral P group seed) fun priv =>
      let pub := P.mulgen group priv
      let w : Work := { w with sess := { w.sess with srvEphPriv := priv } }
      if group ≠ .x25519 ∧ pub.length ≠ group.shareLen then .fail w
      else
        let w : Work := { w with sess := { w.sess with srvEphPub := pub } }
        .given w (P.mul group clientPub priv) fun shared =>
          if shared.all (· == 0) then .fail w
          else .ok { w with
            sess := { w.sess with ecdheShared := shared, selectedGroup := some group } }

def sendRetry (group : Group)
    (w : Work) : Outcome Work :=
  -- A HelloRetryRequest: the transcript starts over with the hash of the first ClientHello.
  let synth := [0xfe, 0x00, 0x00, UInt8.ofNat suite.hash.size] ++ P.hash suite.hash frag
  (thAppend synth { w with sess := { w.sess with th := [] } }).bind fun w =>
    let w : Work := { w with sess := { w.sess with legacySessionId := ch.sessionId } }
    .given w (makeHrr 128 suite.id group.id w.sess.legacySessionId) fun msg =>
      (thAppend msg w).bind fun w => (emitCleartextHs cap msg w).bind fun w =>
        (emit cap changeCipherSpec w).bind fun w =>
          .ok { w with
            sess := { w.sess with hrrSent := true, hrrGroup := some group }
            log := w.log ++ [.retry] }

def acceptHello (group : Group)
    (share : List UInt8) (w : Work) : Outcome Work :=
  -- A ClientHello with a usable share: the first one, or the one asked for.
  if w.sess.hrrSent ∧ w.sess.hrrGroup ≠ some group then .fail w
  else
    (thAppend frag w).bind fun w =>
      let sid := if w.sess.hrrSent then w.sess.legacySessionId else ch.sessionId
      let w : Work := { w with sess := { w.sess with legacySessionId := sid } }
      (deriveEcdhe P group share w).bind (buildServerFlight P cap suite)

def answerHello (w : Work) :
    Outcome Work :=
  match selectGroup ch with
  | some (group, share) => acceptHello P cap suite ch frag group share w
  | none =>
    if w.sess.hrrSent then .fail w
    else .given w (retryGroup ch) fun group => sendRetry P cap suite ch frag group w

def feedHandshake (w : Work) : Outcome Work :=
  -- A cleartext handshake record, which has to be a ClientHello. After a HelloRetryRequest the
  -- suite may not change.
  if w.sess.st ≠ .start then .fail w
  else
    .given w (parseClienthello rec) fun ch =>
      if ch.ok = false then .fail w
      else
        .given w (selectSuite ch) fun suite =>
          if w.sess.hrrSent then
            if w.sess.suite = some suite then answerHello P cap suite ch frag w else .fail w
          else
            answerHello P cap suite ch frag { w with sess := { w.sess with suite := some suite } }

def Sess.activeSuite (s : Sess) : Suite := s.suite.getD aes128GcmSha256

def finishedBody (hlen : ℕ) (pt : List UInt8) : Option (List UInt8) :=
  match pt with
  | t :: n₂ :: n₁ :: n₀ :: body =>
    if body.length = hlen ∧ t = 0x14 ∧ (rd24 n₂ n₁ n₀).toNat = hlen then some body else none
  | _ => none

def takeFinished (inner : UInt8) (pt : List UInt8) (w : Work) : Outcome Work :=
  if inner ≠ 0x16 then .fail w
  else
    .given w (finishedBody suite.hash.size pt) fun body =>
      transcriptHash P suite w fun thFull w =>
        let expect := P.hmac suite.hash w.sess.cFinishedKey thFull
        if body ≠ expect then .fail w
        else .ok { w with
          sess := { w.sess with rxApp := true, seqRx := 0, st := .app }
          log := w.log ++ [.verified w.sess.cFinishedKey expect] }

def replyMax : ℕ := 4096

def takeData (suite : Suite) (inner : UInt8)
    (pt : List UInt8) (w : Work) : Outcome Work :=
  -- Application data, opened: an alert is passed over, a request is answered.
  if inner = 0x15 then .ok w
  else if inner ≠ 0x17 then .fail w
  else
    match app with
    | none => .ok w
    | some app =>
      let reply := (app pt).take replyMax
      let w : Work := { w with log := w.log ++ [.request pt] }
      if reply = [] then .ok w
      else
        let seqTx := if w.sess.txApp then w.sess.seqTx else 0
        sealUnder P cap suite .application 0x17 reply
          { w with sess := { w.sess with seqTx := seqTx, txApp := true } }

def ptMax : ℕ := 4096

def openRecord (epoch : Epoch) (rec : List UInt8) (w : Work)
    (k : UInt8 → List UInt8 → Work → Outcome Work) : Outcome Work :=
  .given w (recordOpen P suite (w.sess.rxKey epoch) w.sess.seqRx rec ptMax) fun r =>
    k r.1 r.2 { w with
      sess := { w.sess with seqRx := w.sess.seqRx + 1 }
      log := w.log ++ [.opened epoch w.sess.seqRx r.1 r.2] }

def feedEncrypted : Outcome Work :=
  let suite := w.sess.activeSuite
  match w.sess.st with
  | .waitFinished => openRecord P suite .handshake rec w (takeFinished P suite)
  | .app => openRecord P suite .application rec w (takeData P cap app suite)
  | _ => .fail w

def feedRecord (rtype : UInt8)
    (rec frag : List UInt8) (w : Work) : Outcome Work :=
  if rtype = 0x14 then .ok w
  else if rtype = 0x16 then feedHandshake P cap rec frag w
  else if rtype = 0x17 then feedEncrypted P cap app rec w
  else .fail w

def feedRecords (cap : ℕ) (app : Option (List UInt8 → List UInt8)) :
    (fuel : ℕ) → List UInt8 → Work → Outcome Work
  -- A record that is not all there is an error; a rest shorter than a header is passed over.
  | 0, _, w => .ok w
  | fuel + 1, input, w =>
    match input with
    | t :: v₁ :: v₀ :: n₁ :: n₀ :: rest =>
      let rlen := (rd16 n₁ n₀).toNat
      if rest.length < rlen then .fail w
      else
        let frag := rest.take rlen
        (feedRecord P cap app t ([t, v₁, v₀, n₁, n₀] ++ frag) frag w).bind
          (feedRecords cap app fuel (rest.drop rlen))
    | _ => .ok w

structure Conn where
  sess : Sess := {}
  rng : ℕ := 0
  log : List Event := []
  deriving DecidableEq

def Conn.work (c : Conn) : Work := ⟨c.sess, c.rng, [], c.log⟩

def Work.conn : Conn := ⟨w.sess, w.rng, w.log⟩

def Work.failed : Work := { w with sess := { w.sess with st := .err } }

def inboundFeed (input : List UInt8)
    (c : Conn) : Conn × Option (List UInt8) :=
  match feedRecords P cap app input.length input c.work with
  | .ok w => (w.conn, some w.out)
  | .fail w => (w.failed.conn, none)

end

end SotOs.Synth.Tls13
