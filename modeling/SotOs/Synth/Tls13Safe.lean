import SotOs.Lib.History
import SotOs.Lib.Machine
import SotOs.Synth.Tls13

/-! What a TLS 1.3 session does over any sequence of calls. Every event of its log is allowed by the
events before it: records are numbered one after the other under each key, the application is asked
only about application data opened after the client's Finished was verified, and one
HelloRetryRequest is sent at most. -/

namespace SotOs.Synth.Tls13
open Fallible History Machine List Option Outcome

@[simp] def Event.sealNo (e : Epoch) : Event → Option UInt64
  | .sealed e' seq => if e' = e then some seq else none
  | _ => none

@[simp] def Event.openNo (e : Epoch) : Event → Option UInt64
  | .opened e' seq _ _ => if e' = e then some seq else none
  | _ => none

def sealsOf (e : Epoch) (log : List Event) : List UInt64 := log.filterMap (Event.sealNo e)

def opensOf (e : Epoch) (log : List Event) : List UInt64 := log.filterMap (Event.openNo e)

variable {e : Epoch} {log : List Event} {ev : Event} {group : Group}

@[simp] theorem sealsOf_concat :
    sealsOf e (log ++ [ev]) = sealsOf e log ++ (ev.sealNo e).toList := by
  cases h : ev.sealNo e <;>
    simp only [sealsOf, filterMap_append, filterMap_cons, h, filterMap_nil, toList]

@[simp] theorem opensOf_concat :
    opensOf e (log ++ [ev]) = opensOf e log ++ (ev.openNo e).toList := by
  cases h : ev.openNo e <;>
    simp only [opensOf, filterMap_append, filterMap_cons, h, filterMap_nil, toList]

def numbers (n : ℕ) : List UInt64 := (List.range n).map UInt64.ofNat

def Allowed (P : Prims) (past : List Event) : Event → Prop
  | .sealed e seq => seq = UInt64.ofNat (sealsOf e past).length
  | .opened e seq _ _ => seq = UInt64.ofNat (opensOf e past).length
  | .hashed _ => True
  | .verified key expect => ∃ earlier seq hdr th, ∃ suite : Suite,
      past = earlier ++ [.opened .handshake seq 0x16 (hdr ++ expect), .hashed th] ∧
        hdr.length = 4 ∧ hdr.head? = some 0x14 ∧
          expect = P.hmac suite.hash key (P.hash suite.hash th)
  | .request req => (∃ key expect, .verified key expect ∈ past) ∧
      ∃ earlier seq, past = earlier ++ [.opened .application seq 0x17 req]
  | .retry => .retry ∉ past

structure Quiet (w w' : Work) : Prop where
  st : w'.sess.st = w.sess.st
  hrrSent : w'.sess.hrrSent = w.sess.hrrSent
  seqTx : w'.sess.seqTx = w.sess.seqTx
  seqRx : w'.sess.seqRx = w.sess.seqRx
  txApp : w'.sess.txApp = w.sess.txApp
  log : w'.log = w.log

theorem Quiet.refl (w : Work) : Quiet w w := ⟨rfl, rfl, rfl, rfl, rfl, rfl⟩

variable {P : Prims} {cap : ℕ} {suite : Suite} {w : Work}

theorem thAppend_quiet {msg : List UInt8} : (thAppend msg w).Ends (Quiet w) (Quiet w) :=
  ends_ite (fun _ => Quiet.refl w) fun _ => ⟨rfl, rfl, rfl, rfl, rfl, rfl⟩

theorem emit_quiet {bytes : List UInt8} : (emit cap bytes w).Ends (Quiet w) (Quiet w) :=
  ends_ite (fun _ => Quiet.refl w) fun _ => ⟨rfl, rfl, rfl, rfl, rfl, rfl⟩

theorem deriveEcdhe_quiet {clientPub : List UInt8} :
    (deriveEcdhe P group clientPub w).Ends (Quiet w) (Quiet w) := by
  refine ends_ite (fun _ => Quiet.refl w) fun _ => ?_
  refine ends_given ⟨rfl, rfl, rfl, rfl, rfl, rfl⟩ fun priv _ => ?_
  refine ends_ite (fun _ => ⟨rfl, rfl, rfl, rfl, rfl, rfl⟩) fun _ => ?_
  refine ends_given ⟨rfl, rfl, rfl, rfl, rfl, rfl⟩ fun shared _ => ?_
  exact ends_ite (fun _ => ⟨rfl, rfl, rfl, rfl, rfl, rfl⟩)
    fun _ => ⟨rfl, rfl, rfl, rfl, rfl, rfl⟩

def Safe (P : Prims) (w : Work) : Prop := Along (Allowed P) [] w.log

variable {w' : Work} {pt : List UInt8} {seq : UInt64} {earlier : List Event} {c : Conn} {n : ℕ}
  {inner : UInt8} {ch : ClientHello} {frag rec : List UInt8}
  {app : Option (List UInt8 → List UInt8)}

theorem Quiet.safe {w : Work} (h : Quiet w w') (hw : Safe P w) : Safe P w' := by
  rw [Safe, h.log]
  exact hw

theorem safe_concat {w : Work} {ev : Event} (hlog : w'.log = w.log ++ [ev]) (h : Safe P w)
    (hev : Allowed P w.log ev) : Safe P w' := by
  rw [Safe, hlog, along_concat]
  exact ⟨h, hev⟩

theorem ends_of_quiet {I : Work → Prop} {w : Work} {r : Outcome Work}
    (h : r.Ends (Quiet w) (Quiet w)) (hI : ∀ w', Quiet w w' → I w') (hw : Safe P w) :
    r.Ends I (Safe P) :=
  h.imp hI fun _ hq => hq.safe hw

structure AtStart (P : Prims) (w : Work) : Prop where
  safe : Safe P w
  st : w.sess.st = .start
  seals : ∀ e, sealsOf e w.log = []
  opens : ∀ e, opensOf e w.log = []
  retry : .retry ∈ w.log → w.sess.hrrSent = true

structure InFlight (P : Prims) (w : Work) : Prop where
  safe : Safe P w
  seqTx : w.sess.seqTx = UInt64.ofNat (sealsOf .handshake w.log).length
  txApp : w.sess.txApp = false
  seals : sealsOf .application w.log = []
  opens : ∀ e, opensOf e w.log = []

structure AtWait (P : Prims) (w : Work) : Prop where
  safe : Safe P w
  st : w.sess.st = .waitFinished
  seqRx : w.sess.seqRx = 0
  txApp : w.sess.txApp = false
  seals : sealsOf .application w.log = []
  opens : ∀ e, opensOf e w.log = []

structure AtApp (P : Prims) (w : Work) : Prop where
  safe : Safe P w
  st : w.sess.st = .app
  verified : ∃ key expect, .verified key expect ∈ w.log
  seqRx : w.sess.seqRx = UInt64.ofNat (opensOf .application w.log).length
  fresh : w.sess.txApp = false → sealsOf .application w.log = []
  seqTx : w.sess.txApp = true → w.sess.seqTx = UInt64.ofNat (sealsOf .application w.log).length

theorem AtStart.quiet {w : Work} (h : AtStart P w) (hq : Quiet w w') : AtStart P w' := by
  obtain ⟨hst, hhrr, -, -, -, hlog⟩ := hq
  constructor
  · rw [Safe, hlog]
    exact h.safe
  · rw [hst]
    exact h.st
  · rw [hlog]
    exact h.seals
  · rw [hlog]
    exact h.opens
  · rw [hlog, hhrr]
    exact h.retry

theorem InFlight.quiet {w : Work} (h : InFlight P w) (hq : Quiet w w') : InFlight P w' := by
  obtain ⟨-, -, htx, -, happ, hlog⟩ := hq
  constructor
  · rw [Safe, hlog]
    exact h.safe
  · rw [htx, hlog]
    exact h.seqTx
  · rw [happ]
    exact h.txApp
  · rw [hlog]
    exact h.seals
  · rw [hlog]
    exact h.opens

theorem InFlight.hashed (h : InFlight P w) (th : List UInt8) :
    InFlight P { w with log := w.log ++ [.hashed th] } where
  safe := safe_concat rfl h.safe trivial
  seqTx := by simpa using h.seqTx
  txApp := h.txApp
  seals := by simpa using h.seals
  opens := by simpa using h.opens

theorem sealUnder_ends : (sealUnder P cap suite e inner pt w).Ends
      (fun w' => w'.sess = { w.sess with seqTx := w.sess.seqTx + 1 } ∧
        w'.log = w.log ++ [.sealed e w.sess.seqTx])
      (fun w' => w'.log = w.log) := by
  refine ends_ite (fun _ => rfl) fun _ => ?_
  exact ends_given rfl fun rec _ => ⟨rfl, rfl⟩

theorem InFlight.sealed (h : InFlight P w)
    (hsess : w'.sess = { w.sess with seqTx := w.sess.seqTx + 1 })
    (hlog : w'.log = w.log ++ [.sealed .handshake w.sess.seqTx]) : InFlight P w' where
  safe := safe_concat hlog h.safe h.seqTx
  seqTx := by simp [hsess, hlog, h.seqTx]
  txApp := by rw [hsess]; exact h.txApp
  seals := by simp [hlog, h.seals]
  opens := by simp [hlog, h.opens]

theorem appendAndSealHs_ends (h : InFlight P w) {msg : Option (List UInt8)} :
    (appendAndSealHs P cap suite msg w).Ends (InFlight P) (Safe P) := by
  refine ends_given h.safe fun msg _ => ?_
  refine (ends_of_quiet thAppend_quiet (fun _ => h.quiet) h.safe).bind fun w' h' => ?_
  refine sealUnder_ends.imp (fun _ hs => h'.sealed hs.1 hs.2) fun _ hs => ?_
  rw [Safe, hs]
  exact h'.safe

theorem AtStart.inFlight {th : List UInt8} (h : AtStart P w)
    (hlog : w'.log = w.log ++ [.hashed th]) (hseq : w'.sess.seqTx = 0)
    (happ : w'.sess.txApp = false) : InFlight P w' where
  safe := safe_concat hlog h.safe trivial
  seqTx := by simp [hseq, hlog, h.seals]
  txApp := happ
  seals := by simp [hlog, h.seals]
  opens := by simp [hlog, h.opens]

theorem sendServerhello_ends (h : AtStart P w) :
    (sendServerhello P cap suite w).Ends (InFlight P) (Safe P) := by
  refine ends_given h.safe fun msg _ => ?_
  have h₁ : AtStart P (w.drawn 32) := h.quiet ⟨rfl, rfl, rfl, rfl, rfl, rfl⟩
  refine (ends_of_quiet thAppend_quiet (fun _ => h₁.quiet) h₁.safe).bind fun w₂ h₂ => ?_
  refine (ends_of_quiet emit_quiet (fun _ => h₂.quiet) h₂.safe).bind fun w₃ h₃ => ?_
  exact h₃.inFlight rfl rfl rfl

theorem sendCertverify_ends (h : InFlight P w) :
    (sendCertverify P cap suite w).Ends (InFlight P) (Safe P) := by
  have h₁ := h.hashed w.sess.th
  have h₂ : InFlight P
      (Work.drawn { w with log := w.log ++ [.hashed w.sess.th] } suite.hash.size) :=
    h₁.quiet ⟨rfl, rfl, rfl, rfl, rfl, rfl⟩
  exact appendAndSealHs_ends h₂

theorem sendFinished_ends (h : InFlight P w) :
    (sendFinished P cap suite w).Ends (InFlight P) (Safe P) :=
  appendAndSealHs_ends (h.hashed _)

theorem finishFlight_ends (h : InFlight P w) :
    (finishFlight P suite w).Ends (AtWait P) (Safe P) where
  safe := (h.hashed w.sess.th).safe
  st := rfl
  seqRx := rfl
  txApp := h.txApp
  seals := (h.hashed w.sess.th).seals
  opens := (h.hashed w.sess.th).opens

theorem buildServerFlight_ends (h : AtStart P w) :
    (buildServerFlight P cap suite w).Ends (AtWait P) (Safe P) := by
  refine (sendServerhello_ends h).bind fun w₁ h₁ => ?_
  refine (ends_of_quiet emit_quiet (fun _ => h₁.quiet) h₁.safe).bind fun w₂ h₂ => ?_
  refine (appendAndSealHs_ends h₂).bind fun w₃ h₃ => ?_
  refine (appendAndSealHs_ends h₃).bind fun w₄ h₄ => ?_
  refine (sendCertverify_ends h₄).bind fun w₅ h₅ => ?_
  exact (sendFinished_ends h₅).bind fun w₆ h₆ => finishFlight_ends h₆

inductive Standing (P : Prims) (w : Work) : Prop
  | start (h : AtStart P w)
  | wait (h : AtWait P w)
  | app (h : AtApp P w)
  | err (hst : w.sess.st = .err) (h : Safe P w)

theorem Standing.safe (h : Standing P w) : Safe P w := by
  cases h with
  | start h => exact h.safe
  | wait h => exact h.safe
  | app h => exact h.safe
  | err _ h => exact h

theorem AtStart.setSess (h : AtStart P w) {s : Sess} (hst : s.st = w.sess.st)
    (hhrr : s.hrrSent = w.sess.hrrSent) : AtStart P { w with sess := s } where
  safe := h.safe
  st := hst.trans h.st
  seals := h.seals
  opens := h.opens
  retry := fun hmem => hhrr.trans (h.retry hmem)

theorem AtStart.retried (h : AtStart P w) (hnone : .retry ∉ w.log) (hst : w'.sess.st = .start)
    (hsent : w'.sess.hrrSent = true) (hlog : w'.log = w.log ++ [.retry]) : AtStart P w' where
  safe := safe_concat hlog h.safe hnone
  st := hst
  seals := by simp [hlog, h.seals]
  opens := by simp [hlog, h.opens]
  retry := fun _ => hsent

structure First (P : Prims) (w : Work) : Prop extends AtStart P w where
  none : .retry ∉ w.log

theorem First.quiet (h : First P w) (hq : Quiet w w') : First P w' where
  toAtStart := h.toAtStart.quiet hq
  none := by rw [hq.log]; exact h.none

theorem sendRetry_ends (h : First P w) :
    (sendRetry P cap suite ch frag group w).Ends (AtStart P) (Safe P) := by
  have h₀ : First P { w with sess := { w.sess with th := [] } } :=
    h.quiet ⟨rfl, rfl, rfl, rfl, rfl, rfl⟩
  refine (ends_of_quiet thAppend_quiet (fun _ => h₀.quiet) h₀.safe).bind fun w₁ h₁ => ?_
  have h₂ : First P { w₁ with sess := { w₁.sess with legacySessionId := ch.sessionId } } :=
    h₁.quiet ⟨rfl, rfl, rfl, rfl, rfl, rfl⟩
  refine ends_given h₂.safe fun msg _ => ?_
  refine (ends_of_quiet thAppend_quiet (fun _ => h₂.quiet) h₂.safe).bind fun w₃ h₃ => ?_
  refine (ends_of_quiet emit_quiet (fun _ => h₃.quiet) h₃.safe).bind fun w₄ h₄ => ?_
  refine (ends_of_quiet emit_quiet (fun _ => h₄.quiet) h₄.safe).bind fun w₅ h₅ => ?_
  exact h₅.retried h₅.none h₅.st rfl rfl

theorem acceptHello_ends (h : AtStart P w) {share : List UInt8} :
    (acceptHello P cap suite ch frag group share w).Ends (AtWait P) (Safe P) := by
  refine ends_ite (fun _ => h.safe) fun _ => ?_
  refine (ends_of_quiet thAppend_quiet (fun _ => h.quiet) h.safe).bind fun w₁ h₁ => ?_
  have h₂ := h₁.setSess
    (s := { w₁.sess with
      legacySessionId := if w₁.sess.hrrSent then w₁.sess.legacySessionId else ch.sessionId }) rfl rfl
  refine (ends_of_quiet deriveEcdhe_quiet (fun _ => h₂.quiet) h₂.safe).bind ?_
  exact fun w₃ h₃ => buildServerFlight_ends h₃

theorem answerHello_ends (h : AtStart P w) :
    (answerHello P cap suite ch frag w).Ends (Standing P) (Safe P) := by
  unfold answerHello
  cases selectGroup ch with
  | some pick =>
    exact (acceptHello_ends h).imp (fun _ => Standing.wait) fun _ => id
  | none =>
    refine ends_ite (fun _ => h.safe) fun hsent => ?_
    refine ends_given h.safe fun group _ => ?_
    have hfirst : First P w := ⟨h, fun hmem => hsent (h.retry hmem)⟩
    exact (sendRetry_ends hfirst).imp (fun _ => Standing.start) fun _ => id

theorem feedHandshake_ends (h : Standing P w) :
    (feedHandshake P cap rec frag w).Ends (Standing P) (Safe P) := by
  refine ends_ite (fun _ => h.safe) fun hst => ?_
  have hstart : AtStart P w := by
    cases h with
    | start h => exact h
    | wait h => simp [h.st] at hst
    | app h => simp [h.st] at hst
    | err hst' _ => simp [hst'] at hst
  refine ends_given h.safe fun ch _ => ?_
  refine ends_ite (fun _ => h.safe) fun _ => ?_
  refine ends_given h.safe fun suite _ => ?_
  refine ends_ite (fun _ => ?_) fun _ => ?_
  · exact ends_ite (fun _ => answerHello_ends hstart) fun _ => h.safe
  · have hset := hstart.setSess (s := { w.sess with suite := some suite }) rfl rfl
    exact answerHello_ends hset

theorem finishedBody_some {hlen : ℕ} {body : List UInt8} (h : finishedBody hlen pt = some body) :
    ∃ hdr, pt = hdr ++ body ∧ hdr.length = 4 ∧ hdr.head? = some 0x14 := by
  unfold finishedBody at h
  split at h
  · next t n₂ n₁ n₀ rest =>
    split_ifs at h with hok
    obtain ⟨⟩ := h
    exact ⟨[t, n₂, n₁, n₀], rfl, rfl, congrArg some hok.2.1⟩
  · cases h

theorem openRecord_ends {Q : Work → Prop} {e : Epoch} {k : UInt8 → List UInt8 → Work → Outcome Work}
    (hsafe : Safe P w) (hk : ∀ inner pt, (k inner pt { w with
      sess := { w.sess with seqRx := w.sess.seqRx + 1 }
      log := w.log ++ [.opened e w.sess.seqRx inner pt] }).Ends Q (Safe P)) :
    (openRecord P suite e rec w k).Ends Q (Safe P) :=
  ends_given hsafe fun r _ => hk r.1 r.2

theorem takeFinished_ends (h : AtWait P w) : (takeFinished P suite inner pt { w with
      sess := { w.sess with seqRx := w.sess.seqRx + 1 }
      log := w.log ++ [.opened .handshake w.sess.seqRx inner pt] }).Ends (AtApp P) (Safe P) := by
  have hopened : Along (Allowed P) [] (w.log ++ [.opened .handshake w.sess.seqRx inner pt]) :=
    along_concat.mpr ⟨h.safe, by simp [Allowed, h.seqRx, h.opens]⟩
  refine ends_ite (fun _ => hopened) fun hinner => ?_
  refine ends_given hopened fun body hbody => ?_
  have hhashed : Along (Allowed P) []
      (w.log ++ [.opened .handshake w.sess.seqRx inner pt] ++ [.hashed w.sess.th]) :=
    along_concat.mpr ⟨hopened, trivial⟩
  refine ends_ite (fun _ => hhashed) fun hmatch => ?_
  obtain ⟨hdr, rfl, hlen, hhead⟩ := finishedBody_some hbody
  obtain rfl := not_not.mp hinner
  rw [not_not] at hmatch
  constructor
  · refine along_concat.mpr ⟨hhashed, w.log, w.sess.seqRx, hdr, w.sess.th, suite,
      ?_, hlen, hhead, rfl⟩
    rw [hmatch]
    simp
  · rfl
  · exact ⟨_, _, mem_append_right _ mem_cons_self⟩
  · simp only [opensOf_concat, h.opens]
    rfl
  · simp only [sealsOf_concat, h.seals]
    exact fun _ => rfl
  · intro htx
    exact absurd htx (by simp [h.txApp])

theorem AtApp.opened (h : AtApp P w) (inner : UInt8) (pt : List UInt8) :
    AtApp P { w with
      sess := { w.sess with seqRx := w.sess.seqRx + 1 }
      log := w.log ++ [.opened .application w.sess.seqRx inner pt] } where
  safe := safe_concat rfl h.safe h.seqRx
  st := h.st
  verified := h.verified.imp fun _ => Exists.imp fun _ hmem => mem_append_left _ hmem
  seqRx := by simp [h.seqRx]
  fresh := by simpa using h.fresh
  seqTx := by simpa using h.seqTx

theorem AtApp.asked {req : List UInt8} (h : AtApp P w)
    (hlast : w.log = earlier ++ [.opened .application seq 0x17 req]) :
    AtApp P { w with log := w.log ++ [.request req] } where
  safe := safe_concat rfl h.safe ⟨h.verified, earlier, seq, hlast⟩
  st := h.st
  verified := h.verified.imp fun _ => Exists.imp fun _ hmem => mem_append_left _ hmem
  seqRx := by simpa using h.seqRx
  fresh := by simpa using h.fresh
  seqTx := by simpa using h.seqTx

theorem AtApp.nextSeq (h : AtApp P w) : (if w.sess.txApp then w.sess.seqTx else 0) =
      UInt64.ofNat (sealsOf .application w.log).length := by
  cases htx : w.sess.txApp with
  | true => simpa using h.seqTx htx
  | false => simp [h.fresh htx]

theorem AtApp.replied (h : AtApp P w) (hsess : w'.sess = { w.sess with
      seqTx := (if w.sess.txApp then w.sess.seqTx else 0) + 1, txApp := true })
    (hlog : w'.log = w.log ++ [.sealed .application (if w.sess.txApp then w.sess.seqTx else 0)]) :
    AtApp P w' where
  safe := safe_concat hlog h.safe h.nextSeq
  st := by rw [hsess]; exact h.st
  verified := by
    rw [hlog]
    exact h.verified.imp fun _ => Exists.imp fun _ hmem => mem_append_left _ hmem
  seqRx := by simpa [hsess, hlog] using h.seqRx
  fresh := by simp [hsess]
  seqTx := by
    intro _
    rw [hsess, hlog]
    simp [h.nextSeq]

theorem takeData_ends (h : AtApp P w)
    (hlast : w.log = earlier ++ [.opened .application seq inner pt]) :
    (takeData P cap app suite inner pt w).Ends (AtApp P) (Safe P) := by
  refine ends_ite (fun _ => h) fun _ => ?_
  refine ends_ite (fun _ => h.safe) fun hinner => ?_
  obtain rfl := not_not.mp hinner
  rcases app with _ | app
  · exact h
  have hasked := h.asked hlast
  refine ends_ite (fun _ => hasked) fun _ => ?_
  refine sealUnder_ends.imp (fun w' hs => hasked.replied hs.1 hs.2) ?_
  intro w' hlog
  rw [Safe, hlog]
  exact hasked.safe

theorem feedEncrypted_ends (h : Standing P w) :
    (feedEncrypted P cap app rec w).Ends (Standing P) (Safe P) := by
  unfold feedEncrypted
  cases h with
  | start h =>
    rw [h.st]
    exact h.safe
  | err hst h =>
    rw [hst]
    exact h
  | wait h =>
    rw [h.st]
    refine openRecord_ends h.safe fun inner pt => ?_
    exact (takeFinished_ends h).imp (fun _ => Standing.app) fun _ => id
  | app h =>
    rw [h.st]
    refine openRecord_ends h.safe fun inner pt => ?_
    exact (takeData_ends (h.opened inner pt) rfl).imp (fun _ => Standing.app) fun _ => id

theorem feedRecord_ends (h : Standing P w) (app : Option (List UInt8 → List UInt8)) (rtype : UInt8)
    (rec frag : List UInt8) :
    (feedRecord P cap app rtype rec frag w).Ends (Standing P) (Safe P) := by
  refine ends_ite (fun _ => h) fun _ => ?_
  refine ends_ite (fun _ => feedHandshake_ends h) fun _ => ?_
  exact ends_ite (fun _ => feedEncrypted_ends h) fun _ => h.safe

theorem feedRecords_ends (h : Standing P w) (app : Option (List UInt8 → List UInt8)) (fuel : ℕ)
    (input : List UInt8) : (feedRecords P cap app fuel input w).Ends (Standing P) (Safe P) := by
  induction fuel generalizing w input with
  | zero => exact h
  | succ fuel ih =>
    unfold feedRecords
    split
    · refine ends_ite (fun _ => h.safe) fun _ => ?_
      exact (feedRecord_ends h app _ _ _).bind fun w' h' => ih h' _
    · exact h

theorem feedRecords_err (herr : w.sess.st = .err) (app : Option (List UInt8 → List UInt8))
    (fuel : ℕ) (input : List UInt8) :
    (feedRecords P cap app fuel input w).Ends (· = w) (· = w) := by
  induction fuel generalizing input with
  | zero => rfl
  | succ fuel ih =>
    unfold feedRecords
    split
    · refine ends_ite (fun _ => rfl) fun _ => ?_
      have hrec (t : UInt8) (rec frag : List UInt8) :
          (feedRecord P cap app t rec frag w).Ends (· = w) (· = w) := by
        refine ends_ite (fun _ => rfl) fun _ => ?_
        refine ends_ite (fun _ => ?_) fun _ => ?_
        · refine ends_ite (fun _ => rfl) fun hst => ?_
          simp [herr] at hst
        · refine ends_ite (fun _ => ?_) fun _ => rfl
          unfold feedEncrypted
          rw [herr]
          rfl
      refine (hrec _ _ _).bind fun w' hw' => ?_
      rw [hw']
      exact ih _
    · rfl

structure Call where
  input : List UInt8
  cap : ℕ
  app : Option (List UInt8 → List UInt8)

def feedStep (P : Prims) (c : Conn) (call : Call) : Conn × Option (List UInt8) :=
  inboundFeed P call.cap call.app call.input c

def session (P : Prims) (calls : List Call) : Conn := exec (feedStep P) {} calls

theorem Standing.conn {w : Work} (h : Standing P w) : Standing P w.conn.work := by
  cases h with
  | start h => exact .start { h with }
  | wait h => exact .wait { h with }
  | app h => exact .app { h with }
  | err hst h => exact .err hst h

variable {call : Call}

theorem feedStep_standing {P : Prims} (h : Standing P c.work) :
    Standing P (feedStep P c call).1.work := by
  have hends : (feedRecords P call.cap call.app call.input.length call.input c.work).Ends
    (Standing P) (Safe P) := feedRecords_ends h call.app _ _
  unfold feedStep inboundFeed
  cases hr : feedRecords P call.cap call.app call.input.length call.input c.work with
  | ok w =>
    rw [hr] at hends
    exact hends.conn
  | fail w =>
    rw [hr] at hends
    exact Standing.err rfl hends

variable {calls : List Call}

theorem session_standing : Standing P (session P calls).work := by
  refine exec_invariant (feedStep P) (P := fun c => Standing P c.work)
    (fun c call h => feedStep_standing h) ?_ calls
  exact .start ⟨trivial, rfl, fun _ => rfl, fun _ => rfl, nofun⟩

theorem session_allowed (P : Prims) (calls : List Call) :
    Along (Allowed P) [] (session P calls).log := session_standing.safe

theorem feedStep_err {P : Prims} (herr : c.sess.st = .err) :
    (feedStep P c call).1.sess.st = .err ∧ ∀ out ∈ (feedStep P c call).2, out = [] := by
  have hends : (feedRecords P call.cap call.app call.input.length call.input c.work).Ends
    (· = c.work) (· = c.work) := feedRecords_err herr call.app _ _
  unfold feedStep inboundFeed
  cases hr : feedRecords P call.cap call.app call.input.length call.input c.work with
  | ok w =>
    rw [hr] at hends
    obtain rfl : w = c.work := hends
    refine ⟨herr, fun out hout => ?_⟩
    exact (some.inj hout).symm
  | fail w => exact ⟨rfl, nofun⟩

theorem numbers_succ : numbers (n + 1) = numbers n ++ [UInt64.ofNat n] := by
  simp [numbers, range_succ]

theorem numbers_nodup (h : n ≤ 2 ^ 64) : (numbers n).Nodup := by
  refine (nodup_map_iff_inj_on nodup_range).mpr fun a ha b hb hab => ?_
  have ha' : a < 2 ^ 64 := (mem_range.mp ha).trans_le h
  have hb' : b < 2 ^ 64 := (mem_range.mp hb).trans_le h
  have := congrArg UInt64.toNat hab
  rwa [UInt64.toNat_ofNat_of_lt' ha', UInt64.toNat_ofNat_of_lt' hb'] at this

theorem counted {f : Event → Option UInt64} {log : List Event}
    (h : Along (fun past ev => ∀ seq ∈ f ev, seq = UInt64.ofNat (past.filterMap f).length) [] log) :
    log.filterMap f = numbers (log.filterMap f).length := by
  induction log using reverseRecOn with
  | nil => rfl
  | append_singleton log ev ih =>
    obtain ⟨hlog, hev⟩ := along_concat.mp h
    rcases hf : f ev with _ | seq
    · simpa [filterMap_append, hf] using ih hlog
    have hseq : seq = UInt64.ofNat (log.filterMap f).length := hev seq hf
    have hmap : (log ++ [ev]).filterMap f = log.filterMap f ++ [seq] := by
      simp [filterMap_append, hf]
    rw [hmap, length_append, length_singleton, numbers_succ, ← ih hlog, hseq]

theorem allowed_sealNo (e : Epoch) (past : List Event) (ev : Event) (h : Allowed P past ev) :
    ∀ seq ∈ ev.sealNo e, seq = UInt64.ofNat (past.filterMap (Event.sealNo e)).length := by
  intro seq hseq
  cases ev with
  | sealed e' seq' =>
    obtain ⟨rfl, rfl⟩ : e' = e ∧ seq' = seq := by simpa using hseq
    exact h
  | _ => cases hseq

theorem allowed_openNo (e : Epoch) (past : List Event) (ev : Event) (h : Allowed P past ev) :
    ∀ seq ∈ ev.openNo e, seq = UInt64.ofNat (past.filterMap (Event.openNo e)).length := by
  intro seq hseq
  cases ev with
  | opened e' seq' inner pt =>
    obtain ⟨rfl, rfl⟩ : e' = e ∧ seq' = seq := by simpa using hseq
    exact h
  | _ => cases hseq

theorem sealsOf_numbers {log : List Event} (h : Along (Allowed P) [] log) (e : Epoch) :
    sealsOf e log = numbers (sealsOf e log).length :=
  counted (h.imp (allowed_sealNo e))

theorem opensOf_numbers {log : List Event} (h : Along (Allowed P) [] log) (e : Epoch) :
    opensOf e log = numbers (opensOf e log).length :=
  counted (h.imp (allowed_openNo e))

theorem count_retry_le {log : List Event} (h : Along (Allowed P) [] log) :
    log.count .retry ≤ 1 := by
  induction log using reverseRecOn with
  | nil => exact Nat.zero_le 1
  | append_singleton log ev ih =>
    obtain ⟨hlog, hev⟩ := along_concat.mp h
    rw [count_append, count_singleton]
    by_cases hretry : ev = .retry
    · subst hretry
      have hnone : log.count .retry = 0 := count_eq_zero.mpr hev
      simp [hnone]
    · simpa [hretry] using ih hlog

structure SafeLog (P : Prims) (log : List Event) : Prop where
  seals : ∀ e, sealsOf e log = numbers (sealsOf e log).length
  unique : ∀ e, (sealsOf e log).length ≤ 2 ^ 64 → (sealsOf e log).Nodup
  opens : ∀ e, opensOf e log = numbers (opensOf e log).length
  request : ∀ past req rest, log = past ++ .request req :: rest →
    (∃ key expect, .verified key expect ∈ past) ∧
      ∃ earlier seq, past = earlier ++ [.opened .application seq 0x17 req]
  verified : ∀ past key expect rest, log = past ++ .verified key expect :: rest →
    ∃ earlier seq hdr th, ∃ suite : Suite,
      past = earlier ++ [.opened .handshake seq 0x16 (hdr ++ expect), .hashed th] ∧
        hdr.length = 4 ∧ hdr.head? = some 0x14 ∧
          expect = P.hmac suite.hash key (P.hash suite.hash th)
  retry : log.count .retry ≤ 1

theorem SafeLog.of_along {log : List Event} (h : Along (Allowed P) [] log) : SafeLog P log where
  seals := sealsOf_numbers h
  unique e hle := by
    rw [sealsOf_numbers h e]
    exact numbers_nodup hle
  opens := opensOf_numbers h
  request past req rest hlog := by
    subst hlog
    exact h.split
  verified past key expect rest hlog := by
    subst hlog
    exact h.split
  retry := count_retry_le h

/-- Over any calls: the log is safe, and a session in the error state emits nothing and stays in
it. -/
theorem session_safe (P : Prims) (calls : List Call) : SafeLog P (session P calls).log ∧
      ∀ e ∈ trace (feedStep P) {} calls, e.pre.sess.st = .err →
        (feedStep P e.pre e.input).1.sess.st = .err ∧ ∀ out ∈ e.reply, out = [] := by
  refine ⟨SafeLog.of_along (session_allowed P calls), fun e he herr => ?_⟩
  rw [mem_trace_reply (feedStep P) he]
  exact feedStep_err herr

def plainPrims : Prims where
  hash h _ := List.replicate h.size 0
  hmac h _ _ := List.replicate h.size 0
  aeadSeal _ _ _ _ m := m ++ List.replicate 16 0
  aeadOpen _ _ _ _ c := if 16 ≤ c.length then some (c.take (c.length - 16)) else none
  keygen _ seed := some seed
  mulgen g _ := List.replicate g.shareLen 1
  mul _ _ _ := some [1]
  sign _ _ _ := some (List.replicate 256 0)
  chain := []
  random _ := 0
  hash_length _ _ := List.length_replicate
  hmac_length _ _ _ := List.length_replicate
  seal_length _ _ _ _ _ := by simp
  open_length _ _ _ _ c m h := by
    split_ifs at h with hc
    obtain ⟨⟩ := h
    rw [List.length_take]
    omega

def sampleHello : List UInt8 :=
  [0x16, 0x03, 0x01, 0x00, 0x68, 0x01, 0x00, 0x00, 0x64, 0x03, 0x03] ++ List.replicate 32 0 ++
    [0x00, 0x00, 0x02, 0x13, 0x01, 0x01, 0x00, 0x00, 0x39] ++
    [0x00, 0x2b, 0x00, 0x03, 0x02, 0x03, 0x04, 0x00, 0x0a, 0x00, 0x04, 0x00, 0x02, 0x00, 0x1d] ++
    [0x00, 0x33, 0x00, 0x26, 0x00, 0x24, 0x00, 0x1d, 0x00, 0x20] ++ List.replicate 32 1

def sampleFinished : List UInt8 :=
  [0x17, 0x03, 0x03, 0x00, 0x35, 0x14, 0x00, 0x00, 0x20] ++ List.replicate 32 0 ++ [0x16] ++
    List.replicate 16 0

def sampleData : List UInt8 := [0x17, 0x03, 0x03, 0x00, 0x12, 0x41, 0x17] ++ List.replicate 16 0

def sampleCall (input : List UInt8) : Call := ⟨input, 8192, some fun _ => [0x42]⟩

theorem feedStep_data (h : c.sess.st = .app) :
    (feedStep plainPrims c (sampleCall sampleData)).1.sess.st = .app ∧
      (sealsOf .application (feedStep plainPrims c (sampleCall sampleData)).1.log).length =
        (sealsOf .application c.log).length + 1 := by
  have hfeed : ∃ w, feedRecords plainPrims 8192 (some fun _ => [0x42]) sampleData.length sampleData
      c.work = .ok w ∧ w.sess.st = .app ∧
        w.log = c.log ++ [.opened .application c.sess.seqRx 0x17 [0x41]] ++ [.request [0x41]] ++
          [.sealed .application (if c.sess.txApp then c.sess.seqTx else 0)] := by
    have hone : feedRecords plainPrims 8192 (some fun _ => [0x42]) sampleData.length sampleData
        c.work =
      (feedEncrypted plainPrims 8192 (some fun _ => [0x42]) sampleData c.work).bind .ok := rfl
    rw [hone, feedEncrypted, show c.work.sess.st = .app from h]
    exact ⟨_, rfl, h, rfl⟩
  obtain ⟨w, hw, hst, hlog⟩ := hfeed
  unfold feedStep inboundFeed sampleCall
  rw [hw]
  refine ⟨hst, ?_⟩
  simp only [Work.conn, hlog, sealsOf_concat, length_append]
  rfl

theorem requests_seals (h : c.sess.st = .app) (n : ℕ) :
    (sealsOf .application (exec (feedStep plainPrims) c
      (replicate n (sampleCall sampleData))).log).length =
        (sealsOf .application c.log).length + n := by
  induction n generalizing c with
  | zero => rfl
  | succ n ih =>
    obtain ⟨hst, hlen⟩ := feedStep_data h
    rw [replicate_succ, exec, ih hst, hlen]
    omega

theorem not_nodup_numbers (h : 2 ^ 64 < n) : ¬ (numbers n).Nodup := by
  intro hnodup
  have hzero : 0 = 2 ^ 64 := inj_on_of_nodup_map hnodup (mem_range.mpr (by omega))
    (mem_range.mpr h) (by rfl)
  omega

theorem sequence_number_reused : ¬ ∀ (P : Prims) (calls : List Call) (e : Epoch),
    (sealsOf e (session P calls).log).Nodup := by
  intro hall
  let opening := [sampleCall sampleHello, sampleCall sampleFinished]
  have hst : (session plainPrims opening).sess.st = .app := by decide +kernel
  have hlen := requests_seals hst (2 ^ 64 + 1)
  rw [session, ← exec_append] at hlen
  have hnodup := hall plainPrims
    (opening ++ replicate (2 ^ 64 + 1) (sampleCall sampleData)) .application
  rw [sealsOf_numbers (session_allowed _ _)] at hnodup
  refine not_nodup_numbers ?_ hnodup
  rw [session, hlen]
  omega

end SotOs.Synth.Tls13
