import SotOs.Synth.Tls13Safe

/-! The path of port 443 for one connection: the leading record is put together from the inbound
frames, its ClientHello decides between the versions, and from then on every frame goes to the feed
as it is. -/

namespace SotOs.Synth.Tls13
open Fallible Machine List
open Outcome (leads_given leads_guard leads_ok leads_fail)

def complete : List UInt8 → Bool
  | _ :: _ :: _ :: n₁ :: n₀ :: rest => decide ((rd16 n₁ n₀).toNat ≤ rest.length)
  | _ => false

def reasmMax : ℕ := 18432

inductive Reassembled
  | ready (bytes : List UInt8)
  | wait
  | overflow
  deriving DecidableEq

def reassembleLeadingRecord (slot : Option (List UInt8)) (frame : List UInt8) :
    Option (List UInt8) × Reassembled :=
  if slot = none ∧ complete frame then (none, .ready frame)
  else
    let buf := slot.getD []
    if reasmMax < buf.length + frame.length then (none, .overflow)
    else if complete (buf ++ frame) then (none, .ready (buf ++ frame))
    else (some (buf ++ frame), .wait)

/-- The reassembly buffer, the version once decided (`true` for 1.3), and the session if used. -/
structure Port where
  slot : Option (List UInt8) := none
  decided : Option Bool := none
  used : Bool := false
  conn : Conn := {}
  deriving DecidableEq

def outMax : ℕ := 8192

def inGet (p : Port) : Conn := if p.used then p.conn else { rng := p.conn.rng }

section
variable (P : Prims) (app : Option (List UInt8 → List UInt8))

def feedSession (p : Port) (bytes : List UInt8) : Port × List UInt8 :=
  let r := inboundFeed P outMax app bytes (inGet p)
  ({ p with conn := r.1, used := r.2.isSome }, r.2.getD [])

def dispatch (is13 : Bool) (p : Port) (bytes : List UInt8) : Port × List UInt8 :=
  -- The bytes go to the session of the version; the TLS 1.2 engine is another program.
  if is13 then feedSession P app p bytes else (p, [])

def frameStep (p : Port) (frame : List UInt8) : Port × List UInt8 :=
  match p.decided with
  | some is13 => dispatch P app is13 p frame
  | none =>
    match reassembleLeadingRecord p.slot frame with
    | (slot, .ready bytes) =>
      let is13 := clienthelloOffers13 bytes == some true
      dispatch P app is13 { p with slot := slot, decided := some is13 } bytes
    | (slot, _) => ({ p with slot := slot }, [])

def served (p : Port) (frames : List (List UInt8)) : Sess × List UInt8 :=
  ((exec (frameStep P app) p frames).conn.sess,
    (trace (frameStep P app) p frames).flatMap fun e => e.reply)

variable (bytes : List UInt8)

def oneCall : Sess × List UInt8 :=
  ((inboundFeed P outMax app bytes {}).1.sess, (inboundFeed P outMax app bytes {}).2.getD [])

end

def wholeRecord : List UInt8 → Bool
  | _ :: _ :: _ :: n₁ :: n₀ :: frag => frag.length == (rd16 n₁ n₀).toNat
  | _ => false

section
variable (P : Prims) (cap : ℕ) (app : Option (List UInt8 → List UInt8))

def takeRecord (rec : List UInt8) (w : Work) : Outcome Work :=
  match rec with
  | t :: _ :: _ :: _ :: _ :: frag => feedRecord P cap app t rec frag w
  | _ => .fail w

def takeRecords : List (List UInt8) → Work → Outcome Work
  | [], w => .ok w
  | rec :: recs, w => (takeRecord P cap app rec w).bind (takeRecords recs)

end

variable {fuel : ℕ} {w : Work} {rec buf c : List UInt8} {recs frames cs : List (List UInt8)}
  {p : Port} {slot : Option (List UInt8)} {inner : UInt8} {pt frag : List UInt8} {group : Group}
  {ch : ClientHello}

section
variable {P : Prims} {cap : ℕ} {app : Option (List UInt8 → List UInt8)}

theorem feedRecords_fuel {fuel' : ℕ} {input : List UInt8} (h : input.length ≤ fuel)
    (h' : input.length ≤ fuel') :
    feedRecords P cap app fuel input w = feedRecords P cap app fuel' input w := by
  induction fuel generalizing fuel' input w with
  | zero =>
    obtain rfl : input = [] := eq_nil_of_length_eq_zero (by omega)
    cases fuel' <;> rfl
  | succ fuel ih =>
    cases fuel' with
    | zero =>
      obtain rfl : input = [] := eq_nil_of_length_eq_zero (by omega)
      rfl
    | succ fuel' =>
      unfold feedRecords
      split
      · next t v₁ v₀ n₁ n₀ rest =>
        have hlen : (rest.drop (rd16 n₁ n₀).toNat).length ≤ rest.length := by simp
        simp only [length_cons] at h h'
        have hrest : feedRecords P cap app fuel (rest.drop (rd16 n₁ n₀).toNat) =
            feedRecords P cap app fuel' (rest.drop (rd16 n₁ n₀).toNat) :=
          funext fun w => ih (by omega) (by omega)
        simp only [hrest]
      · rfl

theorem feedRecords_record (h : wholeRecord rec = true) (fuel : ℕ) (more : List UInt8) (w : Work) :
    feedRecords P cap app (fuel + 1) (rec ++ more) w =
      (takeRecord P cap app rec w).bind (feedRecords P cap app fuel more) := by
  match rec, h with
  | t :: v₁ :: v₀ :: n₁ :: n₀ :: frag, h =>
    have hlen : (rd16 n₁ n₀).toNat = frag.length := (beq_iff_eq.mp h).symm
    simp only [cons_append, feedRecords, takeRecord, hlen, take_left, drop_left,
      length_append, nil_append]
    rw [if_neg (by omega)]

theorem feedRecords_flatten (h : ∀ r ∈ recs, wholeRecord r = true) {more : List UInt8}
    (hfuel : (recs.flatten ++ more).length ≤ fuel) (w : Work) :
    feedRecords P cap app fuel (recs.flatten ++ more) w =
      (takeRecords P cap app recs w).bind (feedRecords P cap app more.length more) := by
  induction recs generalizing fuel w with
  | nil => exact feedRecords_fuel hfuel (Nat.le_refl _)
  | cons rec recs ih =>
    obtain ⟨hrec, hrecs⟩ := forall_mem_cons.mp h
    have hpos : 0 < rec.length := by
      cases rec with
      | nil => cases hrec
      | cons => exact Nat.succ_pos _
    rw [flatten_cons, append_assoc] at hfuel ⊢
    rw [length_append] at hfuel
    obtain ⟨fuel, rfl⟩ : ∃ n, fuel = n + 1 := ⟨fuel - 1, by omega⟩
    rw [feedRecords_record hrec, takeRecords, Outcome.bind_assoc]
    congr 1
    funext w'
    exact ih hrecs (by omega) w'

theorem feedRecords_whole (h : ∀ r ∈ recs, wholeRecord r = true) (w : Work) :
    feedRecords P cap app recs.flatten.length recs.flatten w = takeRecords P cap app recs w := by
  have hall : feedRecords P cap app (recs.flatten ++ []).length (recs.flatten ++ []) w =
      (takeRecords P cap app recs w).bind (feedRecords P cap app 0 []) :=
    feedRecords_flatten h (Nat.le_refl _) w
  rw [append_nil] at hall
  rw [hall]
  exact Outcome.bind_ok

end

def Work.behind (pre : List UInt8) (w : Work) : Work := { w with out := pre ++ w.out }

def Slack (f : Work → Outcome Work) : Prop :=
  ∀ pre w, Outcome.Leads (fun s t => s = t.behind pre) (f (w.behind pre)) (f w)

section
variable {P : Prims} {cap : ℕ} {suite : Suite} {f g : Work → Outcome Work}

theorem Slack.bind (hf : Slack f) (hg : Slack g) : Slack fun w => (f w).bind g := by
  intro pre w
  refine (hf pre w).bind ?_
  rintro _ t rfl
  exact hg pre t

theorem thAppend_slack (msg : List UInt8) : Slack (thAppend msg) := fun _ _ =>
  leads_guard id fun _ => leads_ok rfl

theorem emit_slack {bytes : List UInt8} : Slack (emit cap bytes) := by
  intro pre w
  refine leads_guard ?_ fun _ => leads_ok ?_
  · simp only [Work.behind, length_append]
    omega
  · simp [Work.behind]

theorem recordSeal_room {k : TrafficKey} {seq : UInt64} {room room' : ℕ} (hroom : room ≤ room')
    (h : recordSeal P suite k seq inner pt room = some rec) :
    recordSeal P suite k seq inner pt room' = some rec := by
  unfold recordSeal at h ⊢
  split_ifs at h with hfits
  rwa [if_neg (by omega)]

theorem sealUnder_slack (e : Epoch) (inner : UInt8) (pt : List UInt8) :
    Slack (sealUnder P cap suite e inner pt) := by
  intro pre w
  refine leads_guard ?_ fun _ => ?_
  · simp only [Work.behind, length_append]
    omega
  · have hroom : cap - (w.behind pre).out.length ≤ cap - w.out.length := by
      simp only [Work.behind, length_append]
      omega
    refine Outcome.leads_given_of (fun rec => recordSeal_room hroom) fun rec => ?_
    exact leads_ok (by simp [Work.behind])

theorem appendAndSealHs_slack {msg : Option (List UInt8)} :
    Slack (appendAndSealHs P cap suite msg) := fun pre w =>
  leads_given fun msg => (thAppend_slack msg).bind (sealUnder_slack _ _ msg) pre w

theorem transcriptHash_slack {k : List UInt8 → Work → Outcome Work} (hk : ∀ th, Slack (k th)) :
    Slack fun w => transcriptHash P suite w k := fun pre w =>
  hk _ pre { w with log := w.log ++ [.hashed w.sess.th] }

theorem sendServerhello_slack : Slack (sendServerhello P cap suite) := by
  intro pre w
  refine leads_given fun msg => ?_
  have hkeys : Slack fun w => transcriptHash P suite w fun thChsh w => .ok { w with
      sess := { keyScheduleHandshake P suite thChsh w.sess with seqTx := 0, txApp := false } } :=
    transcriptHash_slack fun _ _ _ => leads_ok rfl
  exact (thAppend_slack msg).bind (emit_slack.bind hkeys) pre (w.drawn 32)

theorem sendCertverify_slack : Slack (sendCertverify P cap suite) :=
  transcriptHash_slack fun _ pre w => by
    exact appendAndSealHs_slack pre (w.drawn suite.hash.size)

theorem sendFinished_slack : Slack (sendFinished P cap suite) :=
  transcriptHash_slack fun _ pre w => appendAndSealHs_slack pre w

theorem finishFlight_slack : Slack (finishFlight P suite) :=
  transcriptHash_slack fun _ _ _ => leads_ok rfl

theorem buildServerFlight_slack : Slack (buildServerFlight P cap suite) :=
  sendServerhello_slack.bind <| emit_slack.bind <| appendAndSealHs_slack.bind <|
    appendAndSealHs_slack.bind <| sendCertverify_slack.bind <|
    sendFinished_slack.bind finishFlight_slack

theorem deriveEcdhe_slack {clientPub : List UInt8} : Slack (deriveEcdhe P group clientPub) := by
  intro pre w
  refine leads_guard id fun _ => ?_
  refine leads_given fun priv => ?_
  refine leads_guard id fun _ => ?_
  refine leads_given fun shared => ?_
  exact leads_guard id fun _ => leads_ok rfl

theorem sendRetry_slack : Slack (sendRetry P cap suite ch frag group) := by
  intro pre w
  refine (thAppend_slack _ pre { w with sess := { w.sess with th := [] } }).bind ?_
  rintro _ w₁ rfl
  refine leads_given fun msg => ?_
  refine (thAppend_slack msg pre
    { w₁ with sess := { w₁.sess with legacySessionId := ch.sessionId } }).bind ?_
  rintro _ w₂ rfl
  refine (emit_slack pre w₂).bind ?_
  rintro _ w₃ rfl
  refine (emit_slack pre w₃).bind ?_
  rintro _ w₄ rfl
  exact leads_ok rfl

theorem acceptHello_slack {share : List UInt8} :
    Slack (acceptHello P cap suite ch frag group share) := by
  intro pre w
  refine leads_guard id fun _ => ?_
  refine (thAppend_slack frag pre w).bind ?_
  rintro _ w₁ rfl
  exact deriveEcdhe_slack.bind buildServerFlight_slack pre { w₁ with
    sess := { w₁.sess with
      legacySessionId := if w₁.sess.hrrSent then w₁.sess.legacySessionId else ch.sessionId } }

theorem answerHello_slack : Slack (answerHello P cap suite ch frag) := by
  intro pre w
  unfold answerHello
  cases selectGroup ch with
  | some pick => exact acceptHello_slack pre w
  | none =>
    refine leads_guard id fun _ => ?_
    exact leads_given fun group => sendRetry_slack pre w

theorem feedHandshake_slack : Slack (feedHandshake P cap rec frag) := by
  intro pre w
  refine leads_guard id fun _ => ?_
  refine leads_given fun ch => ?_
  refine leads_guard id fun _ => ?_
  refine leads_given fun suite => ?_
  change Outcome.Leads _ (if w.sess.hrrSent = true then _ else _) _
  split
  · change Outcome.Leads _ (if w.sess.suite = some suite then _ else _) _
    split
    · exact answerHello_slack pre w
    · exact leads_fail
  · exact answerHello_slack pre { w with sess := { w.sess with suite := some suite } }

theorem takeFinished_slack : Slack (takeFinished P suite inner pt) := by
  intro pre w
  refine leads_guard id fun _ => ?_
  refine leads_given fun body => ?_
  exact leads_guard id fun _ => leads_ok rfl

variable {app : Option (List UInt8 → List UInt8)}

theorem takeData_slack :
    Slack (takeData P cap app suite inner pt) := by
  intro pre w
  unfold takeData
  split
  · exact leads_ok rfl
  refine leads_guard id fun _ => ?_
  rcases app with _ | app
  · exact leads_ok rfl
  dsimp only
  split
  · exact leads_ok rfl
  exact sealUnder_slack _ _ _ pre { w with
    sess := { w.sess with
      seqTx := if w.sess.txApp then w.sess.seqTx else 0, txApp := true }
    log := w.log ++ [.request pt] }

theorem openRecord_slack {e : Epoch} {k : UInt8 → List UInt8 → Work → Outcome Work}
    (hk : ∀ inner pt, Slack (k inner pt)) :
    Slack fun w => openRecord P suite e rec w k := fun pre w =>
  leads_given fun r => hk r.1 r.2 pre { w with
    sess := { w.sess with seqRx := w.sess.seqRx + 1 }
    log := w.log ++ [.opened e w.sess.seqRx r.1 r.2] }

theorem feedEncrypted_slack :
    Slack (feedEncrypted P cap app rec) := by
  intro pre w
  unfold feedEncrypted
  rw [show (w.behind pre).sess = w.sess from rfl]
  cases w.sess.st with
  | start => exact leads_fail
  | err => exact leads_fail
  | waitFinished => exact openRecord_slack (fun _ _ => takeFinished_slack) pre w
  | app => exact openRecord_slack (fun _ _ => takeData_slack) pre w

theorem takeRecord_slack :
    Slack (takeRecord P cap app rec) := by
  intro pre w
  unfold takeRecord
  split
  · unfold feedRecord
    split_ifs
    · exact leads_ok rfl
    · exact feedHandshake_slack pre w
    · exact feedEncrypted_slack pre w
    · exact leads_fail
  · exact leads_fail

theorem takeRecords_slack :
    Slack (takeRecords P cap app recs) := by
  induction recs with
  | nil => exact fun _ _ => leads_ok rfl
  | cons rec recs ih => exact takeRecord_slack.bind ih

end

def chunks : (buf : List UInt8) → List (List UInt8) → List (List UInt8)
  -- The frames up to the one that completes the leading record, joined; then each frame.
  | _, [] => []
  | buf, f :: fs => if complete (buf ++ f) then (buf ++ f) :: fs else chunks (buf ++ f) fs

variable {more : List UInt8}

theorem parseClienthello_append {bytes : List UInt8} (h : complete bytes = true) :
    parseClienthello (bytes ++ more) = parseClienthello bytes := by
  match bytes, h with
  | t :: _ :: _ :: n₁ :: n₀ :: rest, h =>
    have hrest : (rd16 n₁ n₀).toNat ≤ rest.length := of_decide_eq_true h
    simp only [cons_append, parseClienthello, length_append]
    rw [if_neg (show ¬ rest.length + more.length < (rd16 n₁ n₀).toNat by omega),
      if_neg (show ¬ rest.length < (rd16 n₁ n₀).toNat by omega),
      take_append_of_le_length hrest]

theorem chunks_cons (h : complete (buf ++ frames.flatten) = true) (hbuf : complete buf = false) :
    ∃ c cs, chunks buf frames = c :: cs ∧ complete c = true ∧
      (c :: cs).flatten = buf ++ frames.flatten := by
  induction frames generalizing buf with
  | nil => simp [hbuf] at h
  | cons f fs ih =>
    rw [flatten_cons, ← append_assoc] at h ⊢
    unfold chunks
    cases hf : complete (buf ++ f) with
    | true => exact ⟨buf ++ f, fs, rfl, hf, rfl⟩
    | false => exact ih h hf

theorem length_le_chunk (h : chunks buf frames = c :: cs) : buf.length ≤ c.length := by
  induction frames generalizing buf with
  | nil => cases h
  | cons f fs ih =>
    unfold chunks at h
    split_ifs at h
    · obtain ⟨rfl, -⟩ := List.cons.inj h
      simp
    · have := ih h
      rw [length_append] at this
      omega

section
variable {P : Prims} {app : Option (List UInt8 → List UInt8)}

def fed (P : Prims) (app : Option (List UInt8 → List UInt8)) (p : Port)
    (cs : List (List UInt8)) : Sess × List UInt8 :=
  ((exec (feedSession P app) p cs).conn.sess,
    (trace (feedSession P app) p cs).flatMap fun e => e.reply)

theorem served_decided (h : p.decided = some true) :
    served P app p frames = fed P app p frames := by
  induction frames generalizing p with
  | nil => rfl
  | cons f fs ih =>
    have hstep : frameStep P app p f = feedSession P app p f := by
      unfold frameStep
      rw [h]
      rfl
    have hrest := ih (p := (feedSession P app p f).1) h
    simp only [served, fed, Prod.mk.injEq] at hrest ⊢
    simp only [exec, trace, entry, hstep, flatMap_cons, hrest, and_self]

theorem reassemble_ready {f : List UInt8} (h : complete (slot.getD [] ++ f) = true)
    (hfits : slot = none ∨ (slot.getD [] ++ f).length ≤ reasmMax) :
    reassembleLeadingRecord slot f = (none, .ready (slot.getD [] ++ f)) := by
  rcases slot with _ | buf
  · exact if_pos ⟨rfl, h⟩
  have hlen : ¬ reasmMax < buf.length + f.length := by simpa using hfits
  unfold reassembleLeadingRecord
  rw [if_neg (by simp)]
  simp only [Option.getD_some] at h ⊢
  rw [if_neg hlen, if_pos h]

theorem reassemble_wait {f : List UInt8} (h : complete (slot.getD [] ++ f) = false)
    (hfits : (slot.getD [] ++ f).length ≤ reasmMax) :
    reassembleLeadingRecord slot f = (some (slot.getD [] ++ f), .wait) := by
  have hslow : ¬ (slot = none ∧ complete f = true) := by
    rintro ⟨rfl, hf⟩
    simp [hf] at h
  have hlen : ¬ reasmMax < (slot.getD []).length + f.length := by simpa using hfits
  unfold reassembleLeadingRecord
  rw [if_neg hslow]
  dsimp only
  rw [if_neg hlen, h]
  rfl

theorem served_leading (hp : p.decided = none) (hchunks : chunks (p.slot.getD []) frames = c :: cs)
    (hc : complete c = true) (hhello : clienthelloOffers13 c = some true)
    (hfits : c.length ≤ reasmMax ∨ p.slot = none ∧ frames.head? = some c) :
    served P app p frames = fed P app { p with slot := none, decided := some true } (c :: cs) := by
  induction frames generalizing p with
  | nil => cases hchunks
  | cons f fs ih =>
    unfold chunks at hchunks
    cases hf : complete (p.slot.getD [] ++ f) with
    | true =>
      rw [if_pos hf] at hchunks
      obtain ⟨rfl, rfl⟩ := List.cons.inj hchunks
      have hready := reassemble_ready hf (hfits.symm.imp And.left id)
      have hstep : frameStep P app p f = feedSession P app
          { p with slot := none, decided := some true } (p.slot.getD [] ++ f) := by
        unfold frameStep
        rw [hp, hready]
        simp only [hhello]
        rfl
      have hrest : served P app (feedSession P app { p with slot := none, decided := some true }
          (p.slot.getD [] ++ f)).1 fs = fed P app _ fs := served_decided rfl
      simp only [served, fed, Prod.mk.injEq] at hrest ⊢
      simp only [exec, trace, entry, hstep, flatMap_cons, hrest, and_self]
    | false =>
      rw [hf, if_neg Bool.false_ne_true] at hchunks
      have hlen := length_le_chunk hchunks
      have hroom : c.length ≤ reasmMax := by
        rcases hfits with hle | ⟨hslot, hhead⟩
        · exact hle
        · -- the first frame alone would be the chunk, but it is not complete
          obtain rfl : f = c := Option.some.inj hhead
          simp [hslot, hc] at hf
      have hwait := reassemble_wait hf (hlen.trans hroom)
      have hstep : frameStep P app p f = ({ p with slot := some (p.slot.getD [] ++ f) }, []) := by
        unfold frameStep
        rw [hp, hwait]
      have hrest := ih (p := { p with slot := some (p.slot.getD [] ++ f) }) hp hchunks (.inl hroom)
      simp only [served] at hrest ⊢
      simpa only [exec, trace, entry, hstep, flatMap_cons, nil_append] using hrest

theorem fed_aligned {pre : List UInt8} (hcs : ∀ c ∈ cs, ∃ recs : List (List UInt8),
      (∀ r ∈ recs, wholeRecord r = true) ∧ recs.flatten = c)
    (hok : feedRecords P outMax app cs.flatten.length cs.flatten ((inGet p).work.behind pre) =
      .ok w) :
    inGet (exec (feedSession P app) p cs) = w.conn ∧
      (cs ≠ [] → (exec (feedSession P app) p cs).used = true) ∧
      pre ++ (fed P app p cs).2 = w.out := by
  induction cs generalizing p pre with
  | nil =>
    obtain rfl := Outcome.ok.inj hok
    exact ⟨rfl, fun h => absurd rfl h, rfl⟩
  | cons c cs ih =>
    obtain ⟨⟨recs, hwhole, rfl⟩, hrest⟩ := forall_mem_cons.mp hcs
    rw [flatten_cons, feedRecords_flatten hwhole (Nat.le_refl _)] at hok
    obtain ⟨w₁, hw₁, hok⟩ := Outcome.bind_eq_ok hok
    obtain ⟨t, ht, rfl⟩ := takeRecords_slack pre (inGet p).work w₁ hw₁
    have hfeed : inboundFeed P outMax app recs.flatten (inGet p) = (t.conn, some t.out) := by
      unfold inboundFeed
      rw [feedRecords_whole hwhole, ht]
    have hstep : feedSession P app p recs.flatten =
        ({ p with conn := t.conn, used := true }, t.out) := by
      simp only [feedSession, hfeed, Option.isSome_some, Option.getD_some]
    have hpre : t.behind pre = t.conn.work.behind (pre ++ t.out) := by
      simp [Work.behind, Work.conn, Conn.work]
    rw [hpre] at hok
    obtain ⟨hconn, hused, hout⟩ := ih (p := { p with conn := t.conn, used := true }) hrest hok
    have hlast : (exec (feedSession P app) { p with conn := t.conn, used := true } cs).used =
        true := by
      cases cs with
      | nil => rfl
      | cons c' cs' => exact hused (cons_ne_nil _ _)
    simp only [fed, exec, trace, entry, hstep, flatMap_cons] at hout ⊢
    exact ⟨hconn, fun _ => hlast, by rw [← append_assoc]; exact hout⟩

end

structure Cut (records frames : List (List UInt8)) : Prop where
  whole : ∀ r ∈ records, wholeRecord r = true
  bytes : frames.flatten = records.flatten

structure WellCut (P : Prims) (app : Option (List UInt8 → List UInt8))
    (records frames : List (List UInt8)) : Prop where
  hello : clienthelloOffers13 records.flatten = some true
  fits : ∀ c ∈ (chunks [] frames).head?, c.length ≤ reasmMax ∨ frames.head? = some c
  pieces : (chunks [] frames).length = 1 ∨
    (∀ c ∈ chunks [] frames, ∃ recs : List (List UInt8),
      (∀ r ∈ recs, wholeRecord r = true) ∧ recs.flatten = c) ∧
    (takeRecords P outMax app records (Conn.work {})).isOk = true

theorem complete_of_offers {bytes : List UInt8} (h : clienthelloOffers13 bytes = some true) :
    complete bytes = true := by
  match bytes with
  | t :: _ :: _ :: n₁ :: n₀ :: rest =>
    by_contra hshort
    have hlt : rest.length < (rd16 n₁ n₀).toNat := by simpa [complete] using hshort
    simp [clienthelloOffers13, parseClienthello, hlt] at h
  | [] => cases h
  | [_] => cases h
  | [_, _] => cases h
  | [_, _, _] => cases h
  | [_, _, _, _] => cases h

/-- Over frames cut like that the path answers, and leaves the session, as one call would. -/
theorem well_cut_agrees (P : Prims) (app : Option (List UInt8 → List UInt8))
    (records frames : List (List UInt8)) (hcut : Cut records frames)
    (hwell : WellCut P app records frames) :
    served P app {} frames = oneCall P app records.flatten := by
  have hcomplete : complete ([] ++ frames.flatten) = true := by
    rw [nil_append, hcut.bytes]
    exact complete_of_offers hwell.hello
  obtain ⟨c, cs, hchunks, hc, hflat⟩ := chunks_cons hcomplete rfl
  rw [nil_append, hcut.bytes] at hflat
  have hhello : clienthelloOffers13 c = some true := by
    rw [← hwell.hello, ← hflat, flatten_cons, clienthelloOffers13, clienthelloOffers13,
      parseClienthello_append hc]
  have hfits := hwell.fits c (by simp [hchunks])
  have hlead : served P app {} frames = fed P app { decided := some true } (c :: cs) :=
    served_leading (p := {}) rfl hchunks hc hhello (hfits.imp id fun hhead => ⟨rfl, hhead⟩)
  rw [hlead]
  rcases hwell.pieces with hone | ⟨haligned, htaken⟩
  · obtain rfl : cs = [] := by simpa [hchunks] using hone
    rw [← hflat, flatten_singleton]
    exact Prod.ext rfl (append_nil _)
  · obtain ⟨w, hw⟩ := Outcome.exists_of_isOk htaken
    have hall : feedRecords P outMax app records.flatten.length records.flatten (Conn.work {}) =
        .ok w := by
      rw [feedRecords_whole hcut.whole, hw]
    have hcs : feedRecords P outMax app (c :: cs).flatten.length (c :: cs).flatten
        ((inGet { decided := some true }).work.behind []) = .ok w := by
      rw [hflat]
      exact hall
    rw [hchunks] at haligned
    obtain ⟨hconn, hused, hout⟩ := fed_aligned haligned hcs
    have hsess : (fed P app { decided := some true } (c :: cs)).1 = w.sess := by
      rw [inGet, if_pos (hused (cons_ne_nil _ _))] at hconn
      exact congrArg Conn.sess hconn
    have honecall : oneCall P app records.flatten = (w.sess, w.out) := by
      simp only [oneCall, inboundFeed, hall]
      rfl
    rw [honecall]
    exact Prod.ext hsess hout

theorem hello_finished_agree :
    WellCut plainPrims none [sampleHello, sampleFinished] [sampleHello, sampleFinished] ∧
      served plainPrims none {} [sampleHello, sampleFinished] =
        oneCall plainPrims none [sampleHello, sampleFinished].flatten := by
  have hwell : WellCut plainPrims none [sampleHello, sampleFinished]
      [sampleHello, sampleFinished] := by
    refine ⟨by decide +kernel, ?_, .inr ⟨?_, by decide +kernel⟩⟩
    · exact fun c hc => .inr hc
    · have hchunks : chunks [] [sampleHello, sampleFinished] = [sampleHello, sampleFinished] := by
        decide +kernel
      rw [hchunks]
      intro c hc
      rcases mem_pair.mp hc with rfl | rfl
      · exact ⟨[sampleHello], by decide +kernel, by simp⟩
      · exact ⟨[sampleFinished], by decide +kernel, by simp⟩
  exact ⟨hwell, well_cut_agrees _ _ _ _ ⟨by decide +kernel, rfl⟩ hwell⟩

theorem finished_in_two_segments : Cut [sampleHello, sampleFinished]
        [sampleHello, sampleFinished.take 20, sampleFinished.drop 20] ∧
      (served plainPrims none {}
        [sampleHello, sampleFinished.take 20, sampleFinished.drop 20]).1.st = .err ∧
      (oneCall plainPrims none [sampleHello, sampleFinished].flatten).1.st = .app := by
  refine ⟨⟨by decide +kernel, by decide +kernel⟩, ?_, ?_⟩
  · decide +kernel
  · decide +kernel

end SotOs.Synth.Tls13
