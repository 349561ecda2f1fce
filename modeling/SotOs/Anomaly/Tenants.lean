import SotOs.Anomaly.Service
import SotOs.Lib.History

/-! Scoring per tenant: what the reply to a sotbox should be, from its own events alone, and when
the service gives it. -/

namespace SotOs.Anomaly
open History Machine Function List

structure Tenant where
  score : ℕ
  tier : ℕ
  flagged : Bool
  unlinkRun : UInt32
  eventsSinceUnlink : UInt32
  bytes : UInt32

def Tenant.new : Tenant := ⟨0, 0, false, 0, 0, 0⟩

def ownTier (score : ℕ) : ℕ := if 40 ≤ score then 2 else if 20 ≤ score then 1 else 0

def Tenant.add (t : Tenant) (weight : ℕ) : Tenant × ℕ :=
  let score := t.score + weight
  if ownTier score > t.tier then ({ t with score := score, tier := ownTier score }, ownTier score)
  else ({ t with score := score }, 0)

def Tenant.flag (t : Tenant) (orchEp rule : Bool) : Tenant × ℕ :=
  if rule ∧ t.flagged = false ∧ orchEp then
    let t := ({ t with flagged := true }.add instantWeight.toNat).1
    ({ t with eventsSinceUnlink := t.eventsSinceUnlink + 1 }, 2)
  else (t, 0)

def Tenant.judge (orchEp : Bool) (t : Tenant) : Act → Tenant × Reply
  | .sync kind mr2 =>
    let (run, since, bonus) := burst t.unlinkRun t.eventsSinceUnlink kind mr2
    let (t, tier) := { t with unlinkRun := run, eventsSinceUnlink := since }.add
      (kind.weight + bonus).toNat
    (t, ⟨0, tier⟩)
  | .netPrecommit dst len =>
    let t := { t with bytes := t.bytes + len }
    let (t', tier) := t.flag orchEp (decide (firstOctet dst ≠ 10 ∧ t.bytes > 16384))
    (t', ⟨if tier = 2 then 2 else netDecision dst len t.bytes, tier⟩)
  | act =>
    let (t, tier) := t.flag orchEp act.instant
    (t, ⟨0, tier⟩)

def Tenant.after (orchEp : Bool) (own : List Act) : Tenant :=
  own.foldl (fun t act => (t.judge orchEp act).1) Tenant.new

abbrev Exchange := Entry World Input Reply

variable (pid : ℕ)

def slotStep (acts : List Act × List Act) : Input → List Act × List Act
  | .takeover p => if p = pid then (acts.1 ++ acts.2, []) else acts
  | .silentWrite _ => acts
  | .report p act => if p = pid then (acts.1, acts.2 ++ [act]) else acts

variable (past : List Exchange)

def slotActs : List Act × List Act :=
  past.foldl (fun acts e => slotStep pid acts e.input) ([], [])

def ownActs : List Act := (slotActs pid past).2

def earlierActs : List Act := (slotActs pid past).1

def Act.sent : Act → UInt32
  | .netPrecommit _ len => len
  | _ => 0

def sent (acts : List Act) : UInt32 := (acts.map Act.sent).sum

def Fair (orchEp : Bool) (past : List Exchange) (e : Exchange) : Prop :=
  match e.input with
  | .report pid act => pidKnown pid →
      e.reply = ((Tenant.after orchEp (ownActs pid past)).judge orchEp act).2
  | _ => True

def Cell.Blank (c : Cell) : Prop := c.reset = c

instance (c : Cell) : Decidable c.Blank := inferInstanceAs (Decidable (_ = _))

def Act.isSync : Act → Bool
  | .sync _ _ => true
  | _ => false

def Act.leaves : Act → Bool
  | .netPrecommit dst _ => decide (firstOctet dst ≠ 10)
  | _ => false

def Clears (c : Cell) (lucasCount : UInt32) (act : Act) : Prop :=
  act.isSync = true ∧ c.resets lucasCount

instance (c : Cell) (n : UInt32) (act : Act) : Decidable (Clears c n act) :=
  inferInstanceAs (Decidable (_ ∧ _))

def Handed (own : List Act) (c : Cell) (lucasCount : UInt32) (act : Act) : Prop :=
  if own = [] then c.Blank ∨ Clears c lucasCount act else ¬ Clears c lucasCount act

instance (own : List Act) (c : Cell) (n : UInt32) (act : Act) : Decidable (Handed own c n act) :=
  inferInstanceAs (Decidable (if own = [] then c.Blank ∨ Clears c n act else ¬ Clears c n act))

def CleanSlot (e : Exchange) : Prop :=
  match e.input with
  | .report pid act => pidKnown pid →
      Handed (ownActs pid past) (e.pre.cells pid) (e.pre.stamp pid act) act ∧
        (act.leaves = true → sent (earlierActs pid past) = 0)
  | _ => True

instance (past : List Exchange) : (e : Exchange) → Decidable (CleanSlot past e)
  | ⟨pre, .report pid act, _⟩ => inferInstanceAs (Decidable (pidKnown pid →
      Handed (ownActs pid past) (pre.cells pid) (pre.stamp pid act) act ∧
        (act.leaves = true → sent (earlierActs pid past) = 0)))
  | ⟨_, .takeover _, _⟩ => .isTrue trivial
  | ⟨_, .silentWrite _, _⟩ => .isTrue trivial

structure Matches (c : Cell) (t : Tenant) : Prop where
  score : c.score.toNat = t.score % 2 ^ 32
  tier : t.tier = ownTier t.score
  applied : c.appliedTier = t.tier
  flagged : c.promoted = t.flagged
  run : c.unlinkRun = t.unlinkRun
  since : c.eventsSinceUnlink = t.eventsSinceUnlink

theorem ownTier_mono {a b : ℕ} (h : a ≤ b) : ownTier a ≤ ownTier b := by
  unfold ownTier
  split_ifs <;> omega

theorem ownTier_le {n : ℕ} : ownTier n ≤ 2 := by
  unfold ownTier
  split_ifs <;> omega

theorem scoreTier_eq {score : UInt32} : scoreTier score = ownTier score.toNat := by
  simp only [scoreTier, ownTier, ge_iff_le, UInt32.le_iff_toNat_le]
  rfl

variable {c : Cell} {t : Tenant} {n : UInt32} {act : Act} {orchEp : Bool}
  {acts : List Act × List Act} {w : World}

theorem scoreTier_add (h : Matches c t) {weight : UInt32} (hw : weight.toNat ≤ 40) :
    scoreTier (c.score + weight) > c.appliedTier ∧
        scoreTier (c.score + weight) = ownTier (t.score + weight.toNat) ∧
        ownTier (t.score + weight.toNat) > t.tier ∨
      ¬ scoreTier (c.score + weight) > c.appliedTier ∧
        ¬ ownTier (t.score + weight.toNat) > t.tier := by
  have hsum : (c.score + weight).toNat = (t.score + weight.toNat) % 2 ^ 32 := by
    rw [UInt32.toNat_add, h.score, Nat.mod_add_mod]
  rw [scoreTier_eq, hsum, h.applied, h.tier]
  rcases Nat.lt_or_ge (t.score + weight.toNat) (2 ^ 32) with hlt | hge
  · rw [Nat.mod_eq_of_lt hlt]
    rcases Nat.lt_or_ge (ownTier t.score) (ownTier (t.score + weight.toNat)) with hup | hup
    · exact .inl ⟨hup, rfl, hup⟩
    · exact .inr ⟨Nat.not_lt.mpr hup, Nat.not_lt.mpr hup⟩
  · have htop : ownTier t.score = 2 := by
      rw [ownTier, if_pos (by omega)]
    rw [htop]
    exact .inr ⟨Nat.not_lt.mpr ownTier_le, Nat.not_lt.mpr ownTier_le⟩

theorem Matches.add (h : Matches c t) (weight : UInt32) (hw : weight.toNat ≤ 40) :
    Matches (anomalyScoreFold c weight).1 (t.add weight.toNat).1 ∧
      (anomalyScoreFold c weight).2 = (t.add weight.toNat).2 := by
  have hsum : (c.score + weight).toNat = (t.score + weight.toNat) % 2 ^ 32 := by
    rw [UInt32.toNat_add, h.score, Nat.mod_add_mod]
  rcases scoreTier_add h hw with ⟨hc, heq, ht⟩ | ⟨hc, ht⟩
  · simp only [anomalyScoreFold, Tenant.add, if_pos hc, if_pos ht]
    exact ⟨{ h with score := hsum, tier := rfl, applied := heq }, heq⟩
  · simp only [anomalyScoreFold, Tenant.add, if_neg hc, if_neg ht]
    have htier : t.tier = ownTier (t.score + weight.toNat) :=
      le_antisymm (h.tier.trans_le (ownTier_mono (Nat.le_add_right _ _))) (Nat.not_lt.mp ht)
    exact ⟨{ h with score := hsum, tier := htier }, trivial⟩

theorem Matches.counters (h : Matches c t) (run since : UInt32) :
    Matches { c with unlinkRun := run, eventsSinceUnlink := since }
      { t with unlinkRun := run, eventsSinceUnlink := since } :=
  { h with run := rfl, since := rfl }

theorem Matches.writeCounts (h : Matches c t) (n : UInt32) :
    Matches { c with writeCounts := n } t := { h with }

theorem Matches.packet (h : Matches c t) (m n : UInt32) :
    Matches { c with bytesOut := m } { t with bytes := n } := { h with }

theorem weight_le (run since : UInt32) (kind : SyncKind) (mr2 : UInt64) :
    (kind.weight + (burst run since kind mr2).2.2).toNat ≤ 40 := by
  have hstep : ∀ n : UInt32, (if n > 12 then 12 else n).toNat ≤ 12 := by
    intro n
    split
    · exact Nat.le_refl 12
    · rename_i h
      simpa [UInt32.lt_iff_toNat_lt] using h
  cases kind with
  | unlink =>
    simp only [SyncKind.weight, burst]
    have h := hstep (2 * ((if since > 8 then 0 else run) + 1))
    generalize (if 2 * ((if since > 8 then 0 else run) + 1) > 12 then 12
      else 2 * ((if since > 8 then 0 else run) + 1)) = step at h ⊢
    split
    · rw [sub_add_cancel, UInt32.toNat_add]
      exact (Nat.mod_le _ _).trans (Nat.add_le_add (Nat.le_refl 2) h |>.trans (by decide))
    · rw [add_sub_cancel]
      exact h.trans (by decide)
  | write => simp [SyncKind.weight, burst]
  | exec => simp [SyncKind.weight, burst]
  | credAccess => simp [SyncKind.weight, burst]

theorem Matches.flag (h : Matches c t) (orchEp rule : Bool) :
    Matches (fireOnce c orchEp rule).1 (t.flag orchEp rule).1 ∧
      (fireOnce c orchEp rule).2 = (t.flag orchEp rule).2 := by
  by_cases hfire : rule ∧ c.promoted = false ∧ orchEp
  · have hflag : rule ∧ t.flagged = false ∧ orchEp := h.flagged ▸ hfire
    have hset : Matches { c with promoted := true } { t with flagged := true } :=
      { h with flagged := rfl }
    obtain ⟨hadd, -⟩ := hset.add instantWeight (by decide)
    simp only [fireOnce, Tenant.flag, if_pos hfire, if_pos hflag, anomalyFoldAsync]
    exact ⟨{ hadd with since := congrArg (· + 1) hadd.since }, trivial⟩
  · have hflag : ¬ (rule ∧ t.flagged = false ∧ orchEp) := h.flagged ▸ hfire
    simp only [fireOnce, Tenant.flag, if_neg hfire, if_neg hflag]
    exact ⟨h, trivial⟩

theorem serve_judge (h : Matches c t) (hkeep : ¬ Clears c n act)
    (hbytes : act.leaves = true → c.bytesOut = t.bytes) :
    Matches (serve orchEp c n act).1 (t.judge orchEp act).1 ∧
      (serve orchEp c n act).2 = (t.judge orchEp act).2 := by
  cases act with
  | sync kind mr2 =>
    have hres : ¬ c.resets n := fun hr => hkeep ⟨rfl, hr⟩
    have hw := weight_le t.unlinkRun t.eventsSinceUnlink kind mr2
    simp only [serve, anomalyHandleSync, Tenant.judge, if_neg hres, h.run, h.since]
    obtain ⟨hm, htier⟩ := ((h.writeCounts (if n ≠ 0 then n else c.writeCounts + 1)).counters
      (burst t.unlinkRun t.eventsSinceUnlink kind mr2).1
      (burst t.unlinkRun t.eventsSinceUnlink kind mr2).2.1).add _ hw
    exact ⟨hm, congrArg (Reply.mk 0) htier⟩
  | netPrecommit dst len =>
    simp only [serve, Tenant.judge]
    by_cases hin : firstOctet dst = 10
    · -- neither count matters for the inner network
      obtain ⟨hm, htier⟩ := (h.packet (c.bytesOut + len) (t.bytes + len)).flag orchEp false
      simp only [hin, ne_eq, not_true_eq_false, false_and, decide_false, netDecision, if_true]
      exact ⟨hm, by rw [htier]⟩
    · have hsame : c.bytesOut = t.bytes := hbytes (decide_eq_true hin)
      rw [hsame]
      obtain ⟨hm, htier⟩ := (h.packet (t.bytes + len) (t.bytes + len)).flag orchEp
        (decide (firstOctet dst ≠ 10 ∧ t.bytes + len > 16384))
      exact ⟨hm, by rw [htier]⟩
  | curvature rule =>
    obtain ⟨hm, htier⟩ := h.flag orchEp (Act.curvature rule).instant
    exact ⟨hm, congrArg (Reply.mk 0) htier⟩
  | dnsHit =>
    obtain ⟨hm, htier⟩ := h.flag orchEp Act.dnsHit.instant
    exact ⟨hm, congrArg (Reply.mk 0) htier⟩
  | msyscall =>
    obtain ⟨hm, htier⟩ := h.flag orchEp Act.msyscall.instant
    exact ⟨hm, congrArg (Reply.mk 0) htier⟩
  | tcpOpen ip =>
    obtain ⟨hm, htier⟩ := h.flag orchEp (Act.tcpOpen ip).instant
    exact ⟨hm, congrArg (Reply.mk 0) htier⟩

@[simp] theorem anomalyScoreFold_bytesOut {weight : UInt32} :
    (anomalyScoreFold c weight).1.bytesOut = c.bytesOut := by
  unfold anomalyScoreFold
  dsimp only
  split <;> rfl

theorem fireOnce_bytesOut {rule : Bool} : (fireOnce c orchEp rule).1.bytesOut = c.bytesOut := by
  unfold fireOnce
  split
  · simp only [anomalyFoldAsync, anomalyScoreFold_bytesOut]
  · rfl

theorem serve_bytesOut : (serve orchEp c n act).1.bytesOut = c.bytesOut + act.sent := by
  cases act with
  | sync kind mr2 =>
    simp only [serve, anomalyHandleSync, anomalyScoreFold_bytesOut, Act.sent, UInt32.add_zero]
    split <;> rfl
  | netPrecommit dst len => exact fireOnce_bytesOut
  | curvature rule => exact fireOnce_bytesOut.trans (UInt32.add_zero _).symm
  | dnsHit => exact fireOnce_bytesOut.trans (UInt32.add_zero _).symm
  | msyscall => exact fireOnce_bytesOut.trans (UInt32.add_zero _).symm
  | tcpOpen ip => exact fireOnce_bytesOut.trans (UInt32.add_zero _).symm

@[simp] theorem Tenant.add_bytes (t : Tenant) (weight : ℕ) : (t.add weight).1.bytes = t.bytes := by
  unfold Tenant.add
  dsimp only
  split <;> rfl

theorem Tenant.flag_bytes (t : Tenant) (orchEp rule : Bool) :
    (t.flag orchEp rule).1.bytes = t.bytes := by
  unfold Tenant.flag
  split
  · simp only [Tenant.add_bytes]
  · rfl

theorem Tenant.judge_bytes (t : Tenant) (orchEp : Bool) (act : Act) :
    (t.judge orchEp act).1.bytes = t.bytes + act.sent := by
  cases act with
  | sync kind mr2 =>
    simp only [Tenant.judge, Tenant.add_bytes, Act.sent, UInt32.add_zero]
  | netPrecommit dst len => exact Tenant.flag_bytes _ _ _
  | curvature rule => exact (Tenant.flag_bytes _ _ _).trans (UInt32.add_zero _).symm
  | dnsHit => exact (Tenant.flag_bytes _ _ _).trans (UInt32.add_zero _).symm
  | msyscall => exact (Tenant.flag_bytes _ _ _).trans (UInt32.add_zero _).symm
  | tcpOpen ip => exact (Tenant.flag_bytes _ _ _).trans (UInt32.add_zero _).symm

variable {own : List Act}

theorem sent_append {own' : List Act} : sent (own ++ own') = sent own + sent own' := by
  simp only [sent, map_append, sum_append]

theorem sent_concat : sent (own ++ [act]) = sent own + act.sent := by
  simp [sent]

theorem Tenant.after_concat (orchEp : Bool) (own : List Act) (act : Act) :
    Tenant.after orchEp (own ++ [act]) = ((Tenant.after orchEp own).judge orchEp act).1 := by
  simp only [Tenant.after, foldl_append, foldl_cons, foldl_nil]

theorem Tenant.after_bytes (orchEp : Bool) (own : List Act) :
    (Tenant.after orchEp own).bytes = sent own := by
  induction own using reverseRecOn with
  | nil => rfl
  | append_singleton own act ih => rw [Tenant.after_concat, Tenant.judge_bytes, ih, sent_concat]

def Cell.handedOn (c : Cell) (writeCounts : UInt32) : Cell :=
  { c.reset with writeCounts := writeCounts }

theorem handedOn_matches : Matches (c.handedOn n) Tenant.new := ⟨rfl, rfl, rfl, rfl, rfl, rfl⟩

theorem serve_clears (h : Clears c n act) :
    serve orchEp c n act = serve orchEp (c.handedOn 0) n act := by
  obtain ⟨hsync, hres⟩ := h
  have hzero : ¬ (c.handedOn 0).resets n := fun hr => UInt32.not_lt_zero hr.2
  cases act with
  | sync kind mr2 =>
    simp only [serve, anomalyHandleSync, if_pos hres, if_neg hzero, if_pos hres.1]
    rfl
  | netPrecommit dst len => cases hsync
  | curvature rule => cases hsync
  | dnsHit => cases hsync
  | msyscall => cases hsync
  | tcpOpen ip => cases hsync

theorem serve_first (h : c.Blank ∨ Clears c n act) :
    ∃ m, serve orchEp c n act = serve orchEp (c.handedOn m) n act ∧
      ¬ Clears (c.handedOn m) n act := by
  by_cases hc : Clears c n act
  · exact ⟨0, serve_clears hc, fun hr => UInt32.not_lt_zero hr.2.2⟩
  · have hblank : c.reset = c := h.resolve_right hc
    have hsame : c.handedOn c.writeCounts = c := by
      rw [Cell.handedOn, hblank]
    exact ⟨c.writeCounts, by rw [hsame], by rwa [hsame]⟩

theorem slotActs_concat {pid : ℕ} {past : List Exchange} {e : Exchange} :
    slotActs pid (past ++ [e]) = slotStep pid (slotActs pid past) e.input := by
  simp only [slotActs, foldl_append, foldl_cons, foldl_nil]

structure Keeps (orchEp : Bool) (acts : List Act × List Act) (c : Cell) : Prop where
  judged : acts.2 ≠ [] → Matches c (Tenant.after orchEp acts.2)
  bytes : c.bytesOut = sent acts.1 + sent acts.2

theorem Keeps.takeover (h : Keeps orchEp acts c) : Keeps orchEp (acts.1 ++ acts.2, []) c := by
  refine ⟨fun hne => absurd rfl hne, ?_⟩
  rw [h.bytes, sent_append]
  exact (UInt32.add_zero _).symm

theorem Keeps.report (h : Keeps orchEp acts c) (hand : Handed acts.2 c n act)
    (hsent : act.leaves = true → sent acts.1 = 0) :
    Keeps orchEp (acts.1, acts.2 ++ [act]) (serve orchEp c n act).1 ∧
      (serve orchEp c n act).2 = ((Tenant.after orchEp acts.2).judge orchEp act).2 := by
  have hown : act.leaves = true → c.bytesOut = (Tenant.after orchEp acts.2).bytes := by
    intro hl
    rw [h.bytes, hsent hl, Tenant.after_bytes, UInt32.zero_add]
  have hserve : Matches (serve orchEp c n act).1 ((Tenant.after orchEp acts.2).judge orchEp act).1 ∧
      (serve orchEp c n act).2 = ((Tenant.after orchEp acts.2).judge orchEp act).2 := by
    by_cases hnew : acts.2 = []
    · rw [Handed, if_pos hnew] at hand
      obtain ⟨m, heq, hkeep⟩ := serve_first hand
      rw [hnew] at hown ⊢
      rw [heq]
      exact serve_judge handedOn_matches hkeep hown
    · rw [Handed, if_neg hnew] at hand
      exact serve_judge (h.judged hnew) hand hown
  refine ⟨⟨fun _ => ?_, ?_⟩, hserve.2⟩
  · rw [Tenant.after_concat]
    exact hserve.1
  · rw [serve_bytesOut, h.bytes, sent_concat, UInt32.add_assoc]

def Tracks (orchEp : Bool) (past : List Exchange) (w : World) : Prop :=
  ∀ pid, pidKnown pid → Keeps orchEp (slotActs pid past) (w.cells pid)

theorem tracks_start (orchEp : Bool) : Tracks orchEp [] World.start :=
  fun _ _ => ⟨fun hne => absurd rfl hne, rfl⟩

theorem Tracks.step {past : List Exchange} (h : Tracks orchEp past w) (i : Input)
    (hclean : CleanSlot past (entry (anomalyStep orchEp) w i)) :
    Tracks orchEp (past ++ [entry (anomalyStep orchEp) w i]) (anomalyStep orchEp w i).1 ∧
      Fair orchEp past (entry (anomalyStep orchEp) w i) := by
  cases i with
  | takeover p =>
    refine ⟨fun pid hpid => ?_, trivial⟩
    rw [slotActs_concat]
    by_cases hp : p = pid
    · simp only [entry, slotStep, if_pos hp]
      exact (h pid hpid).takeover
    · simp only [entry, slotStep, if_neg hp]
      exact h pid hpid
  | silentWrite p =>
    refine ⟨fun pid hpid => ?_, trivial⟩
    rw [slotActs_concat]
    exact h pid hpid
  | report p act =>
    refine ⟨fun pid hpid => ?_, fun hpid => ?_⟩
    · rw [slotActs_concat]
      by_cases hp : p = pid
      · subst hp
        obtain ⟨hand, hsent⟩ := hclean hpid
        have hkeeps := ((h p hpid).report hand hsent).1
        simpa only [entry, slotStep, anomalyStep, if_pos hpid, if_true, update_self] using hkeeps
      · have hcell : (anomalyStep orchEp w (.report p act)).1.cells pid = w.cells pid :=
          update_of_ne (Ne.symm hp) _ _
        rw [hcell]
        simp only [entry, slotStep, if_neg hp]
        exact h pid hpid
    · obtain ⟨hand, hsent⟩ := hclean hpid
      have hreply := ((h p hpid).report hand hsent).2
      simpa only [entry, ownActs, anomalyStep, if_pos hpid] using hreply

theorem Tracks.fair {inputs : List Input} {past : List Exchange} (h : Tracks orchEp past w)
    (hclean : Along CleanSlot past (trace (anomalyStep orchEp) w inputs)) :
    Along (Fair orchEp) past (trace (anomalyStep orchEp) w inputs) := by
  induction inputs generalizing past w with
  | nil => exact trivial
  | cons i inputs ih =>
    obtain ⟨hi, hrest⟩ := hclean
    obtain ⟨htracks, hfair⟩ := h.step i hi
    exact ⟨hfair, ih htracks hrest⟩

/-- In every run whose slots are handed over clean, each sotbox gets the replies that its own events
call for. -/
theorem judged_on_own_events (orchEp : Bool) (inputs : List Input)
    (hclean : Along CleanSlot [] (trace (anomalyStep orchEp) World.start inputs)) :
    Along (Fair orchEp) [] (trace (anomalyStep orchEp) World.start inputs) :=
  (tracks_start orchEp).fair hclean

def cleanTakeover : List Input :=
  [.report 1 (.sync .write 0), .report 1 (.sync .write 0), .report 2 (.netPrecommit 8 300),
    .takeover 1, .report 1 (.sync .write 0), .report 1 (.sync .credAccess 0)]

theorem clean_takeover_judged :
    Along (Fair true) [] (trace (anomalyStep true) World.start cleanTakeover) :=
  judged_on_own_events true cleanTakeover (by decide +kernel)

def staleScore : List Input :=
  [.report 1 (.sync .credAccess 0), .takeover 1, .report 1 (.sync .exec 0)]

theorem predecessor_promotes_successor :
    ¬ Along (Fair true) [] (trace (anomalyStep true) World.start staleScore) := by
  intro h
  have hreply := h.2.2.1 (by decide)
  revert hreply
  decide +kernel

end SotOs.Anomaly
