import SotOs.Lib.Machine

/-! The containment tier of one sotbox and everything that changes it: the pledge gate in front of
every syscall, the replies of the anomaly service, a connect that leaves the machine, and the
quarantine of a fork bomb. -/

namespace SotOs.Lucas.Tier

open Machine

/-- `FUNCTOR_TIER_EGRESS`: Tier 0 with the real wire, numbered above Tier 2. -/
def tierEgress : ℤ := 3

inductive Functor
  | f0
  | f1
  | f2
  | f0e
deriving DecidableEq, Repr

def Functor.isIsolated : Functor → Bool
  | .f2 => true
  | _ => false

def Functor.isEgress : Functor → Bool
  | .f0e => true
  | _ => false

def lucasFunctorForTier (tier : ℤ) : Functor :=
  if tier = 0 then .f0
  else if tier = 1 then .f1
  else if tier = 2 then .f2
  else if tier = tierEgress then .f0e
  else .f0

structure Sotbox where
  tier : ℤ
  functor : Functor
  trusted : Bool
  pledge : UInt64
  pledgeViolations : UInt32
  cowSession : UInt32
  writeCount : UInt32
  anomalyTriggers : UInt32
  forkAttempts : UInt32
deriving DecidableEq

def lucasSetTier (st : Sotbox) (tier : ℤ) : Sotbox :=
  if st.trusted ∧ 0 < tier then st
  else { st with tier := tier, functor := lucasFunctorForTier tier }

def pledgeStdio : UInt64 := (1 : UInt64) <<< 0
def pledgeRpath : UInt64 := (1 : UInt64) <<< 1
def pledgeWpath : UInt64 := (1 : UInt64) <<< 2
def pledgeInet : UInt64 := (1 : UInt64) <<< 3
def pledgeProc : UInt64 := (1 : UInt64) <<< 5
def pledgeExec : UInt64 := (1 : UInt64) <<< 6
def pledgeVminfo : UInt64 := (1 : UInt64) <<< 8
def pledgeLucas : UInt64 := (1 : UInt64) <<< 10
def pledgeSetid : UInt64 := (1 : UInt64) <<< 12
def pledgeAll : UInt64 := 0xFFFFFFFFFFFFFFFF

def pledgeTable : List (List ℕ × UInt64) :=
  [([0, 1, 3, 8, 32, 33, 292, 22, 293, 16, 72, 60, 231, 20], pledgeStdio),
   ([2, 257, 4, 5, 6, 262, 89, 267, 21, 79, 217], pledgeRpath),
   ([41, 42, 43, 288, 49, 50, 44, 45, 46, 47, 48, 51, 52, 53, 54, 55], pledgeInet),
   ([57, 56, 61, 62, 200, 234], pledgeProc),
   ([59], pledgeExec),
   ([9, 11, 10, 12], pledgeVminfo),
   ([105, 106], pledgeSetid),
   ([1000], pledgeLucas)]

def pledgeCategory (sysno : ℕ) : UInt64 :=
  ((pledgeTable.find? fun row => row.1.contains sysno).map (·.2)).getD 0

def lxSysOpen : ℕ := 2
def lxSysOpenat : ℕ := 257
def lxSysConnect : ℕ := 42
def lxSysExecve : ℕ := 59

def pledgeCheckArgs (sysno : ℕ) (args : List UInt64) : UInt64 :=
  -- An open that can write is in a category of its own.
  if sysno = lxSysOpen then
    if args.getD 1 0 &&& 3 = 0 then pledgeRpath else pledgeWpath
  else if sysno = lxSysOpenat then
    if args.getD 2 0 &&& 3 = 0 then pledgeRpath else pledgeWpath
  else pledgeCategory sysno

def violates (st : Sotbox) (sysno : ℕ) (args : List UInt64) : Prop :=
  st.pledge ≠ pledgeAll ∧ pledgeCheckArgs sysno args ≠ 0 ∧
    st.pledge &&& pledgeCheckArgs sysno args = 0

instance (st : Sotbox) (sysno : ℕ) (args : List UInt64) : Decidable (violates st sysno args) :=
  inferInstanceAs (Decidable (_ ∧ _ ∧ _))

def onViolation (st : Sotbox) : Sotbox :=
  let st := { st with pledgeViolations := st.pledgeViolations + 1 }
  let st := lucasSetTier st 1
  if st.tier = 1 ∧ st.pledgeViolations ≥ 3 then lucasSetTier st 2 else st

/-- `lucas_sys_pledge`, with the mask its promise string stands for. -/
def lucasSysPledge (st : Sotbox) (requested : UInt64) : Sotbox :=
  if requested = 0 then st
  else if st.pledge = pledgeAll then { st with pledge := requested }
  else if requested &&& ~~~ st.pledge ≠ 0 then st
  else { st with pledge := st.pledge &&& requested }

def anomalyApplyReplyTier (st : Sotbox) (target : ℤ) : Sotbox :=
  if target > st.tier then
    lucasSetTier { st with anomalyTriggers := st.anomalyTriggers + 1 } target
  else st

/-- How the callers of `anomaly_forward_sync` use its reply. -/
def applyReply (st : Sotbox) (target : ℤ) : Sotbox :=
  if target > 0 then anomalyApplyReplyTier st target else st

def anomalyOnWrite (st : Sotbox) (fd : ℕ) (target : ℤ) : Sotbox :=
  if fd = 1 ∨ fd = 2 then st
  else
    let st := { st with writeCount := st.writeCount + 1 }
    if st.trusted then st else applyReply st target

structure Peer where
  a : UInt8
  b : UInt8
  c : UInt8

def Peer.nonLocal (p : Peer) : Prop := p.a ≠ 127 ∧ ¬ (p.a = 10 ∧ p.b = 0 ∧ p.c = 2)

instance (p : Peer) : Decidable p.nonLocal := inferInstanceAs (Decidable (_ ∧ _))

def lucasRealWire (egressPolicy : Bool) (st : Sotbox) : Bool :=
  st.functor.isEgress || (st.cowSession ≠ 0 && egressPolicy)

/-- The promotion in `lucas_sys_connect`; a box on the real wire connects or is sinkholed, which
leaves its tier alone. -/
def connectPromote (egressPolicy : Bool) (st : Sotbox) (peer : Peer) : Sotbox :=
  if peer.nonLocal ∧ lucasRealWire egressPolicy st = false ∧ st.functor.isIsolated = false then
    lucasSetTier st 2
  else st

def sotboxForkQuota : UInt32 := 256

def forkAttempt (st : Sotbox) : Sotbox :=
  let st := { st with forkAttempts := st.forkAttempts + 1 }
  if st.forkAttempts > sotboxForkQuota then lucasSetTier st 2 else st

/-- A reaped child cancels one fork: at once in `lucas_sys_wait4`, or when an exit wakes the box. -/
def reapChild (st : Sotbox) : Sotbox :=
  if 0 < st.forkAttempts then { st with forkAttempts := st.forkAttempts - 1 } else st

inductive Act
  | other
  | pledge (requested : UInt64)
  | write (fd : ℕ) (target : ℤ)
  | reply (target : ℤ)
  | connect (egressPolicy : Bool) (peer : Peer)
  | fork
  | wait4 (reaped : Bool)

def Act.run (st : Sotbox) : Act → Sotbox
  | .other => st
  | .pledge requested => lucasSysPledge st requested
  | .write fd target => anomalyOnWrite st fd target
  | .reply target => applyReply st target
  | .connect egressPolicy peer => connectPromote egressPolicy st peer
  | .fork => forkAttempt st
  | .wait4 reaped => if reaped then reapChild st else st

inductive Trigger
  | call (sysno : ℕ) (args : List UInt64) (act : Act)
  | promote (target : ℤ)
  | wakeup

/-- `lucas_dispatch_call`, `orch_anomaly_apply_promote`, and a child's exit that ends a parked
`wait4`. -/
def tierStep (st : Sotbox) : Trigger → Sotbox × Unit
  | .call sysno args act =>
    (if violates st sysno args then onViolation st else act.run st, ())
  | .promote target => (applyReply st target, ())
  | .wakeup => (reapChild st, ())

def Act.Raises (st : Sotbox) : Act → Prop
  | .connect egressPolicy peer => peer.nonLocal → lucasRealWire egressPolicy st = false →
      st.functor.isIsolated = false → st.trusted = true ∨ st.tier ≤ 2
  | .fork => st.forkAttempts + 1 > sotboxForkQuota → st.trusted = true ∨ st.tier ≤ 2
  | _ => True

def Trigger.Raises (st : Sotbox) : Trigger → Prop
  | .call sysno args act =>
    if violates st sysno args then
      st.trusted = true ∨ st.tier ≤ 1 ∨ (st.tier = 2 ∧ st.pledgeViolations + 1 ≥ 3)
    else act.Raises st
  | .promote _ => True
  | .wakeup => True

theorem setTier_tier_le (st : Sotbox) {tier : ℤ} (ht : 0 < tier) :
    st.tier ≤ (lucasSetTier st tier).tier ↔ st.trusted = true ∨ st.tier ≤ tier := by
  unfold lucasSetTier
  split_ifs with h
  · simp [h.1]
  · have htrusted : ¬ st.trusted = true := fun hc => h ⟨hc, ht⟩
    simp [htrusted]

variable {st : Sotbox}

theorem onViolation_tier_le : st.tier ≤ (onViolation st).tier ↔
      st.trusted = true ∨ st.tier ≤ 1 ∨ (st.tier = 2 ∧ st.pledgeViolations + 1 ≥ 3) := by
  by_cases htrusted : st.trusted = true
  · have hkeep : (onViolation st).tier = st.tier := by
      simp [onViolation, lucasSetTier, htrusted]
    simp [hkeep, htrusted]
  · by_cases hcount : st.pledgeViolations + 1 ≥ 3
    · have htier : (onViolation st).tier = 2 := by
        simp [onViolation, lucasSetTier, htrusted, hcount]
      rw [htier]
      simp only [htrusted, hcount, and_true, false_or, Bool.false_eq_true]
      omega
    · have htier : (onViolation st).tier = 1 := by
        simp [onViolation, lucasSetTier, htrusted, hcount]
      simp [htier, htrusted, hcount]

theorem applyReply_tier_le (st : Sotbox) (target : ℤ) : st.tier ≤ (applyReply st target).tier := by
  unfold applyReply anomalyApplyReplyTier
  split_ifs with hpos hgt
  · exact (setTier_tier_le { st with anomalyTriggers := st.anomalyTriggers + 1 }
      hpos).mpr (Or.inr hgt.le)
  · exact le_rfl
  · exact le_rfl

theorem reapChild_tier (st : Sotbox) : (reapChild st).tier = st.tier := by
  unfold reapChild
  split_ifs <;> rfl

theorem run_tier_le {act : Act} : st.tier ≤ (act.run st).tier ↔ act.Raises st := by
  cases act with
  | other => exact iff_of_true le_rfl trivial
  | pledge requested =>
    have hkeep : (lucasSysPledge st requested).tier = st.tier := by
      unfold lucasSysPledge
      split_ifs <;> rfl
    exact iff_of_true hkeep.ge trivial
  | write fd target =>
    refine iff_of_true ?_ trivial
    simp only [Act.run, anomalyOnWrite]
    split_ifs
    · exact le_rfl
    · exact le_rfl
    · exact applyReply_tier_le { st with writeCount := st.writeCount + 1 } target
  | reply target => exact iff_of_true (applyReply_tier_le st target) trivial
  | connect egressPolicy peer =>
    simp only [Act.run, Act.Raises, connectPromote]
    split_ifs with h
    · rw [setTier_tier_le st (by decide)]
      exact ⟨fun hle _ _ _ => hle, fun hle => hle h.1 h.2.1 h.2.2⟩
    · exact iff_of_true le_rfl fun h1 h2 h3 => absurd ⟨h1, h2, h3⟩ h
  | fork =>
    simp only [Act.run, Act.Raises, forkAttempt]
    split_ifs with h
    · rw [setTier_tier_le { st with forkAttempts := st.forkAttempts + 1 } (by decide)]
      exact ⟨fun hle _ => hle, fun hle => hle h⟩
    · exact iff_of_true le_rfl fun hc => absurd hc h
  | wait4 reaped =>
    refine iff_of_true ?_ trivial
    cases reaped with
    | false => exact le_rfl
    | true => exact (reapChild_tier st).ge

theorem tierStep_tier_le (st : Sotbox) (t : Trigger) :
    st.tier ≤ (tierStep st t).1.tier ↔ t.Raises st := by
  cases t with
  | call sysno args act =>
    simp only [tierStep, Trigger.Raises]
    by_cases h : violates st sysno args
    · rw [if_pos h, if_pos h]
      exact onViolation_tier_le
    · rw [if_neg h, if_neg h]
      exact run_tier_le
  | promote target => exact iff_of_true (applyReply_tier_le st target) trivial
  | wakeup => exact iff_of_true (reapChild_tier st).ge trivial

/-- Along a run the tier never goes down exactly when no trigger meets a box above the tier it
sets. -/
theorem tier_never_down_iff (st : Sotbox) (ts : List Trigger) :
    (∀ e ∈ trace tierStep st ts, e.pre.tier ≤ (tierStep e.pre e.input).1.tier) ↔
      ∀ e ∈ trace tierStep st ts, e.input.Raises e.pre :=
  forall₂_congr fun e _ => tierStep_tier_le e.pre e.input

def pledgedBox : Sotbox := ⟨0, .f0, false, pledgeStdio ||| pledgeInet, 0, 0, 0, 0, 0⟩

def connectThenExec : List Trigger :=
  [.call lxSysConnect [] (.connect true ⟨8, 8, 8⟩), .call lxSysExecve [] .other]

theorem isolated_box_released : (exec tierStep pledgedBox (connectThenExec.take 1)).tier = 2 ∧
      ¬ ∀ e ∈ trace tierStep pledgedBox connectThenExec,
        e.pre.tier ≤ (tierStep e.pre e.input).1.tier := by
  decide +kernel

end SotOs.Lucas.Tier
