import SotOs.Lib.Machine

/-! The anomaly service: for each pid a weighted suspicion score and the rules that go to Tier 2 at
once. -/

namespace SotOs.Anomaly

open Function

def anomalyT1Threshold : UInt32 := 20
def anomalyT2Threshold : UInt32 := 40

inductive SyncKind
  | write
  | unlink
  | credAccess
  | exec
deriving DecidableEq, Repr

def SyncKind.weight : SyncKind → UInt32
  | .write => 1
  | .unlink => 2
  | .exec => 8
  | .credAccess => 15

def instantWeight : UInt32 := anomalyT2Threshold

structure Cell where
  score : UInt32
  appliedTier : ℕ
  writeCounts : UInt32
  promoted : Bool
  unlinkRun : UInt32
  eventsSinceUnlink : UInt32
  bytesOut : UInt32
deriving DecidableEq

def Cell.zero : Cell := ⟨0, 0, 0, false, 0, 0, 0⟩

def scoreTier (score : UInt32) : ℕ :=
  if score ≥ anomalyT2Threshold then 2 else if score ≥ anomalyT1Threshold then 1 else 0

def anomalyScoreFold (c : Cell) (weight : UInt32) : Cell × ℕ :=
  let score := c.score + weight
  let target := scoreTier score
  if target > c.appliedTier then ({ c with score := score, appliedTier := target }, target)
  else ({ c with score := score }, 0)

def anomalyFoldAsync (c : Cell) : Cell :=
  let (c, _) := anomalyScoreFold c instantWeight
  { c with eventsSinceUnlink := c.eventsSinceUnlink + 1 }

def burst (run since : UInt32) (kind : SyncKind) (mr2 : UInt64) : UInt32 × UInt32 × UInt32 :=
  match kind with
  | .unlink =>
    let run := (if since > 8 then 0 else run) + 1
    let step := if 2 * run > 12 then 12 else 2 * run
    let bonus := step - 2
    (run, 0, if mr2 &&& 1 ≠ 0 then bonus + 2 else bonus)
  | _ => (run, since + 1, 0)

def Cell.reset (c : Cell) : Cell :=
  { c with score := 0, appliedTier := 0, unlinkRun := 0, eventsSinceUnlink := 0, promoted := false }

def Cell.resets (c : Cell) (lucasCount : UInt32) : Prop :=
  lucasCount ≠ 0 ∧ lucasCount < c.writeCounts

instance (c : Cell) (n : UInt32) : Decidable (c.resets n) := inferInstanceAs (Decidable (_ ∧ _))

def anomalyHandleSync (c : Cell) (kind : SyncKind) (mr2 : UInt64) (lucasCount : UInt32) :
    Cell × ℕ :=
  let c := if c.resets lucasCount then c.reset else c
  let c := { c with
    writeCounts := if lucasCount ≠ 0 then lucasCount else c.writeCounts + 1 }
  let (run, since, bonus) := burst c.unlinkRun c.eventsSinceUnlink kind mr2
  anomalyScoreFold { c with unlinkRun := run, eventsSinceUnlink := since } (kind.weight + bonus)

structure Reply where
  decision : ℕ
  tier : ℕ
deriving DecidableEq, Repr

def firstOctet (ipBe : UInt32) : UInt8 := ipBe.toUInt8

def netDecision (dstIpBe len bytesOut : UInt32) : ℕ :=
  if firstOctet dstIpBe = 10 then 0
  else if len > 256 then 1
  else if bytesOut > 4096 then 1
  else 0

inductive Act
  | sync (kind : SyncKind) (mr2 : UInt64)
  | netPrecommit (dstIpBe len : UInt32)
  | curvature (ruleKind : UInt32)
  | dnsHit
  | msyscall
  | tcpOpen (remoteIpBe : UInt32)
deriving DecidableEq

def Act.instant : Act → Bool
  | .curvature ruleKind => decide (1 ≤ ruleKind ∧ ruleKind ≤ 2)
  | .dnsHit => true
  | .msyscall => true
  | .tcpOpen ip => decide (firstOctet ip ≠ 10)
  | _ => false

def fireOnce (c : Cell) (orchEp rule : Bool) : Cell × ℕ :=
  if rule ∧ c.promoted = false ∧ orchEp then (anomalyFoldAsync { c with promoted := true }, 2)
  else (c, 0)

def serve (orchEp : Bool) (c : Cell) (lucasCount : UInt32) : Act → Cell × Reply
  -- One round of the dispatch loop, for a pid that the arrays have.
  | .sync kind mr2 =>
    let (c, tier) := anomalyHandleSync c kind mr2 lucasCount
    (c, ⟨0, tier⟩)
  | .netPrecommit dst len =>
    let c := { c with bytesOut := c.bytesOut + len }
    let (c', tier) := fireOnce c orchEp (decide (firstOctet dst ≠ 10 ∧ c.bytesOut > 16384))
    (c', ⟨if tier = 2 then 2 else netDecision dst len c.bytesOut, tier⟩)
  | act =>
    let (c, tier) := fireOnce c orchEp act.instant
    (c, ⟨0, tier⟩)

def serveOther (pid : ℕ) (c : Cell) : Act → Cell × Reply
  -- The same for any other pid: only packets are looked at, and only for pid 0 are bytes counted.
  | .netPrecommit dst len =>
    let c := if pid = 0 then { c with bytesOut := c.bytesOut + len } else c
    (c, ⟨netDecision dst len (if pid = 0 then c.bytesOut else 0), 0⟩)
  | _ => (c, ⟨0, 0⟩)

def pidKnown (pid : ℕ) : Prop := 1 ≤ pid ∧ pid < 16

instance (pid : ℕ) : Decidable (pidKnown pid) := inferInstanceAs (Decidable (_ ∧ _))

structure World where
  cells : ℕ → Cell
  counts : ℕ → UInt32

def World.start : World := ⟨fun _ => Cell.zero, fun _ => 0⟩

inductive Input
  | takeover (pid : ℕ)
  | silentWrite (pid : ℕ)
  | report (pid : ℕ) (act : Act)
deriving DecidableEq

def World.stamp (w : World) (pid : ℕ) : Act → UInt32
  | .sync .write _ => w.counts pid + 1
  | _ => w.counts pid

def anomalyStep (orchEp : Bool) (w : World) : Input → World × Reply
  | .takeover pid => ({ w with counts := update w.counts pid 0 }, ⟨0, 0⟩)
  | .silentWrite pid =>
    ({ w with counts := update w.counts pid (w.counts pid + 1) }, ⟨0, 0⟩)
  | .report pid act =>
    let counts := update w.counts pid (w.stamp pid act)
    let (c, reply) := if pidKnown pid then serve orchEp (w.cells pid) (w.stamp pid act) act
      else serveOther pid (w.cells pid) act
    (⟨update w.cells pid c, counts⟩, reply)

end SotOs.Anomaly
