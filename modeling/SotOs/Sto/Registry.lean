import SotOs.Lib.BoundedList
import SotOs.Lib.Slots

/-! The transaction registry of the STO server (`src/sto/registry.c`). -/

namespace SotOs.Sto

def maxTx : ℕ := 64
def maxObjPerTx : ℕ := 32
def maxCommitLog : ℕ := 128
def maxWrappedCaps : ℕ := 256
def maxWrappedPerTx : ℕ := 16

scoped instance : NeZero maxTx := ⟨by decide⟩
scoped instance : NeZero maxWrappedCaps := ⟨by decide⟩

inductive Status where
  | ok | aborted | conflict | invalidTx | invalidState | quota | protocol
deriving DecidableEq, Repr

inductive Phase where
  | free | active | committed | aborted
deriving DecidableEq, Repr

inductive CapMode where
  | commitOnly | activeOk
deriving DecidableEq, Repr

abbrev ObjSet := BoundedList maxObjPerTx UInt64

structure Transaction where
  txId : UInt64
  ownerBadge : UInt64
  phase : Phase
  readSet : ObjSet
  writeSet : ObjSet
  wrappedCaps : BoundedList maxWrappedPerTx UInt64
deriving DecidableEq

structure CommitEntry where
  txId : UInt64
  writeSet : ObjSet
deriving DecidableEq

structure WrappedCap where
  id : UInt64
  objId : UInt64
  txId : UInt64
  mode : CapMode
  revoked : Bool
deriving DecidableEq

structure Registry where
  active : Fin maxTx → Transaction
  activeCount : ℕ
  commitLog : BoundedList maxCommitLog CommitEntry
  nextTxId : UInt64
  wrappedPool : Fin maxWrappedCaps → WrappedCap
  nextWrappedId : UInt64

def objSetContains (s : ObjSet) (objId : UInt64) : Bool := s.toList.any (· == objId)

def objSetsIntersect (a b : ObjSet) : Bool := a.toList.any (objSetContains b)

def objSetAdd (s : ObjSet) (objId : UInt64) : ObjSet × Status :=
  if objSetContains s objId then (s, .ok)
  else if s.isFull then (s, .quota)
  else (s.push objId, .ok)

def Transaction.zero : Transaction := ⟨0, 0, .free, .empty, .empty, .empty⟩

def WrappedCap.zero : WrappedCap := ⟨0, 0, 0, .commitOnly, false⟩

def registryInit : Registry where
  active _ := .zero
  activeCount := 0
  commitLog := .empty
  nextTxId := 1
  wrappedPool _ := .zero
  nextWrappedId := 1

variable (r : Registry) (i : Fin maxTx) (objId : UInt64)

def Registry.setTx (tx : Transaction) : Registry :=
  { r with active := Function.update r.active i tx }

def freeSlot : Option (Fin maxTx) := Slots.first fun i => (r.active i).phase == .free

def registryBegin (ownerBadge : UInt64) : Registry × Option (Fin maxTx) :=
  match freeSlot r with
  | none => (r, none)
  | some i =>
    ({ r.setTx i { Transaction.zero with
          txId := r.nextTxId, ownerBadge := ownerBadge, phase := .active } with
        nextTxId := r.nextTxId + 1
        activeCount := if r.activeCount ≤ i then i + 1 else r.activeCount }, some i)

def registryFind (txId ownerBadge : UInt64) : Option (Fin maxTx) :=
  Slots.first fun i => decide (i.val < r.activeCount) && (r.active i).phase == .active
    && (r.active i).txId == txId && (r.active i).ownerBadge == ownerBadge

def registryAddRead : Registry × Status :=
  let (s, rc) := objSetAdd (r.active i).readSet objId
  (r.setTx i { r.active i with readSet := s }, rc)

def registryAddWrite : Registry × Status :=
  let (s, rc) := objSetAdd (r.active i).writeSet objId
  (r.setTx i { r.active i with writeSet := s }, rc)

def registryCanCommit : Bool :=
  r.commitLog.toList.all fun e => !objSetsIntersect (r.active i).readSet e.writeSet

def registryWrappedFind (id : UInt64) : Option (Fin maxWrappedCaps) :=
  if id = 0 then none
  else match Slots.first fun j => (r.wrappedPool j).id == id with
    | none => none
    | some j => if (r.wrappedPool j).revoked then none else some j

def freePoolSlot : Option (Fin maxWrappedCaps) :=
  Slots.first fun j => (r.wrappedPool j).id == 0

def registryWrap (mode : CapMode) :
    Registry × UInt64 :=
  if (r.active i).wrappedCaps.isFull then (r, 0)
  else match freePoolSlot r with
    | none => (r, 0)
    | some j =>
      let newId := r.nextWrappedId
      let cap : WrappedCap := ⟨newId, objId, (r.active i).txId, mode, false⟩
      ({ r.setTx i { r.active i with wrappedCaps := (r.active i).wrappedCaps.push newId } with
          wrappedPool := Function.update r.wrappedPool j cap
          nextWrappedId := newId + 1 }, newId)

def findTxById (txId : UInt64) : Option (Fin maxTx) :=
  Slots.first fun i => decide (i.val < r.activeCount) && (r.active i).txId == txId

def registryWrappedInvocable (wc : WrappedCap) : Bool :=
  if wc.revoked then false
  else match findTxById r wc.txId with
    | none => false
    | some i => match wc.mode with
      | .activeOk => (r.active i).phase == .active || (r.active i).phase == .committed
      | .commitOnly => (r.active i).phase == .committed

def sweepTarget (test : WrappedCap → Bool) (pool : Fin maxWrappedCaps → WrappedCap)
    (target : UInt64) : Fin maxWrappedCaps → WrappedCap := fun j =>
  if (pool j).id == target && test (pool j) then { pool j with revoked := true, id := 0 }
  else pool j

def sweepWrappedIf (test : WrappedCap → Bool) (r : Registry) (i : Fin maxTx) : Registry :=
  { r with wrappedPool := (r.active i).wrappedCaps.toList.foldl (sweepTarget test) r.wrappedPool }

def registrySweepWrapped : Registry :=
  sweepWrappedIf (fun _ => true) r i

def registrySweepWrappedByMode (mode : CapMode) : Registry :=
  sweepWrappedIf (fun wc => wc.mode == mode) r i

def countActive : ℕ :=
  (List.finRange maxTx).countP fun i => (r.active i).phase == .active

def highWater : ℕ := Slots.highWater fun i => (r.active i).phase != .free

def registryGc : Registry :=
  { r with
    activeCount := highWater r
    commitLog := if countActive r = 0 then .empty else r.commitLog }

def hasLiveCommitOnly : Bool :=
  (r.active i).wrappedCaps.toList.any fun id =>
    match registryWrappedFind r id with
    | none => false
    | some j => (r.wrappedPool j).mode == .commitOnly

def Registry.setPhase (p : Phase) : Registry :=
  r.setTx i { r.active i with phase := p }

def registryCommit : Registry × Status :=
  if r.commitLog.isFull then (r, .quota)
  else
    let entry : CommitEntry := ⟨(r.active i).txId, (r.active i).writeSet⟩
    let r := { r with commitLog := r.commitLog.push entry }
    let r := registrySweepWrappedByMode r i .activeOk
    let r := r.setPhase i (if hasLiveCommitOnly r i then .committed else .free)
    (registryGc r, .ok)

def registryAbort : Registry :=
  registryGc ((registrySweepWrapped r i).setPhase i .free)

end SotOs.Sto
