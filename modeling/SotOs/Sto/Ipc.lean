import SotOs.Sto.Registry

/-! The request loop of the STO server (`src/sto/ipc.c`): one message in, one reply out. -/

namespace SotOs.Sto

inductive Request where
  | begin
  | read (txId objId : UInt64)
  | stage (txId objId : UInt64)
  | commit (txId : UInt64)
  | rollback (txId : UInt64)
  | wrap (txId objId mode : UInt64)
  | invoke (wid payload : UInt64)
  | benchPing
  | unknown (label : UInt64)
deriving DecidableEq

structure Msg where
  badge : UInt64
  req : Request
deriving DecidableEq

inductive Reply where
  | txId (id : UInt64)
  | status (s : Status)
  | wrapped (id : UInt64)
  | none
deriving DecidableEq

variable (r : Registry) (badge txId : UInt64)

def handleBegin : Registry × Reply :=
  match registryBegin r badge with
  | (r, .none) => (r, .txId 0)
  | (r, some i) => (r, .txId (r.active i).txId)

def withTx (badge : UInt64) (k : Fin maxTx → Registry × Reply) :
    Registry × Reply :=
  match registryFind r txId badge with
  | .none => (r, .status .invalidTx)
  | some i => if (r.active i).phase ≠ .active then (r, .status .invalidState) else k i

def handleRead (objId : UInt64) : Registry × Reply :=
  withTx r txId badge fun i =>
    let (r, rc) := registryAddRead r i objId
    (r, .status rc)

def handleStage (objId : UInt64) : Registry × Reply :=
  withTx r txId badge fun i =>
    let (r, rc) := registryAddWrite r i objId
    (r, .status rc)

def handleCommit : Registry × Reply :=
  withTx r txId badge fun i =>
    if registryCanCommit r i then
      let (r, rc) := registryCommit r i
      (r, .status rc)
    else (registryAbort r i, .status .conflict)

def handleRollback : Registry × Reply :=
  match registryFind r txId badge with
  | .none => (r, .none)
  | some i => (if (r.active i).phase = .active then registryAbort r i else r, .none)

def capModeOfWord (w : UInt64) : Option CapMode :=
  if w = 0 then some .commitOnly else if w = 1 then some .activeOk else .none

def handleWrap (objId modeW : UInt64) : Registry × Reply :=
  withTx r txId badge fun i =>
    match capModeOfWord modeW with
    | .none => (r, .status .protocol)
    | some mode =>
      let (r, wid) := registryWrap r i objId mode
      if wid = 0 then (r, .status .quota) else (r, .wrapped wid)

def handleInvoke (wid : UInt64) : Registry × Reply :=
  match registryWrappedFind r wid with
  | .none => (r, .status .invalidTx)
  | some j =>
    if registryWrappedInvocable r (r.wrappedPool j) then (r, .status .ok)
    else (r, .status .invalidState)

def serve (m : Msg) : Registry × Reply :=
  match m.req with
  | .begin => handleBegin r m.badge
  | .read txId objId => handleRead r m.badge txId objId
  | .stage txId objId => handleStage r m.badge txId objId
  | .commit txId => handleCommit r m.badge txId
  | .rollback txId => handleRollback r m.badge txId
  | .wrap txId objId mode => handleWrap r m.badge txId objId mode
  | .invoke wid _ => handleInvoke r wid
  | .benchPing => (r, .status .ok)
  | .unknown _ => (r, .status .protocol)

end SotOs.Sto
