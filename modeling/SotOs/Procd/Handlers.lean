import SotOs.Procd.Table

/-! The request handlers of the process server. A handler returns the table after the request, the
events it published in order, and its reply. -/

namespace SotOs.Procd

inductive EventKind
  | procBorn
  | procExited
  | procReaped
  | threadBorn
  | threadExited
  | sigchld
  | execOk
  | tierChanged
  | functorRebound
  | synthFork
  | deniedTier3
  | tableFull
  | badgeReject
  | cloneFlagEnosys
deriving DecidableEq, Repr

structure Event where
  kind : EventKind
  slot : UInt32
  extra : UInt32
deriving DecidableEq

structure Reply where
  result : Int32
  outSlot : UInt32
  outExtra : UInt64
deriving DecidableEq

def Reply.error (result : Int32) : Reply := ⟨result, 0, 0⟩

abbrev Outcome := Server × List Event × Reply

def eperm : Int32 := -1
def esrch : Int32 := -3
def echild : Int32 := -10
def eagain : Int32 := -11
def einval : Int32 := -22
def enosys : Int32 := -38

/-- `strncpy` into the sixteen bytes of a name, the last of them zero. -/
def commOf (c : List UInt8) : List UInt8 := (c.takeWhile (· ≠ 0)).take 15

def functorOr (tier : UInt32) (old : FunctorBinding) : FunctorBinding :=
  -- The functors of a tier, or those in place where the tier has none.
  (defaultFunctorForTier tier).getD old

variable (s : Server) (caller targetPid : UInt32)

def tableFull : Outcome :=
  (s, [⟨.tableFull, caller, 0⟩], .error eagain)

def procdHandleSpawn (initialTier : UInt32) (initialPledge : UInt64)
    (comm : List UInt8) : Outcome :=
  match procdSlotAlloc s with
  | none => tableFull s caller
  | some (s, i) =>
    let p := s.procs i
    let p := { p with
      ppid := caller
      pgid := p.syntheticPid
      sid := p.syntheticPid
      state := .nascent
      tier := initialTier
      exitCode := 0
      functor := functorOr initialTier p.functor
      pledgeMask := initialPledge
      comm := commOf comm
      cowSession := 0 }
    (s.setProc i p, [⟨.procBorn, slotNumber i, p.syntheticPid⟩],
      ⟨(slotNumber i).toInt32, slotNumber i, p.syntheticPid.toUInt64⟩)

def inherit (parent child : Proc) : Proc :=
  { child with
    ppid := parent.syntheticPid
    pgid := parent.pgid
    sid := parent.sid
    state := .nascent
    tier := parent.tier
    functor := parent.functor
    pledgeMask := parent.pledgeMask
    exitCode := 0
    comm := commOf parent.comm
    cowSession := parent.cowSession }

def doForkReal (parent : Slot) (caller : UInt32) : Outcome :=
  match procdSlotAlloc s with
  | none => tableFull s caller
  | some (s, i) =>
    let child := inherit (s.procs parent) (s.procs i)
    (s.setProc i child, [⟨.procBorn, slotNumber i, child.syntheticPid⟩],
      ⟨(slotNumber i).toInt32, slotNumber i, child.syntheticPid.toUInt64⟩)

def doForkSynth (parent : Slot) (caller : UInt32) : Outcome :=
  match procdSlotAlloc s with
  | none => tableFull s caller
  | some (s, i) =>
    let child := { inherit (s.procs parent) (s.procs i) with
      tier := procTier2
      functor := ⟨ffsIsolated, fnetSynth, fprocSynthFork⟩ }
    (s.setProc i child, [⟨.synthFork, slotNumber i, (s.procs parent).syntheticPid⟩],
      ⟨child.syntheticPid.toInt32, slotNumber i, child.syntheticPid.toUInt64⟩)

def procdHandleFork : Outcome :=
  match procdTableGet caller with
  | none => (s, [], .error esrch)
  | some parent =>
    let tier := (s.procs parent).tier
    if tier = procTier0 ∨ tier = procTier1 then doForkReal s parent caller
    else if tier = procTier2 then doForkSynth s parent caller
    else if tier = procTier3 then (s, [⟨.deniedTier3, caller, 2⟩], .error eperm)
    else (s, [], .error einval)

def ProcState.stale (st : ProcState) : Prop := st = .free ∨ st = .dead

instance (st : ProcState) : Decidable st.stale := inferInstanceAs (Decidable (_ ∨ _))

def callerSlot : Option Slot :=
  (procdTableGet caller).filter fun i => decide ¬ (s.procs i).state.stale

def procdHandleExit (exitStatus : Int32) : Outcome :=
  match callerSlot s caller with
  | none => (s, [], .error esrch)
  | some i =>
    let p := { s.procs i with state := .zombie, exitCode := exitStatus }
    let target := if p.ppid ≠ 0 then p.ppid else 1
    (s.setProc i p, [⟨.procExited, p.slot, exitStatus.toUInt32⟩, ⟨.sigchld, target, p.slot⟩],
      ⟨0, 0, 0⟩)

/-- The process asked for (`which`) is not looked at: the first zombie child is reaped. -/
def procdHandleWait (options : Int32) : Outcome :=
  match procdTableGet caller with
  | none => (s, [], .error esrch)
  | some c =>
    match procdTableFirstZombieChild s (s.procs c).syntheticPid with
    | none => if options &&& 1 ≠ 0 then (s, [], ⟨0, 0, 0⟩) else (s, [], .error echild)
    | some i =>
      let zombie := s.procs i
      (s.setProc i { zombie with state := .dead },
        [⟨.procReaped, zombie.slot, zombie.exitCode.toUInt32⟩],
        ⟨zombie.syntheticPid.toInt32, zombie.slot, zombie.exitCode.toUInt32.toUInt64⟩)

def procdHandleExec : Outcome :=
  match callerSlot s caller with
  | none => (s, [], .error esrch)
  | some i =>
    let p := { s.procs i with state := .running }
    (s.setProc i p, [⟨.execOk, p.slot, 0⟩], ⟨0, p.slot, p.syntheticPid.toUInt64⟩)

def lxCloneVm : UInt64 := 0x00000100
def lxCloneFs : UInt64 := 0x00000200
def lxCloneFiles : UInt64 := 0x00000400
def lxCloneSighand : UInt64 := 0x00000800
def lxClonePtrace : UInt64 := 0x00002000
def lxCloneVfork : UInt64 := 0x00004000
def lxCloneParent : UInt64 := 0x00008000
def lxCloneThread : UInt64 := 0x00010000
def lxCloneNewns : UInt64 := 0x00020000
def lxCloneNewcgroup : UInt64 := 0x02000000
def lxCloneNewuts : UInt64 := 0x04000000
def lxCloneNewipc : UInt64 := 0x08000000
def lxCloneNewuser : UInt64 := 0x10000000
def lxCloneNewpid : UInt64 := 0x20000000
def lxCloneNewnet : UInt64 := 0x40000000

def cloneUnsupported : UInt64 :=
  lxCloneNewns ||| lxCloneNewpid ||| lxCloneNewuser ||| lxCloneNewnet ||| lxCloneNewipc |||
    lxCloneNewuts ||| lxCloneNewcgroup ||| lxClonePtrace

def procdCloneThread (tls childTidPtr : UInt64) : Outcome :=
  match callerSlot s caller with
  | none => (s, [], .error esrch)
  | some owner =>
    match procdThreadAlloc s with
    | none => tableFull s caller
    | some (s, ti) =>
      let t := { s.threads ti with
        ownerSlot := caller, tlsBase := tls, clearTidPtr := childTidPtr, robustListHead := 0 }
      let p := s.procs owner
      ((s.setThread ti t).setProc owner { p with nThreads := p.nThreads + 1 },
        [⟨.threadBorn, caller, t.tid⟩], ⟨t.tid.toInt32, caller, UInt64.ofNat ti.val⟩)

def procdCloneForkLike (flags : UInt64) : Outcome :=
  match callerSlot s caller with
  | none => (s, [], .error esrch)
  | some parent =>
    match procdSlotAlloc s with
    | none => tableFull s caller
    | some (s, i) =>
      let p := s.procs parent
      let child := { inherit p (s.procs i) with
        ppid := if flags &&& lxCloneParent ≠ 0 then p.ppid else p.syntheticPid
        shareFlags := (flags &&& (lxCloneFs ||| lxCloneFiles ||| lxCloneSighand)).toUInt32 }
      let born : Event := ⟨.procBorn, slotNumber i, child.syntheticPid⟩
      let marker : Event := ⟨.procBorn, slotNumber i, 0xFF000000 ||| child.syntheticPid⟩
      (s.setProc i child, if flags &&& lxCloneVfork ≠ 0 then [born, marker] else [born],
        ⟨(slotNumber i).toInt32, slotNumber i, child.syntheticPid.toUInt64⟩)

def procdHandleClone (flags tls childTidPtr : UInt64) : Outcome :=
  if flags &&& cloneUnsupported ≠ 0 then
    (s, [⟨.cloneFlagEnosys, caller, (flags &&& cloneUnsupported).toUInt32⟩], .error enosys)
  else if flags &&& lxCloneThread ≠ 0 then
    if flags &&& lxCloneVm = 0 ∨ flags &&& lxCloneSighand = 0 then (s, [], .error einval)
    else procdCloneThread s caller tls childTidPtr
  else procdCloneForkLike s caller flags

def liveCaller : Option Slot :=
  (procdTableGet caller).filter fun i => decide ((s.procs i).state ≠ .free)

def procdHandleSetsid : Outcome :=
  match liveCaller s caller with
  | none => (s, [], .error esrch)
  | some i =>
    let p := s.procs i
    if p.pgid = p.syntheticPid ∧ p.sid = p.syntheticPid then (s, [], .error eperm)
    else
      (s.setProc i { p with sid := p.syntheticPid, pgid := p.syntheticPid }, [],
        ⟨p.syntheticPid.toInt32, p.slot, p.syntheticPid.toUInt64⟩)

def pidTarget (c : Slot) (targetPid : UInt32) : Option Slot :=
  -- The process a pid argument means: zero and the caller's own pid mean the caller.
  if targetPid ≠ 0 ∧ targetPid ≠ (s.procs c).syntheticPid then
    procdTableLookupBySyntheticPid s targetPid
  else some c

def procdHandleSetpgid (newPgid : UInt32) : Outcome :=
  match liveCaller s caller with
  | none => (s, [], .error esrch)
  | some c =>
    match pidTarget s c targetPid with
    | none => (s, [], .error esrch)
    | some i =>
      let p := s.procs i
      (s.setProc i { p with pgid := if newPgid = 0 then p.syntheticPid else newPgid }, [],
        ⟨0, p.slot, 0⟩)

def procdHandleGetpgid : Outcome :=
  match liveCaller s caller with
  | none => (s, [], .error esrch)
  | some c =>
    match pidTarget s c targetPid with
    | none => (s, [], .error esrch)
    | some i => (s, [], ⟨(s.procs i).pgid.toInt32, (s.procs i).slot, 0⟩)

def procdHandleThreadExit (tid : UInt32) : Outcome :=
  match procdThreadByTid s tid with
  | none => (s, [], .error esrch)
  | some ti =>
    let ownerSlot := (s.threads ti).ownerSlot
    let s' := match procdTableGet ownerSlot with
      | none => s
      | some o =>
        let p := s.procs o
        s.setProc o { p with nThreads := if p.nThreads > 0 then p.nThreads - 1 else p.nThreads }
    (s'.setThread ti Thread.blank, [⟨.threadExited, ownerSlot, tid⟩],
      ⟨0, ownerSlot, UInt64.ofNat ti.val⟩)

def badgeAnomalyOpSetTier : UInt64 := 0xA009

def rebound (p : Proc) : Event :=
  ⟨.functorRebound, p.slot,
    (p.functor.fs.toUInt32 <<< 16) ||| (p.functor.net.toUInt32 <<< 8) |||
      p.functor.proc.toUInt32⟩

def procdHandleSetTier (badge : UInt64) (caller newTier : UInt32) : Outcome :=
  if badge ≠ badgeAnomalyOpSetTier then (s, [⟨.badgeReject, caller, 0x40⟩], .error eperm)
  else
    match liveCaller s caller with
    | none => (s, [], .error esrch)
    | some i =>
      match defaultFunctorForTier newTier with
      | none => (s, [], .error einval)
      | some functor =>
        let old := (s.procs i).tier
        let p := { s.procs i with tier := newTier, functor := functor }
        (s.setProc i p, [⟨.tierChanged, p.slot, (old <<< 16) ||| newTier⟩, rebound p],
          ⟨0, p.slot, 0⟩)

def procdHandleRebindFunctor (badge : UInt64) (caller fs net proc : UInt32) :
    Outcome :=
  if badge ≠ badgeAnomalyOpSetTier then (s, [⟨.badgeReject, caller, 0x41⟩], .error eperm)
  else
    match liveCaller s caller with
    | none => (s, [], .error esrch)
    | some i =>
      let p := { s.procs i with functor := ⟨fs.toUInt16, net.toUInt16, proc.toUInt16⟩ }
      (s.setProc i p, [rebound p], ⟨0, p.slot, 0⟩)

def procdHandleSetSession (target cowSession : UInt32)
    (comm : Option (List UInt8)) : Outcome :=
  match liveCaller s target with
  | none => (s, [], .error esrch)
  | some i =>
    let p := s.procs i
    let p := { p with cowSession := cowSession, comm := (comm.map commOf).getD p.comm }
    (s.setProc i p, [], ⟨0, p.slot, 0⟩)

def procdHandleSetRobust (tid : UInt32) (head : UInt64) : Outcome :=
  let found :=
    if tid = 0 then
      Slots.first fun i : ThreadSlot => decide (i ≠ 0 ∧ (s.threads i).ownerSlot = caller)
    else procdThreadByTid s tid
  match found with
  | none => if tid = 0 then (s, [], ⟨0, caller, 0⟩) else (s, [], .error esrch)
  | some ti =>
    let t := s.threads ti
    (s.setThread ti { t with robustListHead := head }, [], ⟨0, caller, t.tid.toUInt64⟩)

inductive Request
  | spawn (caller initialTier : UInt32) (initialPledge : UInt64) (comm : List UInt8)
  | fork (caller : UInt32)
  | exit (caller : UInt32) (exitStatus : Int32)
  | wait (caller : UInt32) (which options : Int32)
  | exec (caller : UInt32)
  | clone (caller : UInt32) (flags tls childTidPtr : UInt64)
  | threadExit (caller tid : UInt32)
  | setRobust (caller tid : UInt32) (head : UInt64)
  | setsid (caller : UInt32)
  | setpgid (caller targetPid newPgid : UInt32)
  | getpgid (caller targetPid : UInt32)
  | setTier (badge : UInt64) (caller newTier : UInt32)
  | rebindFunctor (badge : UInt64) (caller fs net proc : UInt32)
  | setSession (target cowSession : UInt32) (comm : Option (List UInt8))
  | unknown (caller op : UInt32)

def dispatch : Request → Outcome
  | .spawn caller tier pledge comm => procdHandleSpawn s caller tier pledge comm
  | .fork caller => procdHandleFork s caller
  | .exit caller status => procdHandleExit s caller status
  | .wait caller _ options => procdHandleWait s caller options
  | .exec caller => procdHandleExec s caller
  | .clone caller flags tls ptr => procdHandleClone s caller flags tls ptr
  | .threadExit _ tid => procdHandleThreadExit s tid
  | .setRobust caller tid head => procdHandleSetRobust s caller tid head
  | .setsid caller => procdHandleSetsid s caller
  | .setpgid caller target new => procdHandleSetpgid s caller target new
  | .getpgid caller target => procdHandleGetpgid s caller target
  | .setTier badge caller tier => procdHandleSetTier s badge caller tier
  | .rebindFunctor badge caller fs net proc => procdHandleRebindFunctor s badge caller fs net proc
  | .setSession target session comm => procdHandleSetSession s target session comm
  | .unknown _ _ => (s, [], .error enosys)

end SotOs.Procd
