import SotOs.Procd.Handlers

/-! What one request can do to the process table, said once: it leaves the identity and the state of
every process alone, or it creates one process, or it ends, reaps or starts one. -/

namespace SotOs.Procd
open Option

structure Aside (p q : Proc) : Prop where
  slot : q.slot = p.slot
  pid : q.syntheticPid = p.syntheticPid
  ppid : q.ppid = p.ppid
  state : q.state = p.state
  exitCode : q.exitCode = p.exitCode

theorem Aside.refl (p : Proc) : Aside p p := ⟨rfl, rfl, rfl, rfl, rfl⟩

def handedOut : Request → Reply → Option (UInt32 × UInt32)
  | .wait _ _ _, r => if 0 < r.result then some (r.outSlot, r.outExtra.toUInt32) else none
  | _, _ => none

def forkCaller : Request → Option UInt32
  | .fork caller => some caller
  | .clone caller _ _ _ => some caller
  | _ => none

def exitsIn (evs : List Event) : List (UInt32 × UInt32) :=
  (evs.filter fun e => e.kind = .procExited).map fun e => (e.slot, e.extra)

structure Newborn (s : Server) (i : Slot) (child : Proc) : Prop where
  slot : child.slot = slotNumber i
  pid : child.syntheticPid = s.nextPid
  state : child.state = .nascent

inductive Born (s : Server) (i : Slot) (child : Proc) : Request → Prop
  | spawned {caller tier pledge comm} (ppid : child.ppid = caller) :
    Born s i child (.spawn caller tier pledge comm)
  | forked {caller c} (get : procdTableGet caller = some c) (tier : (s.procs c).tier ≤ procTier2)
    (ppid : c ≠ i → child.ppid = (s.procs c).syntheticPid) : Born s i child (.fork caller)
  | cloned {caller flags tls ptr c} (call : callerSlot s caller = some c)
    (supported : flags &&& cloneUnsupported = 0) (forkLike : flags &&& lxCloneThread = 0)
    (ppid : child.ppid =
      if flags &&& lxCloneParent ≠ 0 then (s.procs c).ppid else (s.procs c).syntheticPid) :
    Born s i child (.clone caller flags tls ptr)

inductive Effect (s : Server) : Request → Outcome → Prop
  | aside {req s' evs r} (procs : ∀ j, Aside (s.procs j) (s'.procs j))
    (nextPid : s'.nextPid = s.nextPid) (quiet : exitsIn evs = [])
    (kept : handedOut req r = none) : Effect s req (s', evs, r)
  | created {req s' evs r i child} (free : freeSlot s = some i) (newborn : Newborn s i child)
    (born : Born s i child req) (procs : s'.procs = Function.update s.procs i child)
    (nextPid : s'.nextPid = s.nextPid + 1) (quiet : exitsIn evs = [])
    (kept : handedOut req r = none) : Effect s req (s', evs, r)
  | exited {caller status i evs r} (call : callerSlot s caller = some i)
    (tells : exitsIn evs = [((s.procs i).slot, status.toUInt32)]) :
    Effect s (.exit caller status)
      (s.setProc i { s.procs i with state := .zombie, exitCode := status }, evs, r)
  | execed {caller i evs r} (call : callerSlot s caller = some i) (quiet : exitsIn evs = []) :
    Effect s (.exec caller) (s.setProc i { s.procs i with state := .running }, evs, r)
  | reaped {caller which options i evs r} (nonzero : i ≠ 0) (zombie : (s.procs i).state = .zombie)
    (quiet : exitsIn evs = []) (result : r.result = (s.procs i).syntheticPid.toInt32)
    (outSlot : r.outSlot = (s.procs i).slot)
    (code : r.outExtra.toUInt32 = (s.procs i).exitCode.toUInt32) :
    Effect s (.wait caller which options)
      (s.setProc i { s.procs i with state := .dead }, evs, r)

theorem aside_same (s : Server) (j : Slot) : Aside (s.procs j) (s.procs j) := Aside.refl _

variable {i : Slot} {s s' : Server} {req : Request} {evs : List Event} {r : Reply}

theorem aside_setProc (s : Server) {p : Proc} (h : Aside (s.procs i) p) (j : Slot) :
    Aside (s.procs j) ((s.setProc i p).procs j) := by
  by_cases hj : j = i
  · subst hj
    rwa [setProc_self]
  · rw [setProc_ne hj]
    exact Aside.refl _

theorem Effect.same (hq : exitsIn evs = []) (hk : handedOut req r = none) :
    Effect s req (s, evs, r) :=
  .aside (aside_same s) rfl hq hk

theorem alloc_some (h : procdSlotAlloc s = some (s', i)) : freeSlot s = some i ∧
      s' = { s.setProc i { Proc.blank with
        slot := slotNumber i, syntheticPid := s.nextPid, state := .nascent } with
        nextPid := s.nextPid + 1 } := by
  obtain ⟨j, hj, he⟩ := map_eq_some_iff.mp h
  obtain ⟨rfl, rfl⟩ := Prod.mk.inj he
  exact ⟨hj, rfl⟩

theorem alloc_none (h : procdSlotAlloc s = none) : freeSlot s = none := Option.map_eq_none_iff.mp h

theorem Effect.fill {child : Proc} (h : procdSlotAlloc s = some (s', i))
    (hslot : child.slot = (s'.procs i).slot) (hpid : child.syntheticPid = (s'.procs i).syntheticPid)
    (hstate : child.state = .nascent) (hborn : Born s i child req) (hq : exitsIn evs = [])
    (hk : handedOut req r = none) : Effect s req (s'.setProc i child, evs, r) := by
  obtain ⟨hfree, rfl⟩ := alloc_some h
  refine .created hfree ⟨?_, ?_, hstate⟩ hborn ?_ rfl hq hk
  · simpa [Server.setProc] using hslot
  · simpa [Server.setProc] using hpid
  · simp [Server.setProc]

theorem alloc_other {j : Slot} (h : procdSlotAlloc s = some (s', i)) (hj : j ≠ i) :
    s'.procs j = s.procs j := by
  obtain ⟨-, rfl⟩ := alloc_some h
  exact setProc_ne hj

variable {caller : UInt32}

theorem spawn_effect {tier : UInt32} {pledge : UInt64} {comm : List UInt8} :
    Effect s (.spawn caller tier pledge comm) (procdHandleSpawn s caller tier pledge comm) := by
  unfold procdHandleSpawn
  split
  · exact .same rfl rfl
  · next s' i h => exact .fill h rfl rfl rfl (.spawned rfl) rfl rfl

theorem fork_effect : Effect s (.fork caller) (procdHandleFork s caller) := by
  unfold procdHandleFork
  split
  · exact .same rfl rfl
  next c hget =>
    dsimp only
    split_ifs with h01 h2 h3
    · have htier : (s.procs c).tier ≤ procTier2 := by
        rcases h01 with h | h <;> rw [h] <;> decide
      unfold doForkReal
      split
      · exact .same rfl rfl
      next s' i h =>
      refine .fill h rfl rfl rfl (.forked hget htier fun hc => ?_) rfl rfl
      rw [← alloc_other h hc]
      rfl
    · unfold doForkSynth
      split
      · exact .same rfl rfl
      next s' i h =>
      refine .fill h rfl rfl rfl (.forked hget (by rw [h2]; decide) fun hc => ?_) rfl rfl
      rw [← alloc_other h hc]
      rfl
    · exact .same rfl rfl
    · exact .same rfl rfl

theorem callerSlot_some (h : callerSlot s caller = some i) :
    procdTableGet caller = some i ∧ (s.procs i).state ≠ .free ∧ (s.procs i).state ≠ .dead := by
  obtain ⟨hget, hst⟩ := filter_eq_some_iff.mp h
  have hst := of_decide_eq_true hst
  exact ⟨hget, fun hf => hst (Or.inl hf), fun hd => hst (Or.inr hd)⟩

theorem exit_effect {status : Int32} :
    Effect s (.exit caller status) (procdHandleExit s caller status) := by
  unfold procdHandleExit
  split
  · exact .same rfl rfl
  · next i h => exact .exited h rfl

theorem wait_effect {which options : Int32} :
    Effect s (.wait caller which options) (procdHandleWait s caller options) := by
  unfold procdHandleWait
  split
  · exact .same rfl rfl
  next c hget =>
    split
    · split_ifs <;> exact .same rfl rfl
    · next i h =>
      obtain ⟨hne, hz, -⟩ := firstZombieChild_some h
      exact .reaped hne hz rfl rfl rfl (by simp)

theorem exec_effect : Effect s (.exec caller) (procdHandleExec s caller) := by
  unfold procdHandleExec
  split
  · exact .same rfl rfl
  · next i h => exact .execed h rfl

theorem threadAlloc_some {ti : ThreadSlot} (h : procdThreadAlloc s = some (s', ti)) :
    s'.procs = s.procs ∧ s'.nextPid = s.nextPid := by
  obtain ⟨j, -, he⟩ := map_eq_some_iff.mp h
  obtain ⟨rfl, -⟩ := Prod.mk.inj he
  exact ⟨rfl, rfl⟩

variable {flags : UInt64}

theorem cloneThread_effect {tls ptr : UInt64} :
    Effect s (.clone caller flags tls ptr) (procdCloneThread s caller tls ptr) := by
  unfold procdCloneThread
  split
  · exact .same rfl rfl
  next c hcall =>
    split
    · exact .same rfl rfl
    next s' ti h =>
      obtain ⟨hprocs, hnext⟩ := threadAlloc_some h
      refine .aside (fun j => ?_) hnext rfl rfl
      rw [← congrFun hprocs j]
      refine aside_setProc (s'.setThread ti _) (i := c) ?_ j
      exact ⟨rfl, rfl, rfl, rfl, rfl⟩

theorem cloneForkLike_effect (s : Server) (caller : UInt32) {flags : UInt64}
    (hns : flags &&& cloneUnsupported = 0) (hflags : flags &&& lxCloneThread = 0)
    (tls ptr : UInt64) :
    Effect s (.clone caller flags tls ptr) (procdCloneForkLike s caller flags) := by
  unfold procdCloneForkLike
  split
  · exact .same rfl rfl
  next c hcall =>
    split
    · exact .same rfl rfl
    next s' i h =>
      -- the parent is not free, so it is not the slot given out
      have hne : c ≠ i := by
        rintro rfl
        exact (callerSlot_some hcall).2.1 (freeSlot_some (alloc_some h).1).2
      refine .fill h rfl rfl rfl (.cloned hcall hns hflags ?_) ?_ rfl
      · rw [← alloc_other h hne]
      · split_ifs <;> rfl

theorem clone_effect {tls ptr : UInt64} :
    Effect s (.clone caller flags tls ptr) (procdHandleClone s caller flags tls ptr) := by
  unfold procdHandleClone
  split_ifs with hns hthread
  · exact .same rfl rfl
  · exact .same rfl rfl
  · exact cloneThread_effect
  · exact cloneForkLike_effect s caller (not_not.mp hns) (not_not.mp hthread) tls ptr

variable {tid : UInt32}

theorem threadExit_effect :
    Effect s (.threadExit caller tid) (procdHandleThreadExit s tid) := by
  unfold procdHandleThreadExit
  split
  · exact .same rfl rfl
  next ti _ =>
    dsimp only
    split
    · exact .aside (aside_same s) rfl rfl rfl
    · next o _ => exact .aside (aside_setProc s ⟨rfl, rfl, rfl, rfl, rfl⟩) rfl rfl rfl

theorem setRobust_effect (s : Server) (caller tid : UInt32) (head : UInt64) :
    Effect s (.setRobust caller tid head) (procdHandleSetRobust s caller tid head) := by
  unfold procdHandleSetRobust
  dsimp only
  split
  · split_ifs <;> exact .same rfl rfl
  · exact .aside (aside_same s) rfl rfl rfl

theorem setsid_effect (s : Server) (caller : UInt32) :
    Effect s (.setsid caller) (procdHandleSetsid s caller) := by
  unfold procdHandleSetsid
  split
  · exact .same rfl rfl
  dsimp only
  split_ifs
  · exact .same rfl rfl
  · exact .aside (aside_setProc s ⟨rfl, rfl, rfl, rfl, rfl⟩) rfl rfl rfl

variable {target : UInt32}

theorem setpgid_effect {new : UInt32} :
    Effect s (.setpgid caller target new) (procdHandleSetpgid s caller target new) := by
  unfold procdHandleSetpgid
  split
  · exact .same rfl rfl
  · split
    · exact .same rfl rfl
    · exact .aside (aside_setProc s ⟨rfl, rfl, rfl, rfl, rfl⟩) rfl rfl rfl

theorem getpgid_effect (s : Server) (caller target : UInt32) :
    Effect s (.getpgid caller target) (procdHandleGetpgid s caller target) := by
  unfold procdHandleGetpgid
  split
  · exact .same rfl rfl
  · split <;> exact .same rfl rfl

variable {badge : UInt64}

theorem setTier_effect {tier : UInt32} :
    Effect s (.setTier badge caller tier) (procdHandleSetTier s badge caller tier) := by
  unfold procdHandleSetTier
  split_ifs
  · exact .same rfl rfl
  split
  · exact .same rfl rfl
  · split
    · exact .same rfl rfl
    · exact .aside (aside_setProc s ⟨rfl, rfl, rfl, rfl, rfl⟩) rfl rfl rfl

theorem rebindFunctor_effect (s : Server) (badge : UInt64) (caller fs net proc : UInt32) :
    Effect s (.rebindFunctor badge caller fs net proc)
      (procdHandleRebindFunctor s badge caller fs net proc) := by
  unfold procdHandleRebindFunctor
  split_ifs
  · exact .same rfl rfl
  · split
    · exact .same rfl rfl
    · exact .aside (aside_setProc s ⟨rfl, rfl, rfl, rfl, rfl⟩) rfl rfl rfl

theorem setSession_effect (s : Server) (target session : UInt32) (comm : Option (List UInt8)) :
    Effect s (.setSession target session comm) (procdHandleSetSession s target session comm) := by
  unfold procdHandleSetSession
  split
  · exact .same rfl rfl
  · exact .aside (aside_setProc s ⟨rfl, rfl, rfl, rfl, rfl⟩) rfl rfl rfl

theorem dispatch_effect (s : Server) (req : Request) : Effect s req (dispatch s req) := by
  cases req with
  | spawn caller tier pledge comm => exact spawn_effect
  | fork caller => exact fork_effect
  | exit caller status => exact exit_effect
  | wait caller which options => exact wait_effect
  | exec caller => exact exec_effect
  | clone caller flags tls ptr => exact clone_effect
  | threadExit caller tid => exact threadExit_effect
  | setRobust caller tid head => exact setRobust_effect s caller tid head
  | setsid caller => exact setsid_effect s caller
  | setpgid caller target new => exact setpgid_effect
  | getpgid caller target => exact getpgid_effect s caller target
  | setTier badge caller tier => exact setTier_effect
  | rebindFunctor badge caller fs net proc => exact rebindFunctor_effect s badge caller fs net proc
  | setSession target session comm => exact setSession_effect s target session comm
  | unknown caller op => exact .same rfl rfl

end SotOs.Procd
