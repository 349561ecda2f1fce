import SotOs.Lib.Machine
import SotOs.Lib.Slots

/-! The slots of the sotboxes and the table of their zombies: forks, the ways a sotbox can end, and
`wait4` with the waiters that an exit wakes. -/

namespace SotOs.Orch.Wait

open Function Slots

abbrev Slot := Fin 8

scoped instance slotNeZero : NeZero 8 := ⟨by decide⟩

abbrev Grave := Fin 32

structure Box where
  parentSlot : Option Slot
  /-- The pid a sotbox parked in `wait4` waits for. -/
  waitingFor : Option ℤ
  serial : ℕ
  /-- The serial number of the sotbox that forked it. -/
  parent : Option ℕ

structure Zombie where
  pid : ℤ
  exitCode : UInt32
  parentPid : ℤ
  seq : ℕ
  serial : ℕ
  parent : Option ℕ
  /-- The exit it stands for had already woken a waiter or left a zombie. -/
  extra : Bool

structure Table where
  slots : Slot → Option Box
  zombies : Grave → Option Zombie
  zombieSeq : ℕ
  nextSerial : ℕ

def Table.start : Table := ⟨fun _ => none, fun _ => none, 0, 0⟩

inductive Answer
  | zero
  | echild
  | eagain
  | efault
  | parked
deriving DecidableEq, Repr

inductive Event
  | born (serial : ℕ) (parent : Option ℕ) (pid : ℤ)
  | ended (serial : ℕ) (exitCode : UInt32)
  | handed (waiter child : ℕ) (pid : ℤ) (wstatus : UInt32)
  | answered (waiter : ℕ) (answer : Answer)
deriving DecidableEq, Repr

variable (t : Table) (i : Slot) (b : Box) (pid : ℤ) (exitCode : UInt32)

def Box.ppid : ℤ := b.parentSlot.elim 0 toId

def wstatusOf : UInt32 := (exitCode &&& 0xff) <<< 8

def seqAt (k : Grave) : ℕ := (t.zombies k).elim 0 Zombie.seq

def oldest : Grave :=
  (List.finRange 32).foldl (fun o k => if seqAt t k < seqAt t o then k else o) 0

def recordPlace : Grave := (first fun k => (t.zombies k).isNone).getD (oldest t)

def sotboxRecordExitP (parentPid : ℤ)
    (extra : Bool) : Table :=
  { t with
    zombies := update t.zombies (recordPlace t)
      (some ⟨pid, exitCode, parentPid, t.zombieSeq + 1, b.serial, b.parent, extra⟩)
    zombieSeq := t.zombieSeq + 1 }

def sotboxClearZombie : Table :=
  { t with zombies := fun k => (t.zombies k).filter fun z => z.pid ≠ pid }

def Zombie.reapable (z : Zombie) (pidWant callerPid : ℤ) : Bool :=
  -- A parent pid of 0 is that of an unknown parent, and anyone may reap.
  decide ((pidWant = -1 ∨ z.pid = pidWant) ∧
    (callerPid = 0 ∨ z.parentPid = 0 ∨ z.parentPid = callerPid))

def sotboxReapP (pidWant callerPid : ℤ) : Option Grave :=
  first fun k => (t.zombies k).any fun z => z.reapable pidWant callerPid

def sotboxHasChildren (caller : Slot) : Prop :=
  (∃ k, (t.zombies k).isSome) ∨ ∃ i, i ≠ caller ∧ (t.slots i).isSome

instance (t : Table) (caller : Slot) : Decidable (sotboxHasChildren t caller) :=
  inferInstanceAs (Decidable (_ ∨ _))

def waiterFor (exitedPid parentPid : ℤ) : Option Slot :=
  -- Who waits for this very pid, else who waits for any child and has the parent's pid.
  (first fun i => (t.slots i).any fun b => b.waitingFor = some exitedPid).or
    (first fun i => (t.slots i).any fun b =>
      b.waitingFor = some (-1) ∧ (parentPid = 0 ∨ toId i = parentPid))

def Table.resume (waiter : Option Slot) : Table :=
  match waiter with
  | none => t
  | some i => { t with
      slots := update t.slots i ((t.slots i).map fun b => { b with waitingFor := none }) }

def told (waiter : Option Slot) (b : Box) (pid : ℤ) (exitCode : UInt32) : List Event :=
  ((waiter.bind t.slots).map fun w => Event.handed w.serial b.serial pid (wstatusOf exitCode)).toList

def sotboxFreeSlot : Table := { t with slots := update t.slots i none }

def sotboxAllocSlot : Option Slot := first fun i => (t.slots i).isNone

inductive Input
  | spawn
  /-- `ok` tells whether the child could be built after its slot was taken. -/
  | fork (parent : Slot) (ok : Bool)
  | exitGroup (i : Slot) (code : UInt32)
  /-- A fault that ends the sotbox. -/
  | fatal (i : Slot) (code : UInt32)
  | kill (caller target : Slot) (signo : UInt32)
  /-- Taken down by the operator, or with the owner of its text. -/
  | teardown (i : Slot) (code : UInt32)
  /-- Taken down without a record: the children of a fork bomb, and the shell of a lost session. -/
  | drop (i : Slot)
  /-- `synth`: procd has the pid as a synthetic child; `copyOk`, `cspaceOk`: what can be written,
  saved. -/
  | wait4 (i : Slot) (pid : ℤ) (nohang synth copyOk cspaceOk : Bool)
deriving DecidableEq

def place (parentSlot : Option Slot) (parent : Option ℕ) :
    Table × List Event :=
  ({ t with slots := update t.slots i (some ⟨parentSlot, none, t.nextSerial, parent⟩)
            nextSerial := t.nextSerial + 1 },
    [.born t.nextSerial parent (toId i)])

def sotboxSpawn : Table × List Event :=
  match sotboxAllocSlot t with
  | none => (t, [])
  | some i => place t i none none

def sotboxFork (p : Slot) (parent : Box) (ok : Bool) : Table × List Event :=
  match sotboxAllocSlot t with
  | none => (t, [])
  | some i =>
    let t := sotboxClearZombie t (toId i)
    if ok then place t i (some p) (some parent.serial) else (t, [])

/-- `lucas_sys_exit_group` wakes a waiter, and then the fault loop records the zombie. -/
def exitGroup (code : UInt32) : Table × List Event :=
  let pid := toId i
  let waiter := waiterFor t pid b.ppid
  let t' := sotboxRecordExitP (t.resume waiter) b pid code b.ppid waiter.isSome
  (sotboxFreeSlot t' i, .ended b.serial code :: told t waiter b pid code)

/-- Every fault that ends a sotbox sets `exited`, so that the fault loop wakes nobody. -/
def fatalExit (code : UInt32) : Table × List Event :=
  (sotboxFreeSlot (sotboxRecordExitP t b (toId i) code b.ppid false) i, [.ended b.serial code])

def isTerminating (signo : UInt32) : Bool := signo = 9 ∨ signo = 15 ∨ signo = 2

def lucasSysKill (caller i : Slot) (b : Box) (signo : UInt32) : Table × List Event :=
  -- The zombie is recorded and the waiter woken; a sotbox that kills itself is then recorded by the
  -- fault loop once more.
  if isTerminating signo then
    let pid := toId i
    let code := 128 + signo
    let waiter := waiterFor t pid b.ppid
    let t' := (sotboxRecordExitP t b pid code b.ppid waiter.isSome).resume waiter
    let t' := if caller = i then sotboxRecordExitP t' b pid code b.ppid true else t'
    (sotboxFreeSlot t' i, .ended b.serial code :: told t waiter b pid code)
  else (t, [])

def teardown (code : UInt32) : Table × List Event :=
  (sotboxFreeSlot (sotboxRecordExitP t b (toId i) code 0 false) i, [.ended b.serial code])

def synthWait (synth : Bool) : Prop :=
  0 < pid ∧ synth ∧ ¬ (ofId 8 pid).any fun i => (t.slots i).isSome

instance (t : Table) (pid : ℤ) (synth : Bool) : Decidable (synthWait t pid synth) :=
  inferInstanceAs (Decidable (_ ∧ _ ∧ _))

def foundZombie : Option (Grave × Zombie) :=
  (sotboxReapP t pid (toId i)).bind fun k => (t.zombies k).map fun z => (k, z)

def waitForExit (nohang cspaceOk : Bool) :
    Table × Answer :=
  if ¬ sotboxHasChildren t i then (t, .echild)
  else if nohang then (t, .zero)
  else if ¬ cspaceOk then (t, .eagain)
  else ({ t with slots := update t.slots i (some { b with waitingFor := some pid }) }, .parked)

def lucasSysWait4 (nohang synth copyOk cspaceOk : Bool) :
    Table × List Event :=
  if synthWait t pid synth then (t, [.answered b.serial .zero])
  else
    match foundZombie t i pid with
    | some (k, z) =>
      ({ t with zombies := update t.zombies k none },
        [if copyOk then .handed b.serial z.serial z.pid (wstatusOf z.exitCode)
          else .answered b.serial .efault])
    | none =>
      let (t', answer) := waitForExit t i b pid nohang cspaceOk
      (t', [.answered b.serial answer])

def onBox (f : Box → Table × List Event) : Table × List Event :=
  match t.slots i with
  | none => (t, [])
  | some b => f b

def step : Input → Table × List Event
  | .spawn => sotboxSpawn t
  | .fork p ok => onBox t p fun b => sotboxFork t p b ok
  | .exitGroup i code => onBox t i fun b => exitGroup t i b code
  | .fatal i code => onBox t i fun b => fatalExit t i b code
  | .kill caller i signo => onBox t i fun b => lucasSysKill t caller i b signo
  | .teardown i code => onBox t i fun b => teardown t i b code
  | .drop i => onBox t i fun b => (sotboxFreeSlot t i, [.ended b.serial 0])
  | .wait4 i pid nohang synth copyOk cspaceOk =>
    onBox t i fun b => lucasSysWait4 t i b pid nohang synth copyOk cspaceOk

end SotOs.Orch.Wait
