import SotOs.Lib.Slots

/-! The tables of the process server: 256 process slots and 1024 thread slots, with the first slot
of each reserved. -/

namespace SotOs.Procd

open Function Slots

def procdMaxProcs : ℕ := 256
def procdMaxThreads : ℕ := 1024

inductive ProcState
  | free
  | nascent
  | running
  | stopped
  | zombie
  | dead
deriving DecidableEq, Repr

def procTier0 : UInt32 := 0
def procTier1 : UInt32 := 1
def procTier2 : UInt32 := 2
def procTier3 : UInt32 := 3

def ffsIdentity : UInt16 := 0
def ffsWriteSilenced : UInt16 := 1
def ffsIsolated : UInt16 := 2
def ffsRevoked : UInt16 := 3

def fnetIdentity : UInt16 := 0
def fnetSynth : UInt16 := 1
def fnetRevoked : UInt16 := 2

def fprocIdentity : UInt16 := 0
def fprocSynthFork : UInt16 := 1
def fprocRevoked : UInt16 := 2

structure FunctorBinding where
  fs : UInt16
  net : UInt16
  proc : UInt16
deriving DecidableEq

def defaultFunctorForTier (tier : UInt32) : Option FunctorBinding :=
  if tier = procTier0 then some ⟨ffsIdentity, fnetIdentity, fprocIdentity⟩
  else if tier = procTier1 then some ⟨ffsWriteSilenced, fnetIdentity, fprocIdentity⟩
  else if tier = procTier2 then some ⟨ffsIsolated, fnetSynth, fprocSynthFork⟩
  else if tier = procTier3 then some ⟨ffsRevoked, fnetRevoked, fprocRevoked⟩
  else none

structure Proc where
  slot : UInt32
  syntheticPid : UInt32
  ppid : UInt32
  pgid : UInt32
  sid : UInt32
  state : ProcState
  tier : UInt32
  exitCode : Int32
  nThreads : UInt32
  functor : FunctorBinding
  pledgeMask : UInt64
  shareFlags : UInt32
  comm : List UInt8
  cowSession : UInt32
deriving DecidableEq

def Proc.blank : Proc where
  slot := 0
  syntheticPid := 0
  ppid := 0
  pgid := 0
  sid := 0
  state := .free
  tier := procTier0
  exitCode := 0
  nThreads := 0
  functor := ⟨ffsIdentity, fnetIdentity, fprocIdentity⟩
  pledgeMask := 0
  shareFlags := 0
  comm := []
  cowSession := 0

structure Thread where
  tid : UInt32
  ownerSlot : UInt32
  tlsBase : UInt64
  clearTidPtr : UInt64
  robustListHead : UInt64
  running : Bool
deriving DecidableEq

def Thread.blank : Thread := ⟨0, 0, 0, 0, 0, false⟩

abbrev Slot := Fin procdMaxProcs
abbrev ThreadSlot := Fin procdMaxThreads

scoped instance : NeZero procdMaxProcs := ⟨by decide⟩
scoped instance : NeZero procdMaxThreads := ⟨by decide⟩

structure Server where
  procs : Slot → Proc
  threads : ThreadSlot → Thread
  nextPid : UInt32
  nextTid : UInt32

def Server.setProc (s : Server) (i : Slot) (p : Proc) : Server :=
  { s with procs := update s.procs i p }

def Server.setThread (s : Server) (i : ThreadSlot) (t : Thread) : Server :=
  { s with threads := update s.threads i t }

variable {s : Server} {p : Proc} {i j : Slot}

@[simp] theorem setProc_self : (s.setProc i p).procs i = p := by
  simp [Server.setProc]

theorem setProc_ne (h : j ≠ i) : (s.setProc i p).procs j = s.procs j := by
  simp [Server.setProc, h]

@[simp] theorem setThread_procs {i : ThreadSlot} {t : Thread} :
    (s.setThread i t).procs = s.procs := rfl

def procdTableInit : Server where
  procs := update (fun _ => Proc.blank) 0 { Proc.blank with state := .dead }
  threads := fun _ => Thread.blank
  nextPid := 1
  nextTid := 1

def procdTableGet (slot : UInt32) : Option Slot :=
  if h : slot.toNat < procdMaxProcs then some ⟨slot.toNat, h⟩ else none

def slotNumber (i : Slot) : UInt32 := UInt32.ofNat i.val

theorem slotNumber_toNat : (slotNumber i).toNat = i.val := by
  have hi : i.val < 256 := i.isLt
  rw [slotNumber, UInt32.toNat_ofNat', Nat.mod_eq_of_lt (by omega)]

theorem slotNumber_inj (h : slotNumber i = slotNumber j) : i = j :=
  Fin.ext (by rw [← slotNumber_toNat, h, slotNumber_toNat])

theorem tableGet_eq_some {slot : UInt32} : procdTableGet slot = some i ↔ slot = slotNumber i := by
  unfold procdTableGet
  constructor
  · intro h
    split_ifs at h with hlt
    obtain ⟨⟩ := h
    apply UInt32.toNat_inj.mp
    rw [slotNumber_toNat]
  · rintro rfl
    rw [dif_pos (by rw [slotNumber_toNat]; exact i.isLt)]
    exact congrArg some (Fin.ext slotNumber_toNat)

def freeSlot (s : Server) : Option Slot := first fun i => decide (i ≠ 0 ∧ (s.procs i).state = .free)

def procdSlotAlloc (s : Server) : Option (Server × Slot) :=
  (freeSlot s).map fun i =>
    ({ s.setProc i { Proc.blank with
          slot := slotNumber i, syntheticPid := s.nextPid, state := .nascent } with
        nextPid := s.nextPid + 1 }, i)

def procdThreadAlloc (s : Server) : Option (Server × ThreadSlot) :=
  (first fun i : ThreadSlot =>
      decide (i ≠ 0 ∧ (s.threads i).running = false ∧ (s.threads i).tid = 0)).map fun i =>
    ({ s.setThread i { Thread.blank with tid := s.nextTid, running := true } with
        nextTid := s.nextTid + 1 }, i)

def procdThreadByTid (s : Server) (tid : UInt32) : Option ThreadSlot :=
  if tid = 0 then none
  else first fun i => decide (i ≠ 0 ∧ (s.threads i).tid = tid)

def procdTableFirstZombieChild (s : Server) (ppid : UInt32) : Option Slot :=
  first fun i => decide (i ≠ 0 ∧ (s.procs i).state = .zombie ∧ (s.procs i).ppid = ppid)

def procdTableLookupBySyntheticPid (s : Server) (pid : UInt32) : Option Slot :=
  if pid = 0 then none
  else first fun i =>
    decide (i ≠ 0 ∧ (s.procs i).syntheticPid = pid ∧ (s.procs i).state ≠ .free)

theorem freeSlot_some (h : freeSlot s = some i) : i ≠ 0 ∧ (s.procs i).state = .free :=
  of_decide_eq_true (first_some h)

theorem firstZombieChild_some {ppid : UInt32} (h : procdTableFirstZombieChild s ppid = some i) :
    i ≠ 0 ∧ (s.procs i).state = .zombie ∧ (s.procs i).ppid = ppid :=
  of_decide_eq_true (first_some h)

end SotOs.Procd
