import SotOs.Lib.Machine
import SotOs.Lib.Slots

/-! Pipes and the sotboxes parked on them: blocking reads and writes, the calls that wait for
several descriptors at once, and who is resumed when a pipe changes. -/

namespace SotOs.Orch.Pipes

def bufSize : ℕ := 4096

abbrev PipeId := Fin 64

abbrev Slot := Fin 8

structure Pipe where
  data : List UInt8
  readersOpen : ℕ
  writersOpen : ℕ
  inUse : Bool

inductive Side
  | readEnd
  | writeEnd
deriving DecidableEq, Repr

structure Watch where
  pipe : PipeId
  side : Side
  wantIn : Bool
  wantOut : Bool
  /-- In the exception set of a select. -/
  wantExc : Bool
deriving DecidableEq

inductive MuxKind
  | epoll
  | poll
  | select
deriving DecidableEq, Repr

inductive MuxCall
  | epoll (maxevents : ℕ+)
  | poll
  | select
deriving DecidableEq

def MuxCall.kind : MuxCall → MuxKind
  | .epoll _ => .epoll
  | .poll => .poll
  | .select => .select

inductive PipeWait
  | read (p : PipeId) (count : ℕ)
  | write (p : PipeId) (bytes : List UInt8)
deriving DecidableEq

inductive BoxState
  | running
  | waitingForPipeRead
  | waitingForPipeWrite
  | waitingForMux (call : MuxCall) (watches : List Watch)
deriving DecidableEq

/-- The threads of a sotbox share these fields; a pipe wait is told from `pipeWait` alone. -/
structure Box where
  pipeWait : Option PipeWait
  state : BoxState
deriving DecidableEq

structure State where
  pipes : PipeId → Pipe
  boxes : Slot → Box

def State.start : State := ⟨fun _ => ⟨[], 0, 0, false⟩, fun _ => ⟨none, .running⟩⟩

inductive Ret
  | bytes (got : List UInt8)
  | count (n : ℕ)
  | epipe
  | eagain
  | enomem
  | einval
  | deferred
deriving DecidableEq, Repr

abbrev Out := List (Slot × Ret)

def lucasPipeReadReady (p : Pipe) : Bool := p.data ≠ [] ∨ p.writersOpen = 0

def lucasPipeWriteReady (p : Pipe) : Bool := p.readersOpen = 0 ∨ p.data.length < bufSize

def lucasPipeHup (p : Pipe) : Bool := p.writersOpen = 0 ∧ p.data = []

variable (kind : MuxKind) (s : State) (i : Slot) (p : PipeId) (bytes : List UInt8)
    (watches : List Watch) (capOk : Bool)

def Watch.hits (w : Watch) (p : Pipe) : ℕ :=
  -- A select counts bits, the others descriptors, with hang-ups that were not asked for.
  let readable := w.side = .readEnd && lucasPipeReadReady p && w.wantIn
  let writable := w.side = .writeEnd && lucasPipeWriteReady p && w.wantOut
  match kind with
  | .select => readable.toNat + writable.toNat + (lucasPipeHup p && w.wantExc).toNat
  | _ => (readable || writable || lucasPipeHup p).toNat

/-- The result of a scan; `epoll_wait` tells of sixteen events at most. -/
def scan (call : MuxCall) (watches : List Watch) (pipes : PipeId → Pipe) : ℕ :=
  let hits := (watches.map fun w => w.hits call.kind (pipes w.pipe)).sum
  match call with
  | .epoll maxevents => min hits (min maxevents 16)
  | _ => hits

def State.setPipe (v : Pipe) : State :=
  { s with pipes := Function.update s.pipes p v }

def State.setBox (b : Box) : State :=
  { s with boxes := Function.update s.boxes i b }

def PipeWait.park : PipeWait → Box
  | .read p count => ⟨some (.read p count), .waitingForPipeRead⟩
  | .write p bytes => ⟨some (.write p bytes), .waitingForPipeWrite⟩

def Box.pipeResume (b : Box) : Box :=
  -- The state is left alone if another thread has overwritten it.
  ⟨none, if b.state = .waitingForPipeRead ∨ b.state = .waitingForPipeWrite then .running
    else b.state⟩

def pipeResumeSotbox : State := s.setBox i (s.boxes i).pipeResume

def Box.iomuxResume (b : Box) : Box := { b with state := .running }

def Box.asReader (b : Box) : Option ℕ :=
  match b.pipeWait with
  | some (.read q count) => if q = p then some count else none
  | _ => none

def Box.asWriter (b : Box) : Option (List UInt8) :=
  match b.pipeWait with
  | some (.write q bytes) => if q = p then some bytes else none
  | _ => none

def firstReader : Option (Slot × ℕ) :=
  Slots.firstMap fun i => (s.boxes i).asReader p

def firstWriter : Option (Slot × List UInt8) :=
  Slots.firstMap fun i => (s.boxes i).asWriter p

def Pipe.drain (v : Pipe) (count : ℕ) : Pipe := { v with data := v.data.drop count }

def Pipe.accepted (v : Pipe) (bytes : List UInt8) : List UInt8 :=
  bytes.take (bufSize - v.data.length)

def Pipe.fill (v : Pipe) (bytes : List UInt8) : Pipe :=
  { v with data := v.data ++ v.accepted bytes }

def lucasPipeWakeReaders : State × Out :=
  -- One parked reader is served, if there is anything to tell it.
  match firstReader s p with
  | none => (s, [])
  | some (i, count) =>
    let v := s.pipes p
    if v.data ≠ [] then
      (pipeResumeSotbox (s.setPipe p (v.drain count)) i, [(i, .bytes (v.data.take count))])
    else if v.writersOpen = 0 then (pipeResumeSotbox s i, [(i, .bytes [])])
    else (s, [])

def lucasPipeWakeWriters : State × Out :=
  -- One parked writer is served, and then one parked reader.
  match firstWriter s p with
  | none => (s, [])
  | some (i, bytes) =>
    let v := s.pipes p
    if v.readersOpen = 0 then (pipeResumeSotbox s i, [(i, .epipe)])
    else
      let put := (v.accepted bytes).length
      let s := pipeResumeSotbox (s.setPipe p (v.fill bytes)) i
      if put > 0 then
        let (s, out) := lucasPipeWakeReaders s p
        (s, (i, .count put) :: out)
      else (s, [(i, .count put)])

def Box.scanned (pipes : PipeId → Pipe) (b : Box) : ℕ :=
  match b.state with
  | .waitingForMux call watches => if call.kind = kind then scan call watches pipes else 0
  | _ => 0

/-- `iomux_check_epoll_waiters`, `iomux_check_poll_waiters`, `iomux_check_select_waiters`. -/
def iomuxCheckWaiters : State × Out :=
  ({ s with boxes := fun i =>
      if (s.boxes i).scanned kind s.pipes > 0 then (s.boxes i).iomuxResume else s.boxes i },
    (List.finRange 8).filterMap fun i =>
      let n := (s.boxes i).scanned kind s.pipes
      if n > 0 then some (i, .count n) else none)

def iomuxCheck : State × Out :=
  let (s, out₁) := iomuxCheckWaiters .epoll s
  let (s, out₂) := iomuxCheckWaiters .poll s
  let (s, out₃) := iomuxCheckWaiters .select s
  (s, out₁ ++ out₂ ++ out₃)

/-- `capOk` tells whether the reply capability can be saved. -/
def lucasPipeRead (count : ℕ) (capOk : Bool) : State × Out :=
  let v := s.pipes p
  if count = 0 then (s, [(i, .count 0)])
  else if v.data ≠ [] then
    let (s, out) := lucasPipeWakeWriters (s.setPipe p (v.drain count)) p
    (s, out ++ [(i, .bytes (v.data.take count))])
  else if v.writersOpen = 0 then (s, [(i, .bytes [])])
  else if ¬ capOk then (s, [(i, .eagain)])
  else (s.setBox i (PipeWait.read p count).park, [(i, .deferred)])

def written : State × Out :=
  let (s, out₁) := lucasPipeWakeReaders (s.setPipe p ((s.pipes p).fill bytes)) p
  let (s, out₂) := iomuxCheck s
  (s, out₁ ++ out₂)

def lucasPipeWrite :
    State × Out :=
  let v := s.pipes p
  if bytes = [] then (s, [(i, .count 0)])
  else if v.readersOpen = 0 then (s, [(i, .epipe)])
  else if v.data.length < bufSize then
    let (s, out) := written s p bytes
    (s, out ++ [(i, .count (v.accepted bytes).length)])
  else if ¬ capOk then (s, [(i, .eagain)])
  else (s.setBox i (PipeWait.write p bytes).park, [(i, .deferred)])

def lucasPipeWriteKbuf : State × Out :=
  -- A write of the kernel for a sotbox that sends a file; it never parks.
  let v := s.pipes p
  if bytes = [] then (s, [(i, .count 0)])
  else if v.readersOpen = 0 then (s, [(i, .epipe)])
  else if v.data.length < bufSize then
    let (s, out) := written s p bytes
    (s, out ++ [(i, .count (v.accepted bytes).length)])
  else (s, [(i, .count 0)])

def lucasPipeCloseReader : State × Out :=
  let v := s.pipes p
  if v.readersOpen = 0 then (s, [])
  else if v.readersOpen = 1 then
    let (s, out₁) := lucasPipeWakeWriters (s.setPipe p { v with readersOpen := 0 }) p
    let (s, out₂) := iomuxCheck s
    let v := s.pipes p
    (if v.writersOpen = 0 then s.setPipe p { v with inUse := false } else s, out₁ ++ out₂)
  else (s.setPipe p { v with readersOpen := v.readersOpen - 1 }, [])

def lucasPipeCloseWriter : State × Out :=
  let v := s.pipes p
  if v.writersOpen = 0 then (s, [])
  else if v.writersOpen = 1 then
    let (s, out₁) := lucasPipeWakeReaders (s.setPipe p { v with writersOpen := 0 }) p
    let (s, out₂) := iomuxCheck s
    let v := s.pipes p
    (if v.readersOpen = 0 then s.setPipe p { v with inUse := false } else s, out₁ ++ out₂)
  else (s.setPipe p { v with writersOpen := v.writersOpen - 1 }, [])

def lucasPipeAddReader : State :=
  s.setPipe p { s.pipes p with readersOpen := (s.pipes p).readersOpen + 1 }

def lucasPipeAddWriter : State :=
  s.setPipe p { s.pipes p with writersOpen := (s.pipes p).writersOpen + 1 }

def lucasPipeAlloc : State :=
  match Slots.first fun p => !(s.pipes p).inUse with
  | none => s
  | some p => s.setPipe p ⟨[], 1, 1, true⟩

/-- `epoll_wait` always parks, poll if it reads from pipes only, select if it does nothing else. -/
def parksOn : Bool :=
  match kind with
  | .epoll => true
  | .poll => watches.all (fun w => !w.wantIn || w.side = .readEnd) && watches.any (·.wantIn)
  | .select => watches.all (fun w => w.wantIn && w.side = .readEnd && !w.wantOut && !w.wantExc) &&
      watches ≠ []

def waitMany (call : MuxCall) (watches : List Watch)
    (blocking capOk : Bool) : State × Out :=
  let n := scan call watches s.pipes
  if n > 0 then (s, [(i, .count n)])
  else if ¬ (blocking && parksOn call.kind watches) then (s, [(i, .count 0)])
  else if ¬ capOk then (s, [(i, if call.kind = .epoll then .enomem else .count 0)])
  else (s.setBox i { s.boxes i with state := .waitingForMux call watches }, [(i, .deferred)])

def iomuxEpollWait (maxevents : ℤ) (watches : List Watch)
    (blocking capOk : Bool) : State × Out :=
  if h : 0 < maxevents then
    waitMany s i (.epoll ⟨maxevents.toNat, by omega⟩) watches blocking capOk
  else (s, [(i, .einval)])

inductive Input
  | alloc
  | read (i : Slot) (p : PipeId) (count : ℕ) (capOk : Bool)
  | write (i : Slot) (p : PipeId) (bytes : List UInt8) (capOk : Bool)
  | writeKbuf (i : Slot) (p : PipeId) (bytes : List UInt8)
  | closeReader (p : PipeId)
  | closeWriter (p : PipeId)
  | addReader (p : PipeId)
  | addWriter (p : PipeId)
  | epollWait (i : Slot) (maxevents : ℤ) (watches : List Watch) (blocking capOk : Bool)
  | poll (i : Slot) (watches : List Watch) (blocking capOk : Bool)
  | select (i : Slot) (watches : List Watch) (blocking capOk : Bool)
  /-- The sotbox is taken down. -/
  | leave (i : Slot)

def ifInUse (r : State × Out) : State × Out :=
  if (s.pipes p).inUse then r else (s, [])

def step : Input → State × Out
  | .alloc => (lucasPipeAlloc s, [])
  | .read i p count capOk => ifInUse s p (lucasPipeRead s i p count capOk)
  | .write i p bytes capOk => ifInUse s p (lucasPipeWrite s i p bytes capOk)
  | .writeKbuf i p bytes => ifInUse s p (lucasPipeWriteKbuf s i p bytes)
  | .closeReader p => ifInUse s p (lucasPipeCloseReader s p)
  | .closeWriter p => ifInUse s p (lucasPipeCloseWriter s p)
  | .addReader p => ifInUse s p (lucasPipeAddReader s p, [])
  | .addWriter p => ifInUse s p (lucasPipeAddWriter s p, [])
  | .epollWait i maxevents watches blocking capOk =>
    iomuxEpollWait s i maxevents watches blocking capOk
  | .poll i watches blocking capOk => waitMany s i .poll watches blocking capOk
  | .select i watches blocking capOk => waitMany s i .select watches blocking capOk
  | .leave i => (s.setBox i ⟨none, .running⟩, [])

end SotOs.Orch.Pipes
