import PrefixVM.Process.State

/-!
Steps of a process. `Process.advance` is one step of one thread: what it reads and changes of the shared
state happens at once, and between two steps the other threads may take any number of theirs. A thread
without an enabled step waits for another one to finish, or has finished itself.
-/
namespace PrefixVM

namespace Process

def leave (p : Process) (i : Nat) (fault : Fault) : Process :=
  p.setPhase i (.leaving (some fault))

def orLeave {α : Type} (p : Process) (i : Nat) (value : Except Fault α) (next : α → Process) :
    Process :=
  match value with
  | .ok a => next a
  | .error fault => p.leave i fault

/-- Creates a thread at the address that the last instruction of the caller names. -/
def createThread (p : Process) (i : Nat) (parent : Thread) : Process :=
  -- no thread is created once the process is being stopped, and the caller ends
  if p.shuttingDown || !p.switch.mayRun then p.setPhase i (.leaving none)
  else
    let index := p.workers.size
    let address := parent.machine.decoder.record.address
    p.orLeave i (parent.spawn index address) fun child =>
      let workers := p.workers.push { thread := child, joinable := true }
      ({ p with workers }.setPhase i (.storing 0 (Int64.ofNat index))).report
        [.threadCreated parent.index index address]

/-- The thread that a join with the given value may wait for. -/
def joinTarget (p : Process) (caller : Nat) (value : Int64) : Except Fault Nat :=
  if value < 0 then .error (.invalidThread value)
  else
    let index := value.toInt.toNat
    match p.workers[index]? with
    | none => .error (.invalidThread value)
    | some target =>
      if index = caller then .error (.selfJoin index)
      else if target.joinable then .ok index
      else .error (.alreadyJoined index)

def join (p : Process) (i : Nat) (caller : Thread) (value : Int64) : Process :=
  p.orLeave i (p.joinTarget caller.index value) fun index =>
    let workers := p.workers.modify index fun w => { w with joinable := false }
    ({ p with workers }.setPhase i (.joining index)).report [.join caller.index value]

def transferArgs (m : Machine) (memory : Memory) : Except Fault (Int64 × Int64 × Int64) := do
  let offset ← m.readArg memory 0
  let count ← m.readArg memory 1
  let address ← m.readArg memory 2
  return (offset, count, address)

def readFile (p : Process) (i : Nat) (m : Machine) : Process :=
  p.orLeave i (transferArgs m p.memory) fun (offset, count, address) =>
    p.orLeave i (p.file.read offset count p.memory address) fun (transferred, memory) =>
      { p with memory }.setPhase i (.storing 3 transferred)

def writeFile (p : Process) (i : Nat) (m : Machine) : Process :=
  p.orLeave i (transferArgs m p.memory) fun (offset, count, address) =>
    p.orLeave i (p.file.write offset count p.memory address) fun file =>
      { p with file }.setPhase i .serving

def readConsole (p : Process) (i : Nat) : Process :=
  let answer := p.console.read p.stdin
  let p := { p with console := answer.console, stdin := answer.rest }
  (p.setPhase i (.storing 0 answer.value)).report (answer.trouble.toList.map Event.ofTrouble)

def writeConsole (p : Process) (i : Nat) (value : Int64) : Process :=
  let (console, text) := p.console.write value
  { p with console, stdout := p.stdout ++ text }.setPhase i .serving

def serve (p : Process) (i : Nat) (t : Thread) (op : Opcode) : Process :=
  match op with
  | .createThread => p.createThread i t
  | .joinThread => p.orLeave i (t.machine.readArg p.memory 0) (p.join i t)
  | .read => p.readFile i t.machine
  | .write => p.writeFile i t.machine
  | .consoleRead => p.readConsole i
  | .consoleWrite => p.orLeave i (t.machine.readArg p.memory 0) (p.writeConsole i)
  | .lock =>
    p.orLeave i (t.machine.readArg p.memory 0) fun lock => p.setPhase i (.locking lock .look)
  | .unlock =>
    p.orLeave i (t.machine.readArg p.memory 0) fun lock => p.setPhase i (.unlocking lock .look)
  | .halt | .padding | .stopped => p.setPhase i (.leaving none)
  | op => p.leave i (.unserviced op)

def storeResult (p : Process) (i : Nat) (t : Thread) (operand : Nat) (value : Int64) : Process :=
  p.orLeave i (t.machine.destination p.memory operand) fun d =>
    let c := Core.put { machine := t.machine, memory := p.memory } value d
    { p with
      memory := c.memory
      workers := p.workers.modify i fun w =>
        { w with thread := { w.thread with machine := c.machine }, phase := .serving } }

def takeLock (p : Process) (i : Nat) (t : Thread) (lock : Int64) (stage : LockStage) : Process :=
  let (outcome, locks) := p.locks.lockStep lock t.index t.switch.mayRun stage
  let p := { p with locks }
  match outcome with
  | .acquired created =>
    (p.setPhase i .serving).report (if created then [.lockCreated t.index lock] else [])
  -- the thread goes on without the lock, and finds at its next look that it is stopped
  | .abandoned => p.setPhase i .serving
  | .reentrant => p.leave i (.reentrantLock lock t.index)
  | .pending stage => p.setPhase i (.locking lock stage)

def releaseLock (p : Process) (i : Nat) (lock : Int64) (stage : UnlockStage) : Process :=
  let (outcome, locks) := p.locks.unlockStep lock stage
  let p := { p with locks }
  match outcome with
  | .done _ => p.setPhase i .released
  | .pending => p.setPhase i (.unlocking lock .clear)

def runMachine (p : Process) (i : Nat) (t : Thread) (a : Activity) : Process :=
  -- the memory is taken out of the process, so that nobody else holds it when the machine writes to it
  let memory := p.memory
  let p := { p with memory := {} }
  let ((outcome, events), thread, memory) := Thread.step p.settings.sleepSlice t memory a
  let (phase, events) := match outcome with
    | .going a => (Phase.running a, events)
    | .surfaced op => (Phase.requesting op, events ++ [.service t.index op])
  let workers := p.workers.modify i fun w => { w with thread, phase }
  { p with memory, workers }.report events

def joinableThreads (p : Process) : List Nat :=
  (List.range p.workers.size).filter fun k => p.workers[k]?.any Worker.joinable

/-- Throws the switches of all threads and takes over those that can still be joined. -/
def sweep (p : Process) (i : Nat) (result : Option Fault) : Process :=
  let threads := p.joinableThreads
  let workers := p.workers.map fun w => { w.stop with joinable := false }
  { p with shuttingDown := true, workers }.setPhase i (.collecting threads result)

def shut (p : Process) (i : Nat) (result : Option Fault) : Process :=
  let events := if p.file.isOpen then [.fileClosed, .terminated] else [.terminated]
  ({ p with file := p.file.close }.setPhase i (.finished result)).report events

def enabled (p : Process) (i : Nat) : Bool :=
  match p.workers[i]? with
  | none => false
  | some w =>
    match w.phase with
    | .joining target => p.isFinished target
    | .collecting (k :: _) _ => p.isFinished k
    | .finished _ => false
    | _ => true

def stepIn (p : Process) (i : Nat) (t : Thread) (phase : Phase) : Process :=
  match phase with
  | .serving => p.setPhase i (if p.switch.mayRun then .running .computing else .leaving none)
  | .running a => p.runMachine i t a
  | .requesting op => p.serve i t op
  | .storing operand value => p.storeResult i t operand value
  | .joining _ => p.setPhase i .serving
  | .locking lock stage => p.takeLock i t lock stage
  | .unlocking lock stage => p.releaseLock i lock stage
  | .released => p.setPhase i (if p.locks.holdsAny t.index then .serving else .pausing)
  | .pausing => p.setPhase i .serving
  -- the main thread takes the process down with it, any other thread just ends
  | .leaving result =>
    (p.report (result.toList.map (Event.stopped t.index))).setPhase i
      (if t.index = Thread.mainIndex then .halting result else .finished result)
  | .halting result => { p with switch := p.switch.stop.2 }.setPhase i (.sweeping result)
  | .sweeping result => p.sweep i result
  -- enabled once the first of the threads has finished
  | .collecting [] result => p.setPhase i (.shutting result)
  | .collecting (_ :: rest) result => p.setPhase i (.collecting rest result)
  | .shutting result => p.shut i result
  | .finished _ => p

def step (p : Process) (i : Nat) : Process :=
  match p.workers[i]? with
  | none => p
  | some w => p.stepIn i w.thread w.phase

def advance (p : Process) (i : Nat) : Option Process :=
  if p.enabled i then some (p.step i) else none

def openFile (p : Process) : Process :=
  match p.settings.dataFile with
  | none => { p with boot := .opened }
  | some _ =>
    match DataFile.openSlot p.file.slot p.settings.fileLimit with
    | .ok file => { p with file, boot := .opened }.report [.fileOpened]
    | .error fault => { p with boot := .failed fault }

def createMain (p : Process) : Process :=
  let workers := p.workers.push { thread := Thread.initial p.code }
  { p with boot := .running, workers }.report [.started p.code.length p.memory.size]

def bootStep (p : Process) : Option Process :=
  match p.boot with
  | .begun => some p.openFile
  | .opened => some p.createMain
  | _ => none

/-- A call to start the process. Only the first one succeeds. -/
def tryStart (p : Process) : Except Fault Process :=
  match p.boot with
  | .idle => .ok { p with boot := .begun }
  | _ => .error .alreadyStarted

/-- The first half of a request to stop: the switch of the process is thrown. -/
def requestStop (p : Process) : Process :=
  { p with switch := p.switch.stop.2, pendingStops := p.pendingStops + 1 }.report [.stopRequested]

/-- The second half of a request to stop: the switches of all threads are thrown. -/
def finishStop (p : Process) : Option Process :=
  match p.pendingStops with
  | 0 => none
  | n + 1 => some { p.stopThreads with pendingStops := n }

def stop (p : Process) : Process :=
  p.requestStop.finishStop.getD p

end Process

inductive Action where
  | start
  | boot
  | advance (thread : Nat)
  | requestStop
  | finishStop
  deriving DecidableEq, Repr

namespace Process

/-- Carries out an action, if it is enabled. A call to start that is refused changes nothing. -/
def perform (p : Process) : Action → Option Process
  | .start =>
    match p.tryStart with
    | .ok p => some p
    | .error _ => some p
  | .boot => p.bootStep
  | .advance i => p.advance i
  | .requestStop => some p.requestStop
  | .finishStop => p.finishStop

/-- Carries out actions one after the other, all of which have to be enabled. -/
def performAll : Process → List Action → Option Process
  | p, [] => some p
  | p, a :: rest => do performAll (← p.perform a) rest

end Process

end PrefixVM
