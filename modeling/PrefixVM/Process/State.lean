import PrefixVM.Console
import PrefixVM.DataFile
import PrefixVM.LockTable
import PrefixVM.Settings
import PrefixVM.Thread

/-!
States of a process. A process is a table of threads that share memory, locks, the console and a data
file. Each thread is in a phase, which tells what its next step does; the steps of different threads may
follow each other in any order.
-/
namespace PrefixVM

/-- What a thread of a process is about to do. The main thread ends with the four phases from `halting`
to `shutting`; a result is the fault that ended the thread, if one did. -/
inductive Phase where
  /-- Look at the switch of the process before going on. -/
  | serving
  | running (a : Activity)
  | requesting (op : Opcode)
  | storing (operand : Nat) (value : Int64)
  | joining (target : Nat)
  | locking (lock : Int64) (stage : LockStage)
  | unlocking (lock : Int64) (stage : UnlockStage)
  /-- Find out whether any lock is still held. -/
  | released
  | pausing
  | leaving (result : Option Fault)
  | halting (result : Option Fault)
  /-- Throw the switches of all threads and take over those that nobody joins. -/
  | sweeping (result : Option Fault)
  /-- Wait until the threads taken over have finished. -/
  | collecting (threads : List Nat) (result : Option Fault)
  | shutting (result : Option Fault)
  | finished (result : Option Fault)
  deriving DecidableEq, Repr

structure Worker where
  thread : Thread
  /-- Whether the thread can still be joined: it was created by another thread and nobody waits or has
  waited for it. -/
  joinable : Bool := false
  phase : Phase := .serving

namespace Worker

def isFinished (w : Worker) : Bool :=
  match w.phase with
  | .finished _ => true
  | _ => false

def stop (w : Worker) : Worker :=
  { w with thread := { w.thread with switch := w.thread.switch.stop.2 } }

end Worker

inductive Boot where
  | idle
  /-- The process is started, and its data file is to be opened. -/
  | begun
  /-- The main thread is to be created. -/
  | opened
  | running
  | failed (fault : Fault)
  deriving DecidableEq, Repr

structure Process where
  header : Header
  code : Code
  settings : Settings
  memory : Memory
  switch : Switch := {}
  boot : Boot := .idle
  workers : Array Worker := #[]
  /-- Set once the main thread has begun to end the process; no thread is created from then on. -/
  shuttingDown : Bool := false
  /-- Requests to stop that have thrown the switch of the process but not yet those of its threads. -/
  pendingStops : Nat := 0
  locks : LockTable := {}
  console : Console
  stdin : Bytes := []
  stdout : String := ""
  file : DataFile := {}
  log : Array Event := #[]

def Image.process (image : Image) (settings : Settings) (slot : FileSlot) (stdin : Bytes) : Process :=
  { header := image.header
    code := image.machineCode
    settings
    memory := Memory.ofImage image
    console := Console.make settings.input settings.captureOutput
    stdin
    file := { slot } }

namespace Process

def threadCount (p : Process) : Nat :=
  p.workers.size

def isFinished (p : Process) (i : Nat) : Bool :=
  p.workers[i]?.any Worker.isFinished

def result? (p : Process) : Option (Option Fault) :=
  match p.workers[Thread.mainIndex]? with
  | some { phase := .finished result, .. } => some result
  | _ => none

def report (p : Process) (events : List Event) : Process :=
  { p with log := events.foldl Array.push p.log }

def setPhase (p : Process) (i : Nat) (phase : Phase) : Process :=
  { p with workers := p.workers.modify i fun w => { w with phase } }

def stopThreads (p : Process) : Process :=
  { p with workers := p.workers.map Worker.stop }

end Process

end PrefixVM
