import PrefixVM.Process.Step

/-!
Runs of threads and processes in simulated time. Instructions and services take a fixed time, sleeps and
pauses the time they name, and the thread whose next step is due first takes it; among several, the one
with the lowest index. A stop can be requested at a set time. This picks one of the many runs that the
steps allow; time decides nothing but their order.
-/
namespace PrefixVM

namespace Timeline

def stepTime : Nat := 200

def millisecond : Nat := 1000000

/-- How many slices of a sleep pass at once when nothing else happens before `horizon`. -/
def leap (now slice slices : Nat) : (horizon : Option Nat) → Nat
  | none => slices
  | some horizon => min slices (max 1 ((horizon - now) / slice))

end Timeline

namespace Thread

structure Run where
  op : Opcode
  thread : Thread
  memory : Memory
  events : Array Event

/-- Runs a thread from the time `now` on until it hands over an operation; its switch is thrown at the
time `stopAt`. The answer is `none` if `fuel` steps do not suffice. -/
def runFrom (sliceMs : Nat) (stopAt : Option Nat) :
    (fuel now : Nat) → Thread → Memory → Activity → Array Event → Option Run
  | 0, _, _, _, _, _ => none
  | fuel + 1, now, t, memory, a, events =>
    let t := if stopAt.any (· ≤ now) then { t with switch := t.switch.stop.2 } else t
    match a, t.switch.mayRun with
    -- slices pass at once as long as nobody throws the switch between them
    | .sleeping (slices + 1) remainder, true =>
      let slice := sliceLength sliceMs
      let k := Timeline.leap now slice (slices + 1) stopAt
      runFrom sliceMs stopAt fuel (now + k * slice) t memory (.sleeping (slices + 1 - k) remainder)
        events
    | a, _ =>
      let spent := match a with
        | .sleeping 0 remainder => remainder
        | .sleeping _ _ => 0
        | .computing => Timeline.stepTime
      let ((outcome, new), t, memory) := step sliceMs t memory a
      let events := new.foldl Array.push events
      match outcome with
      | .going a => runFrom sliceMs stopAt fuel (now + spent) t memory a events
      | .surfaced op => some { op, thread := t, memory, events }

def run (fuel sliceMs : Nat) (t : Thread) (memory : Memory) : Option Run :=
  runFrom sliceMs none fuel 0 t memory .computing #[]

/-- Runs a thread until it hands over an operation, while its switch is thrown after some
milliseconds. The switch is thrown in the end at the latest. -/
def runStopping (fuel sliceMs afterMs : Nat) (t : Thread) (memory : Memory) : Option Run :=
  (runFrom sliceMs (some (afterMs * Timeline.millisecond)) fuel 0 t memory .computing #[]).map
    fun r => { r with thread := { r.thread with switch := r.thread.switch.stop.2 } }

end Thread

structure Clock where
  now : Nat := 0
  /-- When the next step of each thread is due at the earliest. -/
  wake : Array Nat := #[0]
  stopAt : Option Nat := none
  deriving DecidableEq, Repr

namespace Timeline

/-- When the next step of a thread is due; `none` while it waits for another thread, and once it has
finished. -/
def due? (p : Process) (c : Clock) (i : Nat) : Option Nat :=
  if p.enabled i then
    match p.workers[i]? with
    | some { phase := .locking lock .wait, .. } =>
      -- a release wakes the waiting threads
      if (p.locks.owner? lock).isNone then some c.now else some (max c.now (c.wake.getD i 0))
    | _ => some (max c.now (c.wake.getD i 0))
  else none

def earlier : Option (Nat × Nat) → Option (Nat × Nat) → Option (Nat × Nat)
  | some a, some b => if b.2 < a.2 then some b else some a
  | some a, none => some a
  | none, b => b

def earliest (p : Process) (c : Clock) (skip : Option Nat) : (n : Nat) → Option (Nat × Nat)
  | 0 => none
  | n + 1 =>
    let here := if skip = some n then none else (due? p c n).map fun time => (n, time)
    earlier (earliest p c skip n) here

def spent (p : Process) (w : Worker) : Nat :=
  match w.phase with
  | .running (.sleeping 0 remainder) => remainder
  | .running (.sleeping _ _) => 0
  | .pausing => max stepTime (p.settings.unlockPause * millisecond)
  | .locking lock .wait =>
    if (p.locks.owner? lock).isNone then stepTime
    else max stepTime (p.settings.lockPoll * millisecond)
  | _ => stepTime

def deliverStop (p : Process) (c : Clock) (time : Nat) : Process × Clock :=
  (p.stop, { c with now := max c.now time, stopAt := none })

def dozeLength (p : Process) (c : Clock) (i time slices : Nat) : Nat :=
  let others := (earliest p c (some i) p.workers.size).map Prod.snd
  let horizon := match others, c.stopAt with
    | some a, some b => some (min a b)
    | some a, none => some a
    | none, b => b
  leap time (Thread.sliceLength p.settings.sleepSlice) slices horizon

/-- The clock after a step of a thread, which may have created another one. The thread goes on at the
time `next`. -/
def tick (c : Clock) (i time next threads : Nat) : Clock :=
  let wake := c.wake.setIfInBounds i next
  { c with now := time, wake := if wake.size < threads then wake.push (time + stepTime) else wake }

/-- The phase of a thread after slices of a sleep, and the time when it goes on; `none` if the thread
does anything else than to sleep through a slice. -/
def doze? (p : Process) (c : Clock) (i time : Nat) (w : Worker) : Option (Phase × Nat) :=
  match w.phase, w.thread.switch.mayRun with
  | .running (.sleeping (slices + 1) remainder), true =>
    let k := dozeLength p c i time (slices + 1)
    some (.running (.sleeping (slices + 1 - k) remainder),
      time + k * Thread.sliceLength p.settings.sleepSlice)
  | _, _ => none

def take (p : Process) (c : Clock) (i time : Nat) (w : Worker) : Process × Clock :=
  match doze? p c i time w with
  | some (phase, next) => (p.setPhase i phase, tick c i time next p.workers.size)
  | none =>
    let next := time + spent p w
    let p := p.step i
    (p, tick c i time next p.workers.size)

inductive Occurrence where
  | stop (time : Nat)
  | step (thread time : Nat)
  deriving DecidableEq, Repr

def upcoming? (p : Process) (c : Clock) : Option Occurrence :=
  match earliest p c none p.workers.size, c.stopAt with
  | none, stopAt => stopAt.map .stop
  | some (i, time), none => some (.step i time)
  | some (i, time), some stop => if stop ≤ time then some (.stop stop) else some (.step i time)

def happen (p : Process) (c : Clock) : Occurrence → Process × Clock
  | .stop time => deliverStop p c time
  | .step i time =>
    match p.workers[i]? with
    | some w => take p c i time w
    | none => (p, c)

def run : (fuel : Nat) → Process → Clock → Process × Clock
  | 0, p, c => (p, c)
  | fuel + 1, p, c =>
    match p.result?, upcoming? p c with
    | none, some occurrence =>
      let (p, c) := happen p c occurrence
      run fuel p c
    | _, _ => (p, c)

end Timeline

inductive Ending where
  | returned
  | fault (fault : Fault)
  | unfinished
  deriving DecidableEq, Repr

namespace Process

/-- Starts the process and runs it to its end, in at most `fuel` steps; a stop is requested at
`stopAt`. The answer tells also when the stop is still to be requested. -/
def start (fuel : Nat) (p : Process) (stopAt : Option Nat) : Ending × Process × Option Nat :=
  match p.tryStart with
  | .error fault => (.fault fault, p, stopAt)
  | .ok p =>
    let p := p.openFile
    match p.boot with
    | .failed fault => (.fault fault, p, stopAt)
    | _ =>
      let (p, clock) := Timeline.run fuel p.createMain { stopAt }
      match p.result? with
      | some none => (.returned, p, clock.stopAt)
      | some (some fault) => (.fault fault, p, clock.stopAt)
      | none => (.unfinished, p, clock.stopAt)

def startTimes (fuel : Nat) (p : Process) (stopAfterMs : Option Nat) (n : Nat) :
    List Ending × Process :=
  let rec go : (n : Nat) → Process → Option Nat → List Ending × Process
    | 0, p, stopAt => ([], if stopAt.isSome then p.stop else p)
    | n + 1, p, stopAt =>
      let (ending, p, stopAt) := p.start fuel stopAt
      let (endings, p) := go n p stopAt
      (ending :: endings, p)
  go n p (stopAfterMs.map (· * Timeline.millisecond))

end Process

def Image.runCaptured (fuel : Nat) (image : Image) (input : List Int64) : Ending × List Int64 :=
  let p := image.process (Settings.captured input) .absent []
  let (ending, p, _) := p.start fuel none
  (ending, (p.console.output.getD #[]).toList)

end PrefixVM
