import PrefixVM.Event
import PrefixVM.Machine
import PrefixVM.Switch

/-!
Threads of a program. A thread runs its machine until an operation needs a service of the process;
sleeping and every fault are dealt with here. A sleep is cut into slices, and the switch is looked at
before each slice and before each instruction.
-/
namespace PrefixVM

inductive Activity where
  | computing
  /-- Asleep: the whole slices and the nanoseconds that are left behind them. -/
  | sleeping (slices remainder : Nat)
  deriving DecidableEq, Repr

structure Thread where
  index : Nat
  machine : Machine
  switch : Switch := {}

inductive ThreadOutcome where
  | going (a : Activity)
  | surfaced (op : Opcode)
  deriving DecidableEq, Repr

namespace Thread

def mainIndex : Nat := 0

def initial (code : Code) : Thread :=
  { index := mainIndex, machine := Machine.start code }

def spawn (t : Thread) (index : Nat) (entry : UInt32) : Except Fault Thread := do
  let machine ← t.machine.fork entry
  return { index, machine }

def sliceLength (sliceMs : Nat) : Nat :=
  max (sliceMs * 1000000) 1

/-- A sleep of some milliseconds, cut into slices. The remainder is counted in 64 bits. -/
def asleep (milliseconds sliceMs : Nat) : Activity :=
  let total := milliseconds * 1000000
  .sleeping (total / sliceLength sliceMs) (total % sliceLength sliceMs % UInt64.size)

def sleepStep (s : Switch) (slices remainder : Nat) : Activity :=
  match slices, remainder with
  -- a stopped thread leaves out the whole slices, and the remainder follows in any case
  | slices + 1, remainder => if s.mayRun then .sleeping slices remainder else .sleeping 0 remainder
  | 0, _ => .computing

def failed (t : Thread) (fault : Fault) : ThreadOutcome × List Event :=
  (.surfaced .stopped, [.stopped t.index fault])

def surface (t : Thread) (memory : Memory) (sliceMs : Nat) (op : Opcode) : ThreadOutcome × List Event :=
  if op = .sleep then
    match t.machine.readArg memory 0 with
    | .error fault => t.failed fault
    | .ok value =>
      -- a negative time is no time
      let milliseconds := value.toInt.toNat
      (.going (asleep milliseconds sliceMs), [.sleep t.index milliseconds])
  else if op.isUnknown then t.failed (.unknownInstruction op)
  else (.surfaced op, [])

/-- One step of a thread: a slice of sleep, or one look at the switch and one instruction. -/
def step (sliceMs : Nat) (t : Thread) (memory : Memory) :
    Activity → (ThreadOutcome × List Event) × Thread × Memory
  | .sleeping slices remainder => ((.going (sleepStep t.switch slices remainder), []), t, memory)
  | .computing =>
    if t.switch.mayRun then
      match Core.step { machine := t.machine, memory } with
      | (.error fault, c) =>
        let t := { t with machine := c.machine }
        (t.failed fault, t, c.memory)
      | (.ok none, c) => ((.going .computing, []), { t with machine := c.machine }, c.memory)
      | (.ok (some op), c) =>
        let t := { t with machine := c.machine }
        (t.surface c.memory sliceMs op, t, c.memory)
    else ((.surfaced .stopped, []), t, memory)

end Thread

end PrefixVM
