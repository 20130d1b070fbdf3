import PrefixVM.Memory
import PrefixVM.Switch

/-!
The register machine. A step fetches one instruction and carries it out if it only computes; any other
operation is handed to the caller, with its operands still in the decoder's record. Machine and memory
are kept as they are when a step fails, so that one can see what a failed instruction has changed.
-/
namespace PrefixVM

structure Machine where
  registers : Vector Int64 16 := Vector.replicate 16 0
  /-- Return addresses, the innermost first. -/
  stack : List UInt32 := []
  decoder : Decoder

structure Core where
  machine : Machine
  memory : Memory

inductive Destination where
  | register (index : Fin 16)
  /-- The bytes of memory from `start` on. -/
  | cells (start : Nat) (width : Width)
  deriving DecidableEq, Repr

/-- A computation of a machine; its state is kept when it fails. -/
abbrev Exec := EStateM Fault Core

namespace Machine

def maxDepth : Nat := 4096

def start (code : Code) : Machine :=
  { decoder := Decoder.start code }

/-- A machine with the same code and registers at another place, without open calls. -/
def fork (m : Machine) (entry : UInt32) : Except Fault Machine :=
  match Decoder.startAt m.decoder.code entry with
  | .ok decoder => .ok { registers := m.registers, decoder }
  | .error cause => .error (.decode cause)

def register (m : Machine) (index : UInt8) : Except Fault Int64 :=
  match m.registers[index.toNat]? with
  | some value => .ok value
  | none => .error (.registerRange index)

def setRegister (m : Machine) (index : UInt8) (value : Int64) : Except Fault Machine :=
  if index.toNat < registerCount then
    .ok { m with registers := m.registers.setIfInBounds index.toNat value }
  else .error (.registerRange index)

def operand (m : Machine) (index : Nat) : Except Fault Operand :=
  match m.decoder.record.arg? index with
  | some o => .ok o
  | none => .error (.missingArgument index)

def readArg (m : Machine) (memory : Memory) (index : Nat) : Except Fault Int64 := do
  match ← m.operand index with
  | .register i => m.register i
  | .memory width i => memory.read (← m.register i) width

def destination (m : Machine) (memory : Memory) (index : Nat) : Except Fault Destination := do
  match ← m.operand index with
  | .register i =>
    if h : i.toNat < 16 then return .register ⟨i.toNat, h⟩ else throw (.registerRange i)
  | .memory width i =>
    let start ← memory.place (← m.register i) width.bytes
    return .cells start width

end Machine

namespace Core

def put (c : Core) (value : Int64) : Destination → Core
  | .register i =>
    { c with machine := { c.machine with registers := c.machine.registers.set i value } }
  | .cells start width => { c with memory := c.memory.put start width value }

theorem decoder_put (c : Core) (value : Int64) (d : Destination) :
    (c.put value d).machine.decoder = c.machine.decoder ∧
      (c.put value d).machine.stack = c.machine.stack := by
  cases d with
  | register index => exact ⟨rfl, rfl⟩
  | cells start width => exact ⟨rfl, rfl⟩

def writeArg (c : Core) (index : Nat) (value : Int64) : Except Fault Core := do
  let d ← c.machine.destination c.memory index
  return c.put value d

end Core

namespace Exec

def decode {α : Type} (read : Reading α) : Exec α := fun c =>
  match read.run c.machine.decoder with
  | .ok a decoder => .ok a { c with machine := { c.machine with decoder } }
  | .error cause decoder => .error (.decode cause) { c with machine := { c.machine with decoder } }

def arg (index : Nat) : Exec Int64 := do
  let c ← get
  match c.machine.readArg c.memory index with
  | .ok value => return value
  | .error fault => throw fault

def setArg (index : Nat) (value : Int64) : Exec Unit := do
  let c ← get
  match c.machine.destination c.memory index with
  | .ok d => set (c.put value d)
  | .error fault => throw fault

def here : Exec UInt32 := do
  let c ← get
  match c.machine.decoder.address with
  | .ok address => return address
  | .error cause => throw (.decode cause)

def jump (target : UInt32) : Exec Unit := do
  let c ← get
  match c.machine.decoder.jump target with
  | .ok decoder => set { c with machine := { c.machine with decoder } }
  | .error cause => throw (.decode cause)

def target : Exec UInt32 := do
  let c ← get
  return c.machine.decoder.record.address

/-- Stores the result of an operation on the first two operands through the third. -/
def binary (f : Int64 → Int64 → Except Fault Int64) : Exec Unit := do
  let a ← arg 0
  let b ← arg 1
  match f a b with
  | .ok value => setArg 2 value
  | .error fault => throw fault

def setStack (stack : List UInt32) : Exec Unit :=
  modify fun c => { c with machine := { c.machine with stack } }

/-- Remembers the place behind the instruction and moves the cursor. The instruction is at
`address`. -/
def call (address : UInt32) : Exec Unit := do
  let stack := (← get).machine.stack
  if stack.length < Machine.maxDepth then
    setStack ((← here) :: stack)
    jump (← target)
  else throw (.stackOverflow address)

def ret (address : UInt32) : Exec Unit := do
  match (← get).machine.stack with
  | [] => throw (.stackUnderflow address)
  | top :: rest =>
    -- the address is used up even if the jump fails
    setStack rest
    jump top

def order (a b : Int64) : Int64 :=
  if a < b then -1 else if a = b then 0 else 1

def compute (address : UInt32) (op : Opcode) : Exec Unit :=
  match op with
  | .loadConst => do setArg 0 (← get).machine.decoder.record.constant
  | .mov => do setArg 1 (← arg 0)
  | .add => binary fun a b => .ok (a + b)
  | .sub => binary fun a b => .ok (a - b)
  | .mul => binary fun a b => .ok (a * b)
  -- the smallest number divided by -1 wraps around
  | .div => binary fun a b => if b = 0 then .error (.divisionByZero address) else .ok (a / b)
  | .mod => binary fun a b => if b = 0 then .error (.divisionByZero address) else .ok (a % b)
  | .compare => binary fun a b => .ok (order a b)
  | .jump => do jump (← target)
  | .jumpEqual => do
    -- both operands are read before the target counts
    let a ← arg 0
    let b ← arg 1
    if a = b then jump (← target)
  | .call => call address
  | .ret => ret address
  -- all other operations are handed over
  | _ => return ()

/-- Fetches one instruction and carries it out if it only computes; any other operation is the
answer. -/
def step : Exec (Option Opcode) := do
  let address ← here
  let op ← decode Reading.instruction
  if op.isComputational then
    compute address op
    return none
  else return some op

end Exec

namespace Core

def step (c : Core) : Except Fault (Option Opcode) × Core :=
  match Exec.step.run c with
  | .ok op c => (.ok op, c)
  | .error fault c => (.error fault, c)

/-- Steps until an operation is handed over or a step fails; `none` if `fuel` steps do not suffice. -/
def run : (fuel : Nat) → Core → Option (Except Fault Opcode × Core)
  | 0, _ => none
  | fuel + 1, c =>
    match c.step with
    | (.ok none, c) => run fuel c
    | (.ok (some op), c) => some (.ok op, c)
    | (.error fault, c) => some (.error fault, c)

/-- Runs under a switch that nobody throws meanwhile. -/
def runUnder (s : Switch) (fuel : Nat) (c : Core) : Option (Except Fault Opcode × Core) :=
  if s.mayRun then run fuel c else some (.ok .stopped, c)

end Core

end PrefixVM
