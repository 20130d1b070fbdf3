import PrefixVM.Machine
import PrefixVM.Proofs.Offsets

/-!
A machine for sources. It carries out the instructions of a source as they are written: its counter and its
return addresses are positions in the list of instructions, and a label leads to the instruction behind it.
Values, memory and faults are those of the machine that runs images; where a fault names the place of an
instruction, this is the bit offset of that instruction.
-/
namespace PrefixVM.Asm

/-- The position of the first instruction behind a label. -/
def labelIndex (name : String) : List Item → Nat
  | [] => 0
  | .label _ other :: rest => if other = name then 0 else labelIndex name rest
  | .instruction _ :: rest => labelIndex name rest + 1

def Instruction.targetIndex (items : List Item) (i : Instruction) : Nat :=
  match i.target with
  | some (.label name) => labelIndex name items
  | _ => 0

structure State where
  registers : Vector Int64 16 := Vector.replicate 16 0
  memory : Memory
  counter : Nat := 0
  /-- The positions to return to, the innermost first. -/
  stack : List Nat := []
  /-- The instruction that was fetched last. -/
  current : Option Instruction := none

namespace State

def register (s : State) (index : UInt8) : Except Fault Int64 :=
  match s.registers[index.toNat]? with
  | some value => .ok value
  | none => .error (.registerRange index)

def value (s : State) : Operand → Except Fault Int64
  | .register i => s.register i
  | .memory width i => do s.memory.read (← s.register i) width

def store (s : State) (value : Int64) : Operand → Except Fault State
  | .register i =>
    if h : i.toNat < 16 then .ok { s with registers := s.registers.set i.toNat value h }
    else .error (.registerRange i)
  | .memory width i => do
    let memory ← s.memory.write (← s.register i) width value
    return { s with memory }

def binary (s : State) (f : Int64 → Int64 → Except Fault Int64) (a b c : Operand) :
    Except Fault State := do
  let x ← s.value a
  let y ← s.value b
  s.store (← f x y) c

/-- Carries out a computing instruction, which has just been fetched from the bit offset `here`. -/
def execute (items : List Item) (here : UInt32) (s : State) (i : Instruction) : Except Fault State :=
  match i.opcode, i.args with
  | .loadConst, [a] => s.store i.constant a
  | .mov, [a, b] => do s.store (← s.value a) b
  | .add, [a, b, c] => s.binary (fun x y => .ok (x + y)) a b c
  | .sub, [a, b, c] => s.binary (fun x y => .ok (x - y)) a b c
  | .mul, [a, b, c] => s.binary (fun x y => .ok (x * y)) a b c
  | .div, [a, b, c] =>
    s.binary (fun x y => if y = 0 then .error (.divisionByZero here) else .ok (x / y)) a b c
  | .mod, [a, b, c] =>
    s.binary (fun x y => if y = 0 then .error (.divisionByZero here) else .ok (x % y)) a b c
  | .compare, [a, b, c] => s.binary (fun x y => .ok (Exec.order x y)) a b c
  | .jump, [] => .ok { s with counter := i.targetIndex items }
  | .jumpEqual, [a, b] => do
    let x ← s.value a
    let y ← s.value b
    return if x = y then { s with counter := i.targetIndex items } else s
  | .call, [] =>
    if s.stack.length < Machine.maxDepth then
      .ok { s with counter := i.targetIndex items, stack := s.counter :: s.stack }
    else .error (.stackOverflow here)
  | .ret, [] =>
    match s.stack with
    | [] => .error (.stackUnderflow here)
    | k :: rest => .ok { s with counter := k, stack := rest }
  | _, _ => .ok s

def fetched (s : State) (i : Instruction) : State :=
  { s with counter := s.counter + 1, current := some i }

/-- One step: fetches the next instruction and carries it out if it only computes; any other operation is
the answer, and behind the last instruction the answer is padding. -/
def step (items : List Item) (s : State) : Except Fault (Option Opcode) × State :=
  match (instructions items)[s.counter]? with
  | none => (.ok (some .padding), { s with current := none })
  | some i =>
    if i.opcode.isComputational then
      match (s.fetched i).execute items (UInt32.ofNat (offset (instructions items) s.counter)) i with
      | .ok s' => (.ok none, s')
      | .error fault => (.error fault, s.fetched i)
    else (.ok (some i.opcode), s.fetched i)

def run (items : List Item) : (fuel : Nat) → State → Option (Except Fault Opcode × State)
  | 0, _ => none
  | fuel + 1, s =>
    match s.step items with
    | (.ok none, s) => run items fuel s
    | (.ok (some op), s) => some (.ok op, s)
    | (.error fault, s) => some (.error fault, s)

def operand (s : State) (index : Nat) : Except Fault Operand :=
  match (s.current.elim [] Instruction.args)[index]? with
  | some o => .ok o
  | none => .error (.missingArgument index)

def readArg (s : State) (index : Nat) : Except Fault Int64 := do
  s.value (← s.operand index)

def writeArg (s : State) (index : Nat) (value : Int64) : Except Fault State := do
  s.store value (← s.operand index)

/-- A machine with the same registers at the target of the instruction that was fetched last, without
open calls. -/
def fork (items : List Item) (s : State) : State :=
  { registers := s.registers
    memory := s.memory
    counter := s.current.elim 0 (Instruction.targetIndex items) }

end State

end PrefixVM.Asm
