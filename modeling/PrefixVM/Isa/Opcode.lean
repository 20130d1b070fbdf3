/-!
Operations of the machine and their variable-length code. The codewords form a complete prefix-free
code: every infinite bit sequence starts with exactly one of them, and none is longer than six bits.
Three codewords are unassigned; two further operations, the end of the stream and a cancelled run, are
never encoded.
-/
namespace PrefixVM

inductive Opcode where
  | mov
  | loadConst
  | add
  | sub
  | div
  | mod
  | mul
  | compare
  | jump
  | jumpEqual
  | call
  | ret
  | read
  | write
  | consoleRead
  | consoleWrite
  | createThread
  | joinThread
  | halt
  | sleep
  | lock
  | unlock
  | unknown01011
  | unknown01111
  | unknown010000
  /-- The end of the instruction stream. -/
  | padding
  /-- A cancelled run. -/
  | stopped
  deriving DecidableEq, Repr, Inhabited

namespace Opcode

def encoded : List Opcode :=
  [mov, loadConst, unknown010000, add, sub, div, mod, mul, unknown01011, compare, jump, jumpEqual,
    unknown01111, read, write, consoleRead, consoleWrite, createThread, joinThread, halt, sleep,
    call, ret, lock, unlock]

/-- The two bit values, as the code table writes them. -/
@[match_pattern] private abbrev O : Bool := false
@[match_pattern] private abbrev I : Bool := true

/-- The codeword of an operation, in stream order; empty for the two that are never encoded. -/
def codeword : Opcode → List Bool
  | mov => [O, O, O]
  | loadConst => [O, O, I]
  | unknown010000 => [O, I, O, O, O, O]
  | add => [O, I, O, O, O, I]
  | sub => [O, I, O, O, I, O]
  | div => [O, I, O, O, I, I]
  | mod => [O, I, O, I, O, O]
  | mul => [O, I, O, I, O, I]
  | unknown01011 => [O, I, O, I, I]
  | compare => [O, I, I, O, O]
  | jump => [O, I, I, O, I]
  | jumpEqual => [O, I, I, I, O]
  | unknown01111 => [O, I, I, I, I]
  | read => [I, O, O, O, O]
  | write => [I, O, O, O, I]
  | consoleRead => [I, O, O, I, O]
  | consoleWrite => [I, O, O, I, I]
  | createThread => [I, O, I, O, O]
  | joinThread => [I, O, I, O, I]
  | halt => [I, O, I, I, O]
  | sleep => [I, O, I, I, I]
  | call => [I, I, O, O]
  | ret => [I, I, O, I]
  | lock => [I, I, I, O]
  | unlock => [I, I, I, I]
  | padding => []
  | stopped => []

def maxCodewordLength : Nat := 6

def ofCodeword? : (word : List Bool) → Option Opcode
  | [O, O, O] => some mov
  | [O, O, I] => some loadConst
  | [O, I, O, O, O, O] => some unknown010000
  | [O, I, O, O, O, I] => some add
  | [O, I, O, O, I, O] => some sub
  | [O, I, O, O, I, I] => some div
  | [O, I, O, I, O, O] => some mod
  | [O, I, O, I, O, I] => some mul
  | [O, I, O, I, I] => some unknown01011
  | [O, I, I, O, O] => some compare
  | [O, I, I, O, I] => some jump
  | [O, I, I, I, O] => some jumpEqual
  | [O, I, I, I, I] => some unknown01111
  | [I, O, O, O, O] => some read
  | [I, O, O, O, I] => some write
  | [I, O, O, I, O] => some consoleRead
  | [I, O, O, I, I] => some consoleWrite
  | [I, O, I, O, O] => some createThread
  | [I, O, I, O, I] => some joinThread
  | [I, O, I, I, O] => some halt
  | [I, O, I, I, I] => some sleep
  | [I, I, O, O] => some call
  | [I, I, O, I] => some ret
  | [I, I, I, O] => some lock
  | [I, I, I, I] => some unlock
  | _ => none

def codewordText (op : Opcode) : String :=
  String.ofList (op.codeword.map fun bit => if bit then '1' else '0')

def hasAddress : Opcode → Bool
  | jump | jumpEqual | createThread | call => true
  | _ => false

def hasConstant : Opcode → Bool
  | loadConst => true
  | _ => false

def operandCount : Opcode → Nat
  | read => 4
  | add | sub | div | mod | mul | compare | write => 3
  | mov | jumpEqual => 2
  | loadConst | consoleRead | consoleWrite | createThread | joinThread | sleep | lock | unlock => 1
  | _ => 0

def maxOperandCount : Nat := 4

def isUnknown : Opcode → Bool
  | unknown01011 | unknown01111 | unknown010000 => true
  | _ => false

/-- Whether a machine carries the operation out by itself, without a service of its process. -/
def isComputational : Opcode → Bool
  | mov | loadConst | add | sub | div | mod | mul | compare | jump | jumpEqual | call | ret => true
  | _ => false

def mnemonic : Opcode → String
  | mov => "mov"
  | loadConst => "loadConst"
  | add => "add"
  | sub => "sub"
  | div => "div"
  | mod => "mod"
  | mul => "mul"
  | compare => "compare"
  | jump => "jump"
  | jumpEqual => "jumpEqual"
  | call => "call"
  | ret => "ret"
  | read => "read"
  | write => "write"
  | consoleRead => "consoleRead"
  | consoleWrite => "consoleWrite"
  | createThread => "createThread"
  | joinThread => "joinThread"
  | halt => "hlt"
  | sleep => "sleep"
  | lock => "lock"
  | unlock => "unlock"
  | unknown01011 => ".unknown 01011"
  | unknown01111 => ".unknown 01111"
  | unknown010000 => ".unknown 010000"
  | padding => ".padding"
  | stopped => ".stopped"

def ofMnemonic? (name : String) : Option Opcode :=
  encoded.find? fun op => !op.isUnknown && op.mnemonic == name

theorem ofCodeword?_codeword (op : Opcode) (h : op ∈ encoded) : ofCodeword? op.codeword = some op := by
  revert op
  decide

theorem codeword_of_ofCodeword? {word : List Bool} {op : Opcode} (h : ofCodeword? word = some op) :
    op.codeword = word := by
  unfold ofCodeword? at h
  split at h <;> simp only [Option.some.injEq, reduceCtorEq] at h <;> subst h <;> rfl

/-- No codeword starts another one. -/
theorem eq_of_codeword_isPrefixOf :
    ∀ a ∈ encoded, ∀ b ∈ encoded, a.codeword.isPrefixOf b.codeword → a = b := by
  decide

theorem operandCount_le (op : Opcode) : op.operandCount ≤ maxOperandCount := by
  cases op <;> decide

end Opcode

end PrefixVM
