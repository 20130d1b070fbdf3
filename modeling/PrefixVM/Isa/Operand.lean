/-!
Operands: a register, or the memory a register points to. The operands of one instruction are collected
in an `Operands` record, together with the address and the constant that some operations carry.
-/
namespace PrefixVM

/-- How many bytes a memory operand covers. -/
inductive Width where
  | byte
  | word
  | dword
  | qword
  deriving DecidableEq, Repr, Inhabited

namespace Width

def selector : Width → Nat
  | byte => 0
  | word => 1
  | dword => 2
  | qword => 3

/-- The width that the two lowest bits of `n` select. -/
def ofSelector (n : Nat) : Width :=
  match n % 4 with
  | 0 => byte
  | 1 => word
  | 2 => dword
  | _ => qword

def bytes : Width → Nat
  | byte => 1
  | word => 2
  | dword => 4
  | qword => 8

def name : Width → String
  | byte => "byte"
  | word => "word"
  | dword => "dword"
  | qword => "qword"

def ofName? (text : String) : Option Width :=
  [byte, word, dword, qword].find? fun w => w.name == text

@[simp] theorem ofSelector_selector (w : Width) : ofSelector w.selector = w := by
  cases w <;> rfl

@[simp] theorem ofName?_name (w : Width) : ofName? w.name = some w := by
  cases w <;> decide

end Width

def registerCount : Nat := 16

inductive Operand where
  | register (index : UInt8)
  | memory (width : Width) (base : UInt8)
  deriving DecidableEq, Repr, Inhabited

namespace Operand

def index : Operand → UInt8
  | register i => i
  | memory _ i => i

def isMemory : Operand → Bool
  | register _ => false
  | memory _ _ => true

/-- The width of a memory operand, and a byte for a register. -/
def width : Operand → Width
  | register _ => .byte
  | memory w _ => w

def encodedLength : Operand → Nat
  | register _ => 5
  | memory _ _ => 7

def text : Operand → String
  | register i => "r" ++ toString i.toNat
  | memory w i => w.name ++ "[r" ++ toString i.toNat ++ "]"

def totalLength : List Operand → Nat
  | [] => 0
  | o :: rest => o.encodedLength + totalLength rest

end Operand

/-- What stands behind the codeword of an instruction. Fields that the operation does not use are
zero. -/
structure Operands where
  /-- Target of a jump, call or thread creation, as a bit offset. -/
  address : UInt32 := 0
  constant : Int64 := 0
  args : List Operand := []
  deriving DecidableEq, Repr, Inhabited

namespace Operands

def empty : Operands := {}

def arg? (o : Operands) (i : Nat) : Option Operand :=
  o.args[i]?

end Operands

end PrefixVM
