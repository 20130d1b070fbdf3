import PrefixVM.Asm.Error
import PrefixVM.Isa.Operand

/-!
Numbers and registers in assembly text. A constant is decimal, hexadecimal behind `0x` or `0X`, or
binary behind `0b`; without a minus sign it may use all 64 bits, with one its magnitude is at most
2^63. A register is the letter `r` and a decimal number below 16.
-/
namespace PrefixVM.Asm

def splitSign : List Char → Bool × List Char
  | '-' :: digits => (true, digits)
  | digits => (false, digits)

/-- The magnitude of a constant, below 2^64. -/
def magnitude? : List Char → Option Nat
  | '0' :: 'x' :: digits => Numeral.parse? 16 UInt64.size digits
  | '0' :: 'X' :: digits => Numeral.parse? 16 UInt64.size digits
  | '0' :: 'b' :: digits => Numeral.parse? 2 UInt64.size digits
  | digits => Numeral.parse? 10 UInt64.size digits

/-- The value of a constant, in two's complement. -/
def constant? (text : String) : Option Int64 := do
  let (negative, digits) := splitSign text.toList
  let magnitude ← magnitude? digits
  if negative then
    if magnitude ≤ 0x8000000000000000 then some (Int64.ofInt (-magnitude)) else none
  else some (Int64.ofInt magnitude)

def registerIndex? (text : String) : Option UInt8 :=
  match text.toList with
  | 'r' :: digits => (Numeral.parse? 10 registerCount digits).map UInt8.ofNat
  | _ => none

def register (line : Nat) (text : String) : Except Error UInt8 :=
  match registerIndex? text with
  | some i => .ok i
  | none => .error (.invalidRegister line text)

end PrefixVM.Asm
