import PrefixVM.Bytes
import PrefixVM.Isa.Opcode
import PrefixVM.Isa.Operand

/-!
Bit strings: the fields an instruction is written in, and the packing of a bit string into code bytes.
Numbers are written lowest bit first; bytes are filled from their highest bit down, and the last byte
is completed with zeros.
-/
namespace PrefixVM

abbrev Bits := List Bool

namespace Bits

/-- The `width` lowest bits of `n`, lowest first. -/
def field : (width n : Nat) → Bits
  | 0, _ => []
  | width + 1, n => (n % 2 == 1) :: field width (n / 2)

def value : Bits → Nat
  | [] => 0
  | bit :: rest => bit.toNat + 2 * value rest

/-- The number whose bits, highest first, are given. -/
def bigValue (bits : Bits) : Nat :=
  bits.foldl (fun n bit => 2 * n + bit.toNat) 0

def addressWidth : Nat := 32

def constantWidth : Nat := 64

def ofAddress (address : UInt32) : Bits :=
  field addressWidth address.toNat

def ofConstant (constant : Int64) : Bits :=
  field constantWidth constant.toUInt64.toNat

/-- An operand: whether it lies in memory, then the width selector of a memory operand, then the four
lowest bits of the register index. -/
def ofOperand : Operand → Bits
  | .register i => false :: field 4 i.toNat
  | .memory w i => true :: (field 2 w.selector ++ field 4 i.toNat)

/-- An instruction: codeword, address and constant as the operation has them, then all operands. -/
def ofInstruction (op : Opcode) (o : Operands) : Bits :=
  op.codeword ++ (if op.hasAddress then ofAddress o.address else []) ++
    (if op.hasConstant then ofConstant o.constant else []) ++ o.args.flatMap ofOperand

/-- The value of up to eight bits that fill a byte from the place worth `weight` down. -/
def weigh : (weight : Nat) → Bits → Nat
  | _, [] => 0
  | weight, bit :: rest => (if bit then weight else 0) + weigh (weight / 2) rest

def octet (bits : Bits) : UInt8 :=
  UInt8.ofNat (weigh 128 bits)

/-- The bytes that hold a bit string, eight bits each, the last one completed with zeros. -/
def pack : Bits → Bytes
  | [] => []
  | bit :: rest => octet (bit :: rest.take 7) :: pack (rest.drop 7)
termination_by bits => bits.length
decreasing_by
  simp only [List.length_drop, List.length_cons]
  omega

@[simp] theorem length_field (width n : Nat) : (field width n).length = width := by
  induction width generalizing n with
  | zero => rfl
  | succ width ih => simp [field, ih]

@[simp] theorem length_ofOperand (o : Operand) : (ofOperand o).length = o.encodedLength := by
  cases o <;> simp [ofOperand, Operand.encodedLength]

theorem length_flatMap_ofOperand (args : List Operand) :
    (args.flatMap ofOperand).length = Operand.totalLength args := by
  induction args with
  | nil => rfl
  | cons o rest ih => simp [Operand.totalLength, ih]

end Bits

structure Writer where
  bits : Array Bool := #[]

namespace Writer

def length (w : Writer) : Nat :=
  w.bits.size

def append (w : Writer) (bits : Bits) : Writer :=
  ⟨bits.foldl Array.push w.bits⟩

def toBytes (w : Writer) : Bytes :=
  Bits.pack w.bits.toList

@[simp] theorem toList_append (w : Writer) (bits : Bits) :
    (w.append bits).bits.toList = w.bits.toList ++ bits := by
  simp [append]

@[simp] theorem length_append (w : Writer) (bits : Bits) :
    (w.append bits).length = w.length + bits.length := by
  simp [append, length]

end Writer

end PrefixVM
