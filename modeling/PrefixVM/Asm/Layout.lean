import PrefixVM.Asm.Source
import PrefixVM.Image

/-!
From a parsed source to an image. Instructions have a length that does not depend on where labels lie,
so a first pass finds the bit offset of every label and a second one writes the instructions with their
labels resolved. A label that is defined twice stands for its last place.
-/
namespace PrefixVM.Asm

namespace Instruction

def length (i : Instruction) : Nat :=
  i.opcode.codeword.length + (if i.opcode.hasAddress then Bits.addressWidth else 0) +
    (if i.opcode.hasConstant then Bits.constantWidth else 0) +
    Operand.totalLength i.args

end Instruction

abbrev Labels := List (String × UInt32)

namespace Labels

/-- The labels of a list of items that starts at bit `position`; offsets count modulo 2^32. -/
def ofItems (position : Nat) : List Item → Labels
  | [] => []
  | .label _ name :: rest => (name, UInt32.ofNat position) :: ofItems position rest
  | .instruction i :: rest => ofItems (position + i.length) rest

/-- The offset of the last definition of a name. -/
def find? (labels : Labels) (name : String) : Option UInt32 :=
  labels.foldl (fun found entry => if entry.1 = name then some entry.2 else found) none

end Labels

namespace Instruction

def resolve (i : Instruction) (labels : Labels) : Except Error UInt32 :=
  match i.opcode.hasAddress, i.target with
  | true, some (.offset bits) => .ok bits
  | true, some (.label name) =>
    match Labels.find? labels name with
    | some offset => .ok offset
    | none => .error (.undefinedLabel i.line name)
  -- nothing is written for an operation without an address
  | _, _ => .ok 0

def operands (i : Instruction) (address : UInt32) : Operands :=
  { address
    constant := if i.opcode.hasConstant then i.constant else 0
    args := i.args }

end Instruction

def writeItem (labels : Labels) (w : Writer) : Item → Except Error Writer
  | .label _ _ => .ok w
  | .instruction i => do
    let address ← i.resolve labels
    return w.append (Bits.ofInstruction i.opcode (i.operands address))

def encode (items : List Item) : Except Error Bytes := do
  let w ← items.foldlM (writeItem (Labels.ofItems 0 items)) {}
  return w.toBytes

structure Assembly where
  image : Image
  /-- The declared memory size and the size of the initial data, when the former is too small. -/
  expanded : Option (UInt32 × UInt32) := none

/-- Assembles a source text. Memory has the declared size, or that of the initial data if it is larger
or nothing is declared. -/
def assemble (text : String) : Except Error Assembly := do
  let source ← Source.parse text
  let code ← encode source.code
  let used := UInt32.ofNat source.data.length
  match source.dataSize with
  | some declared =>
    if declared < used then
      return { image := Image.make code source.data used, expanded := some (declared, used) }
    else return { image := Image.make code source.data declared }
  | none => return { image := Image.make code source.data used }

@[simp] theorem length_ofInstruction (i : Instruction) (address : UInt32) :
    (Bits.ofInstruction i.opcode (i.operands address)).length = i.length := by
  simp only [Bits.ofInstruction, Instruction.operands, Instruction.length, List.length_append,
    Bits.length_flatMap_ofOperand]
  split <;> split <;> simp [Bits.ofAddress, Bits.ofConstant]

end PrefixVM.Asm
