import PrefixVM.Asm.Literal
import PrefixVM.Asm.Token
import PrefixVM.Isa.Opcode
import PrefixVM.Bytes

/-!
Parsed sources. A source is a list of code items (labels and instructions, in order), the bytes of
initial data and the declared memory size. Lines belong to the section named by the last section
directive above them, and to the code section before the first. Labels are unique within their section;
those of the data section have no further meaning.
-/
namespace PrefixVM.Asm

inductive Target where
  | label (name : String)
  | offset (bits : UInt32)
  deriving DecidableEq, Repr

structure Instruction where
  line : Nat
  opcode : Opcode
  target : Option Target := none
  constant : Int64 := 0
  args : List Operand := []
  deriving DecidableEq, Repr

inductive Item where
  | label (line : Nat) (name : String)
  | instruction (i : Instruction)
  deriving DecidableEq, Repr

structure Source where
  dataSize : Option UInt32 := none
  code : List Item := []
  data : Bytes := []
  deriving DecidableEq, Repr

namespace Instruction

/-- The parts of a token list between its commas; a list without tokens has no parts. -/
def splitOperands : List Token → List (List Token)
  | [] => []
  | tokens => split tokens
where
  split : List Token → List (List Token)
    | [] => [[]]
    | .comma :: rest => [] :: split rest
    | t :: rest =>
      match split rest with
      | [] => [[t]]
      | part :: parts => (t :: part) :: parts

def writtenCount (op : Opcode) : Nat :=
  op.hasAddress.toNat + op.hasConstant.toNat + op.operandCount

/-- Reads a target: a constant that is a 32-bit offset, or a label. -/
def parseTarget (line : Nat) : List Token → Except Error Target
  | [.word text] =>
    -- a word that can be a constant is never a label
    match constant? text with
    | some value =>
      if 0 ≤ value ∧ value.toInt.toNat < UInt32.size then
        .ok (.offset (UInt32.ofNat value.toInt.toNat))
      else .error (.invalidConstant line text)
    | none =>
      if text.toList.head?.any isNameStart then .ok (.label text)
      else .error (.malformed line "expected a label or bit offset")
  | _ => .error (.malformed line "expected a label or bit offset")

def parseConstant (line : Nat) : List Token → Except Error Int64
  | [.word text] =>
    match constant? text with
    | some value => .ok value
    | none => .error (.invalidConstant line text)
  | _ => .error (.malformed line "expected a constant")

def parseOperand (line : Nat) : List Token → Except Error Operand
  | [.word name] => return .register (← register line name)
  | [.word width, .openBracket, .word name, .closeBracket] =>
    match Width.ofName? width with
    | some w => return .memory w (← register line name)
    | none => .error (.malformed line ("unknown access size " ++ width))
  | _ => .error (.malformed line "expected a register or memory operand")

/-- Reads the target that the operation asks for, and returns the operands behind it. -/
def takeTarget (line : Nat) (op : Opcode) (operands : List (List Token)) :
    Except Error (Option Target × List (List Token)) :=
  match op.hasAddress, operands with
  | true, first :: rest => return (some (← parseTarget line first), rest)
  | _, operands => return (none, operands)

def takeConstant (line : Nat) (op : Opcode) (operands : List (List Token)) :
    Except Error (Int64 × List (List Token)) :=
  match op.hasConstant, operands with
  | true, first :: rest => return (← parseConstant line first, rest)
  | _, operands => return (0, operands)

/-- Reads the instruction on a line: a mnemonic, then the operands of its operation between commas,
the target first, then the constant, then registers and memory. -/
def parse (line : Nat) : List Token → Except Error Instruction
  | .word mnemonic :: rest => do
    let some opcode := Opcode.ofMnemonic? mnemonic
      | throw (.unknownInstruction line mnemonic)
    -- operands are counted before any of them is read
    let operands := splitOperands rest
    if operands.length ≠ writtenCount opcode then
      throw (.operandCount line mnemonic (writtenCount opcode) operands.length)
    let (target, operands) ← takeTarget line opcode operands
    let (constant, operands) ← takeConstant line opcode operands
    let args ← operands.mapM (parseOperand line)
    return { line, opcode, target, constant, args }
  | _ => .error (.malformed line "expected an instruction")

end Instruction

inductive Section where
  | code
  | data
  deriving DecidableEq, Repr

structure Progress where
  source : Source := {}
  /-- The section that the next line belongs to. -/
  current : Section := .code
  codeLabels : List String := []
  dataLabels : List String := []
  deriving DecidableEq, Repr

namespace Progress

def directive (p : Progress) (line : Nat) (name : String) (rest : List Token) :
    Except Error Progress :=
  match name, rest with
  | "code", [] => .ok { p with current := .code }
  | "data", [] => .ok { p with current := .data }
  | "dataSize", [.word text] =>
    if p.source.dataSize.isSome then .error (.malformed line "duplicate .dataSize")
    else
      match Numeral.parse? 10 UInt32.size text.toList with
      | some n => .ok { p with source := { p.source with dataSize := some (UInt32.ofNat n) } }
      | none => .error (.invalidConstant line text)
  | _, _ => .error (.invalidDirective line ("." ++ name))

def label (p : Progress) (line : Nat) (name : String) : Except Error Progress :=
  match p.current with
  | .code =>
    if name ∈ p.codeLabels then .error (.duplicateLabel line name)
    else
      .ok { p with
        codeLabels := name :: p.codeLabels
        source := { p.source with code := p.source.code ++ [.label line name] } }
  | .data =>
    if name ∈ p.dataLabels then .error (.duplicateLabel line name)
    else .ok { p with dataLabels := name :: p.dataLabels }

def dataByte (line : Nat) (t : Token) : Except Error UInt8 :=
  let value := match t with
    | .word text => Numeral.parse? 16 256 text.toList
    | _ => none
  match value with
  | some n => .ok (UInt8.ofNat n)
  | none => .error (.invalidDataByte line t.text)

def line (p : Progress) (l : Line) : Except Error Progress :=
  match l.tokens with
  | .directive name :: rest => p.directive l.number name rest
  -- directives and labels read alike in both sections
  | [.word name, .colon] => p.label l.number name
  | tokens =>
    match p.current with
    | .code => do
      let i ← Instruction.parse l.number tokens
      return { p with source := { p.source with code := p.source.code ++ [.instruction i] } }
    | .data => do
      let bytes ← tokens.mapM (dataByte l.number)
      return { p with source := { p.source with data := p.source.data ++ bytes } }

end Progress

namespace Source

def parse (text : String) : Except Error Source := do
  let lines ← tokenize text
  let p ← lines.foldlM Progress.line {}
  return p.source

end Source

end PrefixVM.Asm
