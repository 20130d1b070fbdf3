import PrefixVM.Stream
import PrefixVM.Text.Numeral

/-!
Decoding. A decoder is a cursor over a code; fetching reads one instruction at the cursor and keeps its
operands in a record. The cursor and the record are kept when a fetch fails half-way, so that the record
shows what was complete by then.
-/
namespace PrefixVM

inductive DecodeError where
  | jumpOutOfRange (address : UInt32) (limit : Nat)
  | streamExhausted (position : Nat)
  | invalidPrefix (bits : UInt8)
  | addressOverflow (position : Nat)
  deriving DecidableEq, Repr

namespace DecodeError

/-- Six or more binary digits of a number. -/
def binary6 (n : Nat) : String :=
  let digits := Nat.toDigits 2 n
  String.ofList (List.replicate (6 - digits.length) '0' ++ digits)

def message : DecodeError → String
  | jumpOutOfRange address limit =>
    s!"Instruction call/jump/jumpEqual out of range: address {address} beyond {limit} bits"
  | streamExhausted position => s!"Instruction stream exhausted at bit {position}"
  | invalidPrefix bits => "Invalid prefix code: 0b" ++ binary6 bits.toNat
  | addressOverflow position => s!"Bit position {position} does not fit a 32-bit address"

end DecodeError

structure Decoder where
  code : Code
  cursor : Nat := 0
  record : Operands := {}

/-- A reading operation of a decoder; the decoder is kept when the operation fails. -/
abbrev Reading := EStateM DecodeError Decoder

namespace Reading

def bit : Reading Bool := do
  let d ← get
  match d.code.bit? d.cursor with
  | some b =>
    set { d with cursor := d.cursor + 1 }
    return b
  | none => throw (.streamExhausted d.cursor)

/-- Reads a number of `width` bits, lowest first. -/
def field (width : Nat) : Reading Nat := do
  let d ← get
  if d.cursor + width ≤ d.code.length then
    set { d with cursor := d.cursor + width }
    return d.code.number d.cursor width
  else
    -- a number that is cut off uses up the code
    let position := max d.cursor d.code.length
    set { d with cursor := position }
    throw (.streamExhausted position)

/-- Reads bits until those read since `word` started form a codeword, with at most `n` bits to go. -/
def opcodeFrom (word : List Bool) : (n : Nat) → Reading Opcode
  | 0 => throw (.invalidPrefix (UInt8.ofNat (Bits.bigValue word)))
  | n + 1 => do
    let word := word.concat (← bit)
    match Opcode.ofCodeword? word with
    | some op => return op
    | none => opcodeFrom word n

def opcode : Reading Opcode :=
  opcodeFrom [] Opcode.maxCodewordLength

def operand : Reading Operand := do
  if ← bit then
    let width := Width.ofSelector (← field 2)
    return .memory width (UInt8.ofNat (← field 4))
  else
    return .register (UInt8.ofNat (← field 4))

def operands : (n : Nat) → Reading Unit
  | 0 => return ()
  | n + 1 => do
    let o ← operand
    modify fun d => { d with record := { d.record with args := d.record.args ++ [o] } }
    operands n

def body (op : Opcode) : Reading Unit := do
  if op.hasAddress then
    let address := UInt32.ofNat (← field Bits.addressWidth)
    modify fun d => { d with record := { d.record with address } }
  if op.hasConstant then
    let constant := (UInt64.ofNat (← field Bits.constantWidth)).toInt64
    modify fun d => { d with record := { d.record with constant } }
  operands op.operandCount

/-- Reads one instruction, or finds that the rest of the code is padding. -/
def instruction : Reading Opcode := do
  -- nothing of an earlier instruction may show, also when this one is cut off
  modify fun d => { d with record := {} }
  let d ← get
  if d.code.isPadding d.cursor then return .padding
  let op ← opcode
  body op
  return op

end Reading

namespace Decoder

def fetch (d : Decoder) : Except DecodeError Opcode × Decoder :=
  match Reading.instruction.run d with
  | .ok op d => (.ok op, d)
  | .error e d => (.error e, d)

def address (d : Decoder) : Except DecodeError UInt32 :=
  if d.cursor < UInt32.size then .ok (UInt32.ofNat d.cursor) else .error (.addressOverflow d.cursor)

def jump (d : Decoder) (target : UInt32) : Except DecodeError Decoder :=
  if target.toNat < d.code.length then .ok { d with cursor := target.toNat }
  else .error (.jumpOutOfRange target d.code.length)

def start (code : Code) : Decoder :=
  { code }

def startAt (code : Code) (entry : UInt32) : Except DecodeError Decoder :=
  (start code).jump entry

end Decoder

end PrefixVM
