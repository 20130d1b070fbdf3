import PrefixVM.Decoder
import PrefixVM.Image

/-!
Listings: the instructions of an image in stream order, and their text. Decoding runs from the first bit
to the padding, or up to and including the first unassigned codeword.
-/
namespace PrefixVM

def instructionText (op : Opcode) (o : Operands) : String :=
  let address := if op.hasAddress then [toString o.address.toNat] else []
  let constant := if op.hasConstant then [toString o.constant.toInt] else []
  match address ++ constant ++ o.args.map Operand.text with
  | [] => op.mnemonic
  | operands => op.mnemonic ++ " " ++ String.intercalate ", " operands

structure Entry where
  offset : UInt32
  opcode : Opcode
  operands : Operands
  deriving DecidableEq, Repr

namespace Entry

def text (e : Entry) : String :=
  instructionText e.opcode e.operands

end Entry

namespace Listing

/-- The instructions from the decoder's cursor on, at most `fuel` of them. -/
def decodeFrom : (fuel : Nat) → Decoder → Except DecodeError (List Entry)
  | 0, _ => .ok []
  | fuel + 1, d => do
    let offset ← d.address
    let (result, d) := d.fetch
    let opcode ← result
    if opcode = .padding then return []
    let entry : Entry := { offset, opcode, operands := d.record }
    -- where an unassigned codeword ends is not known
    if opcode.isUnknown then return [entry]
    let rest ← decodeFrom fuel d
    return entry :: rest

/-- The instructions of a code. Every instruction takes a bit at least, so the number of bits bounds
their number. -/
def decode (code : Code) : Except DecodeError (List Entry) :=
  decodeFrom (code.length + 1) (Decoder.start code)

def padLeft (width : Nat) (text : String) : String :=
  String.ofList (List.replicate (width - text.length) ' ') ++ text

def line (e : Entry) : String :=
  padLeft 8 (toString e.offset.toNat) ++ ": " ++ e.text ++ "\n"

def heading (h : Header) (count : Nat) : String :=
  "# EVM2 image\n" ++
    s!"# code: {h.codeSize} bytes, data: {h.dataSize} bytes ({h.initialDataSize} initialised)\n" ++
    s!"# {count} instructions\n\n"

end Listing

namespace Image

def decode (image : Image) : Except DecodeError (List Entry) :=
  Listing.decode image.machineCode

def disassemble (image : Image) : Except DecodeError String := do
  let entries ← image.decode
  return Listing.heading image.header entries.length ++ String.join (entries.map Listing.line)

end Image

end PrefixVM
