import PrefixVM.Text.Quoted

/-!
Why a source text cannot be assembled. Every cause but a failure to read the text carries the number of
the line it stands on.
-/
namespace PrefixVM.Asm

inductive Error where
  | unexpected (line : Nat) (text : String)
  /-- A line that fits none of the forms allowed at its place. -/
  | malformed (line : Nat) (message : String)
  | unknownInstruction (line : Nat) (mnemonic : String)
  | operandCount (line : Nat) (mnemonic : String) (expected found : Nat)
  | invalidRegister (line : Nat) (operand : String)
  | invalidConstant (line : Nat) (text : String)
  | undefinedLabel (line : Nat) (label : String)
  | duplicateLabel (line : Nat) (label : String)
  | invalidDataByte (line : Nat) (text : String)
  | invalidDirective (line : Nat) (directive : String)
  | io (reason : String)
  deriving DecidableEq, Repr

namespace Error

def line? : Error → Option Nat
  | unexpected line _ | malformed line _ | unknownInstruction line _ | operandCount line _ _ _
  | invalidRegister line _ | invalidConstant line _ | undefinedLabel line _ | duplicateLabel line _
  | invalidDataByte line _ | invalidDirective line _ => some line
  | io _ => none

def detail : Error → String
  | unexpected _ text => "unexpected character " ++ Text.quote text
  | malformed _ message => "syntax error: " ++ message
  | unknownInstruction _ mnemonic => "unknown instruction: " ++ mnemonic
  | operandCount _ mnemonic expected found => s!"{mnemonic} takes {expected} operands, found {found}"
  | invalidRegister _ operand => "invalid register: " ++ operand
  | invalidConstant _ text => "invalid constant: " ++ text
  | undefinedLabel _ label => "undefined label: " ++ label
  | duplicateLabel _ label => "duplicate label: " ++ label
  | invalidDataByte _ text => "invalid data byte: " ++ text
  | invalidDirective _ directive => "invalid directive: " ++ directive
  | io reason => "I/O error: " ++ reason

def message (e : Error) : String :=
  match e.line? with
  | some line => s!"Line {line}: " ++ e.detail
  | none => e.detail

end Error

end PrefixVM.Asm
