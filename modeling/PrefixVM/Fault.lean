import PrefixVM.Decoder
import PrefixVM.Image

/-!
Why a machine, a thread or a process fails. Faults fall into six kinds; those of images and of decoding
carry the underlying error as their cause.
-/
namespace PrefixVM

inductive Fault where
  | image (cause : ImageError)
  | decode (cause : DecodeError)
  | registerRange (register : UInt8)
  | missingArgument (index : Nat)
  /-- An access to `size` bytes at `address` of a memory of `limit` bytes. -/
  | memoryRange (address : Int64) (size limit : Nat)
  | divisionByZero (address : UInt32)
  | stackOverflow (address : UInt32)
  | stackUnderflow (address : UInt32)
  | unknownInstruction (op : Opcode)
  /-- An operation that a process has no service for. -/
  | unserviced (op : Opcode)
  | invalidThread (index : Int64)
  | alreadyJoined (index : Nat)
  | selfJoin (index : Nat)
  | reentrantLock (lock : Int64) (thread : Nat)
  | fileOffset (offset : Int64)
  | alreadyStarted
  | io (reason : String)
  deriving DecidableEq, Repr

inductive FaultKind where
  | imageFormat
  /-- A jump target, register, thread index or call depth out of range. -/
  | outOfRange
  | memoryRange
  | division
  | notImplemented
  | io
  deriving DecidableEq, Repr

namespace Fault

def kind : Fault → FaultKind
  | image _ => .imageFormat
  | decode _ | registerRange _ | stackOverflow _ | stackUnderflow _ | invalidThread _ => .outOfRange
  | memoryRange _ _ _ => .memoryRange
  | divisionByZero _ => .division
  | missingArgument _ | unknownInstruction _ | unserviced _ | alreadyJoined _ | selfJoin _
  | reentrantLock _ _ | alreadyStarted => .notImplemented
  | fileOffset _ | io _ => .io

/-- The wording of the fault. An address is shown as its 64-bit pattern. -/
def message : Fault → String
  | image cause => "Image error: " ++ cause.message
  | decode cause => cause.message
  | registerRange register => s!"Access register out of range: r{register}"
  | missingArgument index => s!"Instruction has no argument {index}"
  | memoryRange address size limit =>
    s!"Memory out of range: {size} bytes at 0x" ++ Numeral.hex address.toUInt64.toNat ++
      ", memory size 0x" ++ Numeral.hex limit
  | divisionByZero address => s!"Division by zero at bit {address}"
  | stackOverflow address => s!"Stack overflow at bit {address}"
  | stackUnderflow address => s!"Stack underflow at bit {address}"
  | unknownInstruction op => "Unimplemented instruction " ++ op.codewordText
  | unserviced op => "Unimplemented instruction: " ++ op.mnemonic ++ " has no process service"
  | invalidThread index => s!"Invalid join thread argument: {index}"
  | alreadyJoined index => s!"Threads should be joined once: thread {index}"
  | selfJoin index => s!"Thread {index} cannot join itself"
  | reentrantLock lock thread =>
    s!"Lock {lock} is already held by thread {thread}; locks are not re-entrant"
  | fileOffset offset => s!"Invalid binary file offset: {offset}"
  | alreadyStarted => "Process has already been started"
  | io reason => "I/O error: " ++ reason

end Fault

end PrefixVM
