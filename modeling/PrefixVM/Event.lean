import PrefixVM.Console
import PrefixVM.Fault

/-!
Events that a process reports while it runs. Every event belongs to the process or to one of its
threads, and has a level and a text.
-/
namespace PrefixVM

inductive Event where
  | started (codeBits memory : Nat)
  | terminated
  | fileOpened
  | fileClosed
  | stopRequested
  | malformedInput (word : String)
  | unreadableInput
  /-- A declared memory size that does not hold the initial data. -/
  | sizeExpanded (declared used : UInt32)
  | service (thread : Nat) (op : Opcode)
  | sleep (thread : Nat) (milliseconds : Nat)
  | stopped (thread : Nat) (fault : Fault)
  | lockCreated (thread : Nat) (lock : Int64)
  | threadCreated (parent child : Nat) (address : UInt32)
  | join (thread : Nat) (target : Int64)
  deriving DecidableEq, Repr

namespace Event

def ofTrouble : Console.Trouble → Event
  | .malformed word => .malformedInput word
  | .unreadable => .unreadableInput

/-- The digits behind the point of `n` thousandths, without trailing zeros. -/
def thousandths (n : Nat) : String :=
  if n = 0 then ""
  else if n % 100 = 0 then s!".{n / 100}"
  else if n % 10 = 0 then "." ++ (if n < 100 then "0" else "") ++ toString (n / 10)
  else "." ++ (if n < 10 then "00" else if n < 100 then "0" else "") ++ toString n

/-- A length of time: nothing in nanoseconds, less than a second in milliseconds, else in seconds. -/
def duration (milliseconds : Nat) : String :=
  if milliseconds = 0 then "0ns"
  else if milliseconds < 1000 then s!"{milliseconds}ms"
  else toString (milliseconds / 1000) ++ thousandths (milliseconds % 1000) ++ "s"

def thread? : Event → Option Nat
  | service thread _ | sleep thread _ | stopped thread _ | lockCreated thread _
  | threadCreated thread _ _ | join thread _ => some thread
  | _ => none

def text : Event → String
  | started codeBits memory => s!"info process started code_bits={codeBits} memory={memory}"
  | terminated => "info process terminated"
  | fileOpened => "debug binary file opened"
  | fileClosed => "debug binary file closed"
  | stopRequested => "debug stop requested"
  | malformedInput word => "warn malformed console input input=" ++ word
  | unreadableInput => "warn console read failed error=" ++ Utf8.invalid
  | sizeExpanded declared used => s!"warn bad .dataSize, expanding declared={declared} used={used}"
  | service _ op => "trace service opcode=" ++ op.mnemonic
  | sleep _ milliseconds => "debug sleep total=" ++ duration milliseconds
  | stopped _ fault => "error thread has been stopped error=" ++ fault.message
  | lockCreated _ lock => s!"debug lock created lock={lock}"
  | threadCreated _ child address => s!"debug thread created thread={child} address={address}"
  | join _ target => s!"debug join target={target}"

end Event

end PrefixVM
