import PrefixVM.Memory

/-!
The data file of a process: a flat array of bytes that is read and written at any offset. Reading stops
at the end of the file; writing behind the end fills the gap with zeros. Nothing happens while the file
is closed. The system that keeps the file may limit its length, and refuses a write beyond the limit.
-/
namespace PrefixVM

inductive FileSlot where
  | absent
  | regular (content : Bytes)
  /-- Something that cannot be opened, for the given reason. -/
  | blocked (reason : String)
  deriving DecidableEq, Repr

namespace FileSlot

def content? : FileSlot → Option Bytes
  | regular content => some content
  | _ => none

end FileSlot

/-- A limit that a system sets to the length of files, and the reason that it gives for a refusal. -/
structure FileLimit where
  length : Nat
  reason : String
  deriving DecidableEq, Repr

namespace FileLimit

/-- The answer of a system to the request for a file of some length. -/
def grant (limit : Option FileLimit) (length : Nat) : Except Fault Unit :=
  match limit with
  | none => .ok ()
  | some l => if l.length < length then .error (.io l.reason) else .ok ()

end FileLimit

structure DataFile where
  slot : FileSlot := .absent
  isOpen : Bool := false
  limit : Option FileLimit := none
  deriving DecidableEq, Repr

namespace DataFile

/-- The content with `data` at `offset`; a gap is filled with zeros. -/
def splice (content : Bytes) (offset : Nat) (data : Bytes) : Bytes :=
  content.take offset ++ List.replicate (offset - content.length) 0 ++ data ++
    content.drop (offset + data.length)

/-- Copies up to `count` bytes at `offset` of the content to memory. The answer is the number of bytes
copied. -/
def readContent (content : Bytes) (offset count : Int64) (m : Memory) (address : Int64) :
    Except Fault (Int64 × Memory) :=
  if offset < 0 ∨ count ≤ 0 ∨ content.length ≤ offset.toInt.toNat then .ok (0, m)
  else do
    -- the file may end before the count is reached
    let data := (content.drop offset.toInt.toNat).take count.toInt.toNat
    let m ← m.writeBytes address data
    return (Int64.ofNat data.length, m)

/-- Copies `count` bytes of memory to `offset` of the content. -/
def writeContent (limit : Option FileLimit) (content : Bytes) (offset count : Int64) (m : Memory)
    (address : Int64) : Except Fault Bytes :=
  if offset < 0 then .error (.fileOffset offset)
  else do
    -- a negative count copies nothing, but the gap in front of the offset is filled
    let data ← m.readBytes address count.toInt.toNat
    FileLimit.grant limit (offset.toInt.toNat + data.length)
    return splice content offset.toInt.toNat data

/-- Opens what is found in the place of a file, which is created if it is missing. -/
def openSlot (slot : FileSlot) (limit : Option FileLimit := none) : Except Fault DataFile :=
  match slot with
  | .absent => .ok { slot := .regular [], isOpen := true, limit }
  | .regular content => .ok { slot := .regular content, isOpen := true, limit }
  | .blocked reason => .error (.io reason)

def content? (f : DataFile) : Option Bytes :=
  if f.isOpen then f.slot.content? else none

def read (f : DataFile) (offset count : Int64) (m : Memory) (address : Int64) :
    Except Fault (Int64 × Memory) :=
  match f.content? with
  | none => .ok (0, m)
  | some content => readContent content offset count m address

def write (f : DataFile) (offset count : Int64) (m : Memory) (address : Int64) :
    Except Fault DataFile :=
  match f.content? with
  | none => .ok f
  | some content => do
    let content ← writeContent f.limit content offset count m address
    return { f with slot := .regular content }

def close (f : DataFile) : DataFile :=
  { f with isOpen := false }

end DataFile

end PrefixVM
