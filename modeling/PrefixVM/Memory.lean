import PrefixVM.Fault

/-!
Memory: one segment of bytes that all threads of a process share. Every access names a signed address
and a number of bytes, and succeeds exactly when all of them lie inside the segment. Numbers are
little-endian; a read fills the missing high bytes with zeros and a write drops them.
-/
namespace PrefixVM

structure Memory where
  cells : Array UInt8 := #[]
  deriving DecidableEq

namespace Memory

def zeros (n : Nat) : Memory :=
  ⟨Array.replicate n 0⟩

def ofImage (image : Image) : Memory :=
  ⟨image.memoryCells⟩

def size (m : Memory) : Nat :=
  m.cells.size

/-- The place of the first of `count` bytes at `address`, if all of them lie inside. -/
def place (m : Memory) (address : Int64) (count : Nat) : Except Fault Nat :=
  -- natural numbers, so that the end of an access near the highest address does not wrap around
  if 0 ≤ address.toInt ∧ address.toInt.toNat + count ≤ m.size then .ok address.toInt.toNat
  else .error (.memoryRange address count m.size)

def load (cells : Array UInt8) (start count : Nat) : Bytes :=
  (cells.extract start (start + count)).toList

def store (cells : Array UInt8) (start : Nat) : Bytes → Array UInt8
  | [] => cells
  | b :: rest => store (cells.setIfInBounds start b) (start + 1) rest

def readBytes (m : Memory) (address : Int64) (count : Nat) : Except Fault Bytes := do
  let start ← m.place address count
  return load m.cells start count

def writeBytes (m : Memory) (address : Int64) (bytes : Bytes) : Except Fault Memory := do
  let start ← m.place address bytes.length
  return ⟨store m.cells start bytes⟩

def check (m : Memory) (address : Int64) (count : Nat) : Except Fault Unit := do
  let _ ← m.place address count

def read (m : Memory) (address : Int64) (width : Width) : Except Fault Int64 := do
  let bytes ← m.readBytes address width.bytes
  return (UInt64.ofNat (Bytes.toNatLE bytes)).toInt64

/-- Replaces the bytes from `start` on by the low bytes of a number. -/
def put (m : Memory) (start : Nat) (width : Width) (value : Int64) : Memory :=
  ⟨store m.cells start (Bytes.ofNatLE width.bytes value.toUInt64.toNat)⟩

def write (m : Memory) (address : Int64) (width : Width) (value : Int64) : Except Fault Memory := do
  let start ← m.place address width.bytes
  return m.put start width value

@[simp] theorem size_store (cells : Array UInt8) (start : Nat) (bytes : Bytes) :
    (store cells start bytes).size = cells.size := by
  induction bytes generalizing cells start with
  | nil => rfl
  | cons b rest ih => simp [store, ih]

end Memory

end PrefixVM
