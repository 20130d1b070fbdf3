import PrefixVM.Bits

/-!
The instruction stream. Code bytes are stored with their highest bit first in the stream; loading turns
every byte around, so that stream bit `i` is bit `i % 8` of block `i / 8`. The position of the last set
bit decides where trailing zeros may be padding; a `Code` carries it along with its stream.
-/
namespace PrefixVM

/-- Turns the bits of a byte around: copies of the byte are spread out, one bit of each is kept, and the
remainder modulo 1023 adds them up in reverse order. -/
def turnByte (b : UInt8) : UInt8 :=
  ((b.toUInt64 * 0x0202020202 &&& 0x010884422010) % 1023).toUInt8

@[inline]
def byteBit (b : UInt8) (k : Nat) : Bool :=
  ((b >>> UInt8.ofNat k) &&& 1) == 1

theorem byteBit_eq_testBit (b : UInt8) {k : Nat} (hk : k < 8) :
    byteBit b k = b.toNat.testBit k := by
  have hshift : (UInt8.ofNat k).toNat % 8 = k := by
    rw [UInt8.toNat_ofNat']
    omega
  have hlow : ((b >>> UInt8.ofNat k) &&& 1).toNat = (b.toNat >>> k) % 2 := by
    rw [UInt8.toNat_and, UInt8.toNat_shiftRight, hshift]
    exact Nat.and_one_is_mod _
  rw [byteBit, Nat.testBit_eq_decide_div_mod_eq, Bool.eq_iff_iff, beq_iff_eq, decide_eq_true_iff,
    ← UInt8.toNat_inj, hlow, Nat.shiftRight_eq_div_pow]
  rfl

structure Stream where
  blocks : Array UInt8 := #[]
  deriving DecidableEq

namespace Stream

def ofCode (code : Bytes) : Stream :=
  ⟨(code.map turnByte).toArray⟩

def length (s : Stream) : Nat :=
  s.blocks.size * 8

/-- The bit at position `i`; bits behind the end count as zeros. -/
@[inline]
def bit (s : Stream) (i : Nat) : Bool :=
  byteBit (s.blocks.getD (i / 8) 0) (i % 8)

def bit? (s : Stream) (i : Nat) : Option Bool :=
  if i < s.length then some (s.bit i) else none

def lastSetBelow? (s : Stream) : (n : Nat) → Option Nat
  | 0 => none
  | n + 1 =>
    match s.blocks[n]? with
    | none => lastSetBelow? s n
    | some block => if block = 0 then lastSetBelow? s n else some (n * 8 + block.toNat.log2)

def lastSet? (s : Stream) : Option Nat :=
  s.lastSetBelow? s.blocks.size

def toBits (s : Stream) : Bits :=
  s.blocks.toList.flatMap fun block => Bits.field 8 block.toNat

end Stream

/-- A stream together with the position from which its rest may be padding. -/
structure Code where
  stream : Stream
  /-- The last set bit, or 0 when no bit is set. -/
  paddingStart : Nat := stream.lastSet?.getD 0
  paddingStart_eq : paddingStart = stream.lastSet?.getD 0 := by rfl

namespace Code

def ofBytes (code : Bytes) : Code :=
  { stream := Stream.ofCode code }

def length (c : Code) : Nat :=
  c.stream.length

def bit? (c : Code) (i : Nat) : Option Bool :=
  c.stream.bit? i

/-- The number that the `width` bits from position `i` on hold, lowest first; bits behind the end count
as zeros. -/
def number (c : Code) (i : Nat) : (width : Nat) → Nat
  | 0 => 0
  | width + 1 =>
    let high := c.number (i + 1) width
    if c.stream.bit i then 2 * high + 1 else 2 * high

/-- Streams shorter than this many bits behind the last set bit hold no further instruction. -/
def paddingWindow : Nat := 8

def isPadding (c : Code) (position : Nat) : Bool :=
  c.paddingStart ≤ position && c.length - position < paddingWindow

end Code

end PrefixVM
