/-!
Byte strings and the little-endian numbers they hold. Every multi-byte number of the machine (header
fields, memory accesses) goes through `Bytes.ofNatLE` and `Bytes.toNatLE`.
-/
namespace PrefixVM

abbrev Bytes := List UInt8

namespace Bytes

/-- The lowest `width` base-256 digits of `n`, least significant first. -/
def ofNatLE : (width n : Nat) → Bytes
  | 0, _ => []
  | width + 1, n => UInt8.ofNat n :: ofNatLE width (n / 256)

/-- The number whose base-256 digits, least significant first, are the given bytes. -/
def toNatLE : Bytes → Nat
  | [] => 0
  | b :: rest => b.toNat + 256 * toNatLE rest

@[simp] theorem length_ofNatLE (width n : Nat) : (ofNatLE width n).length = width := by
  induction width generalizing n with
  | zero => rfl
  | succ width ih => simp [ofNatLE, ih]

end Bytes

end PrefixVM
