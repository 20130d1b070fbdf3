import Mathlib.Algebra.Order.Ring.Nat
import PrefixVM.Bits

/-!
Numbers written lowest digit first: as base-256 bytes in headers and memory, and as bits in the fields of
an instruction. Writing a number and reading it back keeps it modulo the power of the base.
-/
namespace PrefixVM

namespace Bytes

theorem toNatLE_lt (b : Bytes) : toNatLE b < 256 ^ b.length := by
  induction b with
  | nil => simp [toNatLE]
  | cons x rest ih =>
    have hx : x.toNat < 256 := x.toNat_lt
    simp only [toNatLE, List.length_cons, Nat.pow_succ]
    omega

/-- Writing and reading back keeps a number modulo `256 ^ width`. -/
theorem toNatLE_ofNatLE (width n : Nat) : toNatLE (ofNatLE width n) = n % 256 ^ width := by
  induction width generalizing n with
  | zero => simp [ofNatLE, toNatLE, Nat.mod_one]
  | succ width ih =>
    have hb : (UInt8.ofNat n).toNat = n % 256 := by simp
    simp only [ofNatLE, toNatLE, ih, hb]
    rw [Nat.pow_succ, Nat.mul_comm (256 ^ width), Nat.mod_mul]

end Bytes

namespace Bits

theorem value_field (width n : Nat) : value (field width n) = n % 2 ^ width := by
  induction width generalizing n with
  | zero => simp [field, value, Nat.mod_one]
  | succ width ih =>
    have hb : (n % 2 == 1).toNat = n % 2 := by
      rcases Nat.mod_two_eq_zero_or_one n with h | h <;> simp [h]
    simp only [field, value, ih, hb]
    rw [Nat.pow_succ, Nat.mul_comm (2 ^ width), Nat.mod_mul]

end Bits

end PrefixVM
