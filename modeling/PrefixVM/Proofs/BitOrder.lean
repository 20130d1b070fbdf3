import Mathlib.Algebra.Order.Floor.Div
import Mathlib.GroupTheory.GroupAction.Ring
import PrefixVM.Proofs.BitView

/-!
The order of bits in code bytes. A byte is filled from its highest bit down, and loading turns it around, so
stream bit `i` is bit `7 - i % 8` of code byte `i / 8`. Packing a bit string and loading the bytes gives its
bits back, with zeros up to the next byte and nothing behind them; writing the bits of a stream one after the
other and packing them gives its code bytes back. The last set bit, for which the blocks are searched from
the end, is the one that a scan of the single bits finds.
-/
namespace PrefixVM

/-- Turning a byte around mirrors its bits. -/
theorem testBit_turnByte (b : UInt8) {k : Nat} (hk : k < 8) :
    (turnByte b).toNat.testBit k = b.toNat.testBit (7 - k) := by
  have hall : ∀ n : Fin 256, ∀ k : Fin 8,
      (turnByte (UInt8.ofFin n)).toNat.testBit k = (UInt8.ofFin n).toNat.testBit (7 - k) := by
    decide +kernel
  exact hall b.toFin ⟨k, hk⟩

namespace Stream

/-- Stream bit `i` is found in code byte `i / 8`, from its highest bit down. -/
theorem bit?_ofCode (code : Bytes) (i : Nat) :
    (ofCode code).bit? i = code[i / 8]?.map fun b => b.toNat.testBit (7 - i % 8) := by
  have hmod : i % 8 < 8 := Nat.mod_lt i (by decide)
  rw [bit?, length_ofCode]
  by_cases hi : i / 8 < code.length
  · have hblock : (ofCode code).blocks.getD (i / 8) 0 = turnByte code[i / 8] := by
      simp [ofCode, Array.getD_eq_getD_getElem?, List.getElem?_eq_getElem hi]
    rw [if_pos (by omega), bit, hblock, byteBit_eq_testBit _ hmod, testBit_turnByte _ hmod,
      List.getElem?_eq_getElem hi, Option.map_some]
  · rw [if_neg (by omega), List.getElem?_eq_none (by omega), Option.map_none]

theorem length_ofCode_pack (bits : Bits) :
    (ofCode (Bits.pack bits)).length = 8 * (bits.length ⌈/⌉ 8) := by
  have hlen := length_pack bits
  rw [length_ofCode, hlen, Bits.slack, Nat.ceilDiv_eq_add_pred_div]
  omega

/-- A fresh writer after the first `n` bits of a stream have been written to it, one after the other. -/
def copied (s : Stream) : (n : Nat) → Writer
  | 0 => {}
  | n + 1 => (s.copied n).append (s.bit? n).toList

theorem toList_copied (s : Stream) (n : Nat) : (s.copied n).bits.toList = s.toBits.take n := by
  induction n with
  | zero => rfl
  | succ n ih =>
    calc (s.copied (n + 1)).bits.toList
        = s.toBits.take n ++ (s.bit? n).toList := by rw [copied, Writer.toList_append, ih]
      _ = s.toBits.take (n + 1) := by rw [← getElem?_toBits, List.take_add_one]

theorem toBytes_copied (code : Bytes) :
    ((ofCode code).copied (ofCode code).length).toBytes = code := by
  rw [Writer.toBytes, toList_copied, ← length_toBits, List.take_length, pack_toBits_ofCode]

/-- Packing and loading undo each other, in the order of bits that code bytes have. The stream of packed bits
is as long as whole bytes for them are and holds the bits, then zeros; the bits of a stream, written one after
the other and packed, are its code bytes; stream bit `i` is bit `7 - i % 8` of code byte `i / 8`. -/
theorem packing_inverts_loading :
    (∀ bits : Bits,
      let s := ofCode (Writer.append {} bits).toBytes
      s.length = 8 * (bits.length ⌈/⌉ 8) ∧
        ∀ i, s.bit? i =
          if h : i < bits.length then some bits[i] else if i < s.length then some false else none) ∧
      (∀ code : Bytes, ((ofCode code).copied (ofCode code).length).toBytes = code) ∧
      ∀ (code : Bytes) (i : Nat),
        (ofCode code).bit? i = code[i / 8]?.map fun b => b.toNat.testBit (7 - i % 8) := by
  refine ⟨?_, toBytes_copied, bit?_ofCode⟩
  intro bits s
  have hs : s = ofCode (Bits.pack bits) := by
    have hwritten : (Writer.append {} bits).bits.toList = bits := Writer.toList_append {} bits
    exact congrArg (fun bits => ofCode (Bits.pack bits)) hwritten
  rw [hs]
  exact ⟨length_ofCode_pack bits, bit?_ofCode_pack bits⟩

/-- The last set bit is what a scan of the single bits finds: the position of a set bit behind which no other
is set, and none exactly if no bit of the stream is set. -/
theorem lastSet?_eq_scan (code : Bytes) :
    let s := ofCode code
    (∀ i, s.lastSet? = some i ↔ s.bit? i = some true ∧ ∀ j, i < j → s.bit? j ≠ some true) ∧
      (s.lastSet? = none ↔ ∀ i, s.bit? i ≠ some true) ∧
      s.lastSet? = (List.range s.length).reverse.find? fun i => s.bit? i == some true := by
  intro s
  refine ⟨s.lastSet?_eq_some_iff, s.lastSet?_eq_none_iff, ?_⟩
  rw [lastSet?_eq_find?]
  apply List.find?_congr
  intro i hi
  rw [List.mem_reverse, List.mem_range] at hi
  rw [bit?, if_pos hi]
  cases s.bit i <;> rfl

end Stream

end PrefixVM
