import Mathlib.Data.List.Find
import PrefixVM.Proofs.Positional
import PrefixVM.Stream

/-!
The bit view of a stream. Whatever reads a stream is stated on `Stream.toBits`: single bits and numbers
are looked up in that list, and packing a bit string and loading the bytes gives it back with zeros up to the
next byte. The last set bit, found block by block, is where a scan of the single bits from the end stops.
-/
namespace PrefixVM

namespace Bits

/-- How many zeros complete `n` bits to whole bytes. -/
def slack (n : Nat) : Nat :=
  (8 - n % 8) % 8

theorem getElem?_field (width n k : Nat) (hk : k < width) :
    (field width n)[k]? = some (n.testBit k) := by
  induction width generalizing n k with
  | zero => omega
  | succ width ih =>
    match k with
    | 0 =>
      simp only [field, List.getElem?_cons_zero, Nat.testBit_zero]
      exact congrArg some (Bool.beq_eq_decide_eq _ _)
    | k + 1 =>
      rw [field, List.getElem?_cons_succ, ih _ _ (by omega), Nat.testBit_succ]

theorem field_value (bits : Bits) : field bits.length (value bits) = bits := by
  induction bits with
  | nil => rfl
  | cons bit rest ih =>
    have hbit : ((bit.toNat + 2 * value rest) % 2 == 1) = bit := by
      cases bit <;> simp [Nat.add_mod]
    have hrest : (bit.toNat + 2 * value rest) / 2 = value rest := by
      cases bit <;> simp only [Bool.toNat_false, Bool.toNat_true] <;> omega
    simp only [List.length_cons, field, value, hbit, hrest, ih]

theorem value_lt (bits : Bits) : value bits < 2 ^ bits.length := by
  have h := value_field bits.length (value bits)
  rw [field_value] at h
  rw [h]
  exact Nat.mod_lt _ (Nat.two_pow_pos _)

theorem weigh_replicate_zero (weight k : Nat) : weigh weight (List.replicate k false) = 0 := by
  induction k generalizing weight with
  | zero => rfl
  | succ k ih => simp [List.replicate_succ, weigh, ih]

theorem weigh_append_zeros (weight k : Nat) (bits : Bits) :
    weigh weight (bits ++ List.replicate k false) = weigh weight bits := by
  induction bits generalizing weight with
  | nil => rw [List.nil_append, weigh_replicate_zero, weigh]
  | cons bit rest ih => rw [List.cons_append, weigh, weigh, ih]

theorem octet_append_zeros (k : Nat) (bits : Bits) :
    octet (bits ++ List.replicate k false) = octet bits := by
  rw [octet, octet, weigh_append_zeros]

end Bits

/-- A search through the numbers below `n` from the highest one down ends at the last one that passes. -/
theorem Nat.find?_reverse_range_eq_some_iff {p : Nat → Bool} {n i : Nat} :
    (List.range n).reverse.find? p = some i ↔
      (i < n ∧ p i = true) ∧ ∀ j, i < j → j < n → p j = false := by
  induction n with
  | zero => simp
  | succ n ih =>
    rw [List.range_succ, List.reverse_append, List.reverse_singleton, List.singleton_append, List.find?_cons]
    cases hn : p n with
    | true =>
      -- the search ends at once: what passes with nothing behind it can only be `n`
      simp only [Option.some.injEq]
      grind
    | false =>
      -- nothing is found at `n`, so the two ranges ask for the same
      simp only [ih]
      grind

/-- The highest binary digit of a number that is not zero stands at its logarithm. -/
theorem Nat.find?_testBit {n width : Nat} (h : n < 2 ^ width) :
    (List.range width).reverse.find? n.testBit = if n = 0 then none else some n.log2 := by
  by_cases hn : n = 0
  · rw [if_pos hn, hn, List.find?_eq_none]
    intro k _
    rw [Nat.zero_testBit]
    exact Bool.false_ne_true
  · rw [if_neg hn, Nat.find?_reverse_range_eq_some_iff]
    refine ⟨⟨(Nat.log2_lt hn).mpr h, Nat.testBit_log2 hn⟩, ?_⟩
    intro k hk _
    exact Nat.testBit_lt_two_pow ((Nat.log2_lt hn).mp hk)

/-- Turning a packed byte around puts its bits in stream order. -/
theorem field_turnByte_octet_of_eight : ∀ a b c d e f g h : Bool,
    Bits.field 8 (turnByte (Bits.octet [a, b, c, d, e, f, g, h])).toNat = [a, b, c, d, e, f, g, h] := by
  decide +kernel

theorem field_turnByte_octet (bits : Bits) (hlen : bits.length = 8) :
    Bits.field 8 (turnByte (Bits.octet bits)).toNat = bits := by
  match bits, hlen with
  | [a, b, c, d, e, f, g, h], _ => exact field_turnByte_octet_of_eight a b c d e f g h

theorem field_turnByte_octet_short (bits : Bits) (hlen : bits.length ≤ 8) :
    Bits.field 8 (turnByte (Bits.octet bits)).toNat =
      bits ++ List.replicate (8 - bits.length) false := by
  rw [← Bits.octet_append_zeros (8 - bits.length)]
  exact field_turnByte_octet _ (by simp only [List.length_append, List.length_replicate]; omega)

theorem octet_field_turnByte (b : UInt8) : Bits.octet (Bits.field 8 (turnByte b).toNat) = b := by
  have hall : ∀ n : Fin 256, Bits.octet (Bits.field 8 (turnByte (UInt8.ofFin n)).toNat) =
      UInt8.ofFin n := by
    decide +kernel
  exact hall b.toFin

namespace Stream

@[simp] theorem toBits_ofCode_nil : (ofCode []).toBits = [] := rfl

@[simp] theorem toBits_ofCode_cons (b : UInt8) (code : Bytes) :
    (ofCode (b :: code)).toBits = Bits.field 8 (turnByte b).toNat ++ (ofCode code).toBits := by
  simp [ofCode, toBits]

@[simp] theorem length_ofCode (code : Bytes) : (ofCode code).length = code.length * 8 := by
  simp [ofCode, length]

@[simp] theorem length_toBits (s : Stream) : s.toBits.length = s.length := by
  have h (blocks : List UInt8) :
      (blocks.flatMap fun block => Bits.field 8 block.toNat).length = blocks.length * 8 := by
    induction blocks with
    | nil => rfl
    | cons b rest ih =>
      rw [List.flatMap_cons, List.length_append, ih, Bits.length_field, List.length_cons]
      omega
  rw [toBits, h, Array.length_toList, length]

/-- Position `i` of the flattened blocks is bit `i % 8` of block `i / 8`. -/
theorem getElem?_flatMap_field (blocks : List UInt8) (i : Nat) (hi : i < blocks.length * 8) :
    (blocks.flatMap fun block => Bits.field 8 block.toNat)[i]? =
      some (byteBit (blocks.getD (i / 8) 0) (i % 8)) := by
  induction blocks generalizing i with
  | nil => simp at hi
  | cons b rest ih =>
    have hlen : (Bits.field 8 b.toNat).length = 8 := Bits.length_field 8 _
    rw [List.flatMap_cons]
    by_cases h : i < 8
    · have hdiv : i / 8 = 0 := by omega
      have hmod : i % 8 = i := by omega
      rw [List.getElem?_append_left (by omega), Bits.getElem?_field 8 _ i h, hdiv, hmod,
        List.getD_cons_zero, byteBit_eq_testBit b h]
    · have hdiv : i / 8 = (i - 8) / 8 + 1 := by omega
      have hmod : (i - 8) % 8 = i % 8 := by omega
      have hrest : i - 8 < rest.length * 8 := by rw [List.length_cons] at hi; omega
      rw [List.getElem?_append_right (by omega), hlen, ih (i - 8) hrest, hdiv, hmod,
        List.getD_cons_succ]

theorem getElem?_toBits_of_lt (s : Stream) (i : Nat) (hi : i < s.length) :
    s.toBits[i]? = some (s.bit i) := by
  have hlen : i < s.blocks.toList.length * 8 := by rwa [Array.length_toList]
  rw [toBits, getElem?_flatMap_field _ i hlen, bit]
  simp [Array.getD_eq_getD_getElem?]

theorem getElem?_toBits (s : Stream) (i : Nat) : s.toBits[i]? = s.bit? i := by
  rw [bit?]
  split
  · exact getElem?_toBits_of_lt s i ‹_›
  · exact List.getElem?_eq_none (by rw [length_toBits]; omega)

/-- The stream of packed bits holds these bits, and zeros up to the next byte. -/
theorem toBits_ofCode_pack (bits : Bits) :
    (ofCode (Bits.pack bits)).toBits = bits ++ List.replicate (Bits.slack bits.length) false := by
  fun_induction Bits.pack bits with
  | case1 => rfl
  | case2 bit rest ih =>
    rw [toBits_ofCode_cons, ih]
    by_cases hlong : 7 ≤ rest.length
    · -- a full byte
      have hlen : (bit :: rest.take 7).length = 8 := by
        rw [List.length_cons, List.length_take]; omega
      have hslack : Bits.slack (rest.drop 7).length = Bits.slack (bit :: rest).length := by
        simp only [Bits.slack, List.length_drop, List.length_cons]; omega
      rw [field_turnByte_octet _ hlen, hslack, ← List.append_assoc, List.cons_append,
        List.take_append_drop]
    · -- the last byte, completed with zeros
      have htake : rest.take 7 = rest := List.take_of_length_le (by omega)
      have hdrop : rest.drop 7 = [] := List.drop_of_length_le (by omega)
      have hslack : 8 - (bit :: rest).length = Bits.slack (bit :: rest).length := by
        simp only [Bits.slack, List.length_cons]; omega
      rw [htake, hdrop, field_turnByte_octet_short _ (by rw [List.length_cons]; omega), hslack]
      simp [Bits.slack]

/-- Packing all bits of a stream gives the code bytes back. -/
theorem pack_toBits_ofCode (code : Bytes) : Bits.pack (ofCode code).toBits = code := by
  induction code with
  | nil => simp [Bits.pack]
  | cons b rest ih =>
    rw [toBits_ofCode_cons]
    obtain ⟨bit, more, hfield⟩ : ∃ bit more, Bits.field 8 (turnByte b).toNat = bit :: more :=
      ⟨_, _, rfl⟩
    have hmore : more.length = 7 := by
      have h := Bits.length_field 8 (turnByte b).toNat
      rw [hfield, List.length_cons] at h
      omega
    have hb := octet_field_turnByte b
    rw [hfield] at hb ⊢
    rw [List.cons_append, Bits.pack, List.take_append_of_le_length (by omega),
      List.drop_append_of_le_length (by omega), List.take_of_length_le (by omega),
      List.drop_of_length_le (by omega), List.nil_append, ih, hb]

theorem length_pack (bits : Bits) :
    (Bits.pack bits).length * 8 = bits.length + Bits.slack bits.length := by
  have h := congrArg List.length (toBits_ofCode_pack bits)
  rwa [length_toBits, length_ofCode, List.length_append, List.length_replicate] at h

theorem bit?_ofCode_pack (bits : Bits) (i : Nat) :
    (ofCode (Bits.pack bits)).bit? i =
      if h : i < bits.length then some bits[i]
      else if i < (ofCode (Bits.pack bits)).length then some false
      else none := by
  rw [← getElem?_toBits, ← length_toBits, toBits_ofCode_pack, List.length_append, List.length_replicate]
  split
  next hi => rw [List.getElem?_append_left hi, List.getElem?_eq_getElem hi]
  next hi =>
    rw [List.getElem?_append_right (by omega), List.getElem?_replicate]
    congr 1
    rw [eq_iff_iff]
    omega

/-- Block `n` holds the bits from position `n * 8` on as its binary digits. -/
theorem bit_add (s : Stream) (n : Nat) {k : Nat} (hk : k < 8) :
    s.bit (n * 8 + k) = (s.blocks.getD n 0).toNat.testBit k := by
  have hdiv : (n * 8 + k) / 8 = n := by omega
  have hmod : (n * 8 + k) % 8 = k := by omega
  rw [bit, hdiv, hmod, byteBit_eq_testBit _ hk]

/-- A scan of one block from its last bit down ends at the highest binary digit. -/
theorem find?_block (s : Stream) (n : Nat) :
    ((List.range 8).map (n * 8 + ·)).reverse.find? s.bit =
      if s.blocks.getD n 0 = 0 then none else some (n * 8 + (s.blocks.getD n 0).toNat.log2) := by
  have hdigits : (List.range 8).reverse.find? (s.bit ∘ (n * 8 + ·)) =
      (List.range 8).reverse.find? (s.blocks.getD n 0).toNat.testBit := by
    apply List.find?_congr
    intro k hk
    rw [List.mem_reverse, List.mem_range] at hk
    exact s.bit_add n hk
  have hzero : (s.blocks.getD n 0).toNat = 0 ↔ s.blocks.getD n 0 = 0 := by
    rw [← UInt8.toNat_inj]
    rfl
  rw [← List.map_reverse, List.find?_map, hdigits, Nat.find?_testBit (UInt8.toNat_lt _)]
  simp only [hzero]
  split <;> rfl

/-- Searching the blocks one by one answers what a scan of their single bits answers. -/
theorem lastSetBelow?_eq_find? (s : Stream) (n : Nat) (hn : n ≤ s.blocks.size) :
    s.lastSetBelow? n = (List.range (n * 8)).reverse.find? s.bit := by
  induction n with
  | zero => rfl
  | succ n ih =>
    have hblock : s.blocks[n]? = some (s.blocks.getD n 0) := by
      simp [Array.getD_eq_getD_getElem?, Array.getElem?_eq_getElem (show n < s.blocks.size by omega)]
    -- the last block is scanned first, and only if it is zero the scan goes on below it
    rw [Nat.succ_mul, List.range_add, List.reverse_append, List.find?_append, find?_block,
      ← ih (by omega), lastSetBelow?, hblock]
    by_cases hzero : s.blocks.getD n 0 = 0
    · simp only [hzero, if_true, Option.none_or]
    · simp only [hzero, if_false, Option.some_or]

theorem lastSet?_eq_find? (s : Stream) : s.lastSet? = (List.range s.length).reverse.find? s.bit :=
  s.lastSetBelow?_eq_find? s.blocks.size (Nat.le_refl _)

theorem bit?_eq_some_true_iff (s : Stream) (i : Nat) :
    s.bit? i = some true ↔ i < s.length ∧ s.bit i = true := by
  rw [bit?]
  split <;> simp_all

/-- The last set bit is set, and no later one is. -/
theorem lastSet?_eq_some_iff (s : Stream) (i : Nat) :
    s.lastSet? = some i ↔ s.bit? i = some true ∧ ∀ j, i < j → s.bit? j ≠ some true := by
  rw [lastSet?_eq_find?, Nat.find?_reverse_range_eq_some_iff]
  simp only [ne_eq, bit?_eq_some_true_iff, not_and, Bool.not_eq_true]

theorem lastSet?_eq_none_iff (s : Stream) : s.lastSet? = none ↔ ∀ i, s.bit? i ≠ some true := by
  rw [lastSet?_eq_find?, List.find?_eq_none]
  simp only [List.mem_reverse, List.mem_range, ne_eq, bit?_eq_some_true_iff, not_and]

end Stream

end PrefixVM
