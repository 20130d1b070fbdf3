import PrefixVM.Asm.Literal

/-!
Numerals and the numbers they stand for. Reading is the inverse of printing: the decimal digits of a number
are read back as that number, with a minus sign in front for negative constants.
-/
namespace PrefixVM

namespace Numeral

/-- A numeral is read when it has digits only, at least one, and its value lies below the limit. -/
theorem parse?_eq_some_iff (radix limit : Nat) (text : List Char) (n : Nat) :
    parse? radix limit text = some n ↔
      unsigned text ≠ [] ∧ ∃ ds, digits? radix (unsigned text) = some ds ∧ ofDigits radix ds = n ∧
        n < limit := by
  unfold parse?
  cases hbody : unsigned text with
  | nil => simp
  | cons c rest =>
    simp only [ne_eq, reduceCtorEq, not_false_eq_true, true_and, Option.bind_eq_bind,
      Option.bind_eq_some_iff, Option.ite_none_right_eq_some, Option.some.injEq]
    constructor
    · rintro ⟨ds, hds, hlt, rfl⟩
      exact ⟨ds, hds, rfl, hlt⟩
    · rintro ⟨ds, hds, rfl, hlt⟩
      exact ⟨ds, hds, hlt, rfl⟩

theorem digit?_digitChar {radix d : Nat} (hradix : radix ≤ 16) (hd : d < radix) :
    digit? radix d.digitChar = some d := by
  have hvalue : ∀ d < 16, hexValue? d.digitChar = some d := by decide
  rw [digit?, hvalue d (by omega), Option.filter_some, if_pos (by rw [decide_eq_true_eq]; exact hd)]

theorem digits?_append (radix : Nat) (a b : List Char) (ds es : List Nat)
    (ha : digits? radix a = some ds) (hb : digits? radix b = some es) :
    digits? radix (a ++ b) = some (ds ++ es) := by
  induction a generalizing ds with
  | nil =>
    obtain rfl := Option.some.inj ha
    exact hb
  | cons c rest ih =>
    simp only [digits?, Option.bind_eq_bind, Option.bind_eq_some_iff, Option.pure_def,
      Option.some.injEq] at ha
    obtain ⟨d, hd, more, hmore, rfl⟩ := ha
    simp [digits?, hd, ih more hmore]

/-- The digits of a number in a base up to sixteen are read as digits of that number. -/
theorem digits?_toDigits {radix : Nat} (htwo : 2 ≤ radix) (hradix : radix ≤ 16) (n : Nat) :
    ∃ ds, digits? radix (Nat.toDigits radix n) = some ds ∧ ofDigits radix ds = n := by
  induction n using Nat.strongRecOn with
  | _ n ih =>
    by_cases hn : n < radix
    · rw [Nat.toDigits_of_lt_base hn]
      refine ⟨[n], ?_, by simp [ofDigits]⟩
      simp [digits?, digit?_digitChar hradix hn]
    · -- the last digit is the remainder, and the ones before it are those of the quotient
      rw [Nat.toDigits_of_base_le htwo (by omega)]
      have hlt : n % radix < radix := Nat.mod_lt n (by omega)
      obtain ⟨ds, hds, hval⟩ := ih (n / radix) (Nat.div_lt_self (by omega) htwo)
      have hlast : digits? radix [(n % radix).digitChar] = some [n % radix] := by
        simp [digits?, digit?_digitChar hradix hlt]
      refine ⟨ds ++ [n % radix], digits?_append radix _ _ ds _ hds hlast, ?_⟩
      rw [ofDigits, List.foldl_append]
      change ofDigits radix ds * radix + n % radix = n
      rw [hval, Nat.mul_comm]
      exact Nat.div_add_mod n radix

theorem not_mem_toDigits {c : Char} (hc : c.isDigit = false) (n : Nat) : c ∉ Nat.toDigits 10 n := by
  intro hmem
  have hdigit := Nat.isDigit_of_mem_toDigits (by decide) (by decide) hmem
  rw [hc] at hdigit
  cases hdigit

theorem unsigned_toDigits (n : Nat) : unsigned (Nat.toDigits 10 n) = Nat.toDigits 10 n := by
  have hsign := not_mem_toDigits (show '+'.isDigit = false by decide) n
  unfold unsigned
  split
  next rest heq =>
    rw [heq] at hsign
    exact absurd List.mem_cons_self hsign
  next => rfl

theorem parse?_toDigits (limit n : Nat) (hn : n < limit) :
    parse? 10 limit (Nat.toDigits 10 n) = some n := by
  obtain ⟨ds, hds, hval⟩ := digits?_toDigits (show 2 ≤ 10 by decide) (by decide) n
  rw [parse?_eq_some_iff, unsigned_toDigits]
  exact ⟨Nat.toDigits_ne_nil, ds, hds, hval, hn⟩

end Numeral

namespace Asm

theorem magnitude?_toDigits (n : Nat) (hn : n < UInt64.size) :
    magnitude? (Nat.toDigits 10 n) = some n := by
  -- digits contain no letter that marks a base
  have hmark (c : Char) (hc : c.isDigit = false) (rest : List Char) :
      Nat.toDigits 10 n ≠ '0' :: c :: rest := by
    intro heq
    apply Numeral.not_mem_toDigits hc n
    rw [heq]
    exact List.mem_cons_of_mem _ List.mem_cons_self
  unfold magnitude?
  split
  next rest heq => exact absurd heq (hmark 'x' (by decide) rest)
  next rest heq => exact absurd heq (hmark 'X' (by decide) rest)
  next rest heq => exact absurd heq (hmark 'b' (by decide) rest)
  next => exact Numeral.parse?_toDigits _ n hn

theorem splitSign_toDigits (n : Nat) :
    splitSign (Nat.toDigits 10 n) = (false, Nat.toDigits 10 n) := by
  have hsign := Numeral.not_mem_toDigits (show '-'.isDigit = false by decide) n
  unfold splitSign
  split
  next rest heq =>
    rw [heq] at hsign
    exact absurd List.mem_cons_self hsign
  next => rfl

theorem constant?_toString_nat (n : Nat) (hn : n < UInt64.size) :
    constant? (toString n) = some (Int64.ofInt n) := by
  have htext : (toString n).toList = Nat.toDigits 10 n := Nat.toList_repr
  simp only [constant?, htext, splitSign_toDigits, magnitude?_toDigits n hn]
  rfl

/-- A constant is read back from its decimal digits. -/
theorem constant?_toString (c : Int64) : constant? (toString c.toInt) = some c := by
  have hlow := c.le_toInt
  have hhigh := c.toInt_lt
  have hsize : UInt64.size = 18446744073709551616 := rfl
  rw [Int.toString_eq_repr, Int.repr_eq_if]
  by_cases hc : 0 ≤ c.toInt
  · rw [if_pos hc]
    have hread := constant?_toString_nat c.toInt.toNat (by omega)
    rw [Int.toNat_of_nonneg hc, Int64.ofInt_toInt] at hread
    exact hread
  · rw [if_neg hc]
    have hmagnitude := magnitude?_toDigits (-c.toInt).toNat (by omega)
    have hle : (-c.toInt).toNat ≤ 0x8000000000000000 := by omega
    have hvalue : -((-c.toInt).toNat : Int) = c.toInt := by omega
    have htext : ("-" ++ (-c.toInt).toNat.repr).toList = '-' :: Nat.toDigits 10 (-c.toInt).toNat := by
      rw [String.toList_append, Nat.toList_repr]
      rfl
    simp only [constant?, htext, splitSign, hmagnitude]
    change (if (-c.toInt).toNat ≤ 0x8000000000000000 then
      some (Int64.ofInt (-((-c.toInt).toNat : Int))) else none) = some c
    rw [if_pos hle, hvalue, Int64.ofInt_toInt]

theorem registerIndex?_name (i : UInt8) (hi : i.toNat < registerCount) :
    registerIndex? ("r" ++ toString i.toNat) = some i := by
  have htext : ("r" ++ toString i.toNat).toList = 'r' :: Nat.toDigits 10 i.toNat := by
    rw [String.toList_append]
    exact congrArg ('r' :: ·) Nat.toList_repr
  simp only [registerIndex?, htext, Numeral.parse?_toDigits _ _ hi, Option.map_some, UInt8.ofNat_toNat]

end Asm

end PrefixVM
