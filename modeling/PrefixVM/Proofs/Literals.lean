import Mathlib.Data.Int.ModEq
import Mathlib.Data.List.Forall2
import Mathlib.Data.Nat.Digits.Defs
import Mathlib.Tactic.IntervalCases
import PrefixVM.Proofs.Numerals

/-!
Which texts are constants, and what they stand for. A constant is a sign, a mark for the base and digits of
that base, as many as one likes; what decides is the number that the digits denote. Without a sign it may use
all 64 bits, with one it may reach down to the least signed number, and the value is that number in two's
complement. Neither the base nor leading zeros matter.
-/
namespace PrefixVM

namespace Numeral

/-- A character for the digit `d`: from ten on a letter, small or capital. -/
def IsDigit (c : Char) (d : Nat) : Prop :=
  c = d.digitChar ∨ c = d.digitChar.toUpper

instance (c : Char) (d : Nat) : Decidable (IsDigit c d) :=
  inferInstanceAs (Decidable (_ ∨ _))

/-- The text consists of the given digits of base `radix`. -/
def Spelled (radix : Nat) (text : List Char) (ds : List Nat) : Prop :=
  List.Forall₂ (fun c d => d < radix ∧ IsDigit c d) text ds

/-- The text has at least one digit and denotes `n` in base `radix`, with the highest digit first. -/
def Denotes (radix : Nat) (text : List Char) (n : Nat) : Prop :=
  text ≠ [] ∧ ∃ ds, Spelled radix text ds ∧ Nat.ofDigits radix ds.reverse = n

theorem hexValue?_of_isDigit {c : Char} {d : Nat} (hd : d < 16) (h : IsDigit c d) :
    hexValue? c = some d := by
  obtain rfl | rfl := h
  all_goals interval_cases d <;> rfl

theorem isDigit_of_hexValue? {c : Char} {d : Nat} (h : hexValue? c = some d) :
    d < 16 ∧ IsDigit c d := by
  -- no digit has a code above that of `f`, which leaves a finite check
  have hall : ∀ n < 103, ∀ d ∈ hexValue? (Char.ofNat n), d < 16 ∧ IsDigit (Char.ofNat n) d := by
    decide
  have hcode {b : Char} (hb : b.toNat < 103) (hc : c ≤ b) : c.toNat < 103 :=
    Nat.lt_of_le_of_lt hc hb
  have hlt : c.toNat < 103 := by
    unfold hexValue? at h
    split_ifs at h with hten hsmall hcapital
    · exact hcode (by decide) hten.2
    · exact hcode (by decide) hsmall.2
    · exact hcode (by decide) hcapital.2
  have hdigit := hall c.toNat hlt d
  rw [Char.ofNat_toNat] at hdigit
  exact hdigit h

section Radix

variable {radix : Nat} (hradix : radix ≤ 16)
include hradix

theorem digit?_eq_some_iff (c : Char) (d : Nat) :
    digit? radix c = some d ↔ d < radix ∧ IsDigit c d := by
  rw [digit?, Option.filter_eq_some_iff, decide_eq_true_eq]
  constructor
  · rintro ⟨hvalue, hd⟩
    exact ⟨hd, (isDigit_of_hexValue? hvalue).2⟩
  · rintro ⟨hd, hdigit⟩
    exact ⟨hexValue?_of_isDigit (Nat.lt_of_lt_of_le hd hradix) hdigit, hd⟩

theorem digits?_eq_some_iff (text : List Char) (ds : List Nat) :
    digits? radix text = some ds ↔ Spelled radix text ds := by
  induction text generalizing ds with
  | nil => simp [digits?, Spelled, eq_comm]
  | cons c rest ih =>
    simp only [digits?, Option.bind_eq_bind, Option.bind_eq_some_iff, digit?_eq_some_iff hradix, ih,
      Option.pure_def, Option.some.injEq]
    rw [Spelled, List.forall₂_cons_left_iff]
    constructor
    · rintro ⟨d, hd, ds', hds, rfl⟩
      exact ⟨d, ds', hd, hds, rfl⟩
    · rintro ⟨d, ds', hd, hds, rfl⟩
      exact ⟨d, hd, ds', hds, rfl⟩

theorem Denotes.unique {text : List Char} {m n : Nat} (hm : Denotes radix text m)
    (hn : Denotes radix text n) : m = n := by
  obtain ⟨-, ds, hds, rfl⟩ := hm
  obtain ⟨-, ds', hds', rfl⟩ := hn
  rw [← digits?_eq_some_iff hradix] at hds hds'
  rw [Option.some.inj (hds.symm.trans hds')]

end Radix

theorem ofDigits_eq (radix : Nat) (ds : List Nat) :
    ofDigits radix ds = Nat.ofDigits radix ds.reverse := by
  rw [Nat.ofDigits_eq_foldr, List.foldr_reverse, ofDigits]
  congr
  funext n d
  rw [Nat.cast_id, Nat.mul_comm, Nat.add_comm]

theorem unsigned_eq {text : List Char} (h : '+' ∉ text) : unsigned text = text := by
  unfold unsigned
  split
  next => exact absurd List.mem_cons_self h
  next => rfl

/-- Without a plus sign, a text is read if it denotes a number below the limit. -/
theorem parse?_eq_some_iff_denotes {radix : Nat} (hradix : radix ≤ 16) (limit : Nat) {text : List Char}
    (hplus : '+' ∉ text) (n : Nat) :
    parse? radix limit text = some n ↔ Denotes radix text n ∧ n < limit := by
  rw [parse?_eq_some_iff, unsigned_eq hplus, Denotes]
  simp only [digits?_eq_some_iff hradix, ofDigits_eq]
  constructor
  · rintro ⟨hne, ds, hds, hn, hlt⟩
    exact ⟨⟨hne, ds, hds, hn⟩, hlt⟩
  · rintro ⟨⟨hne, ds, hds, hn⟩, hlt⟩
    exact ⟨hne, ds, hds, hn, hlt⟩

theorem Denotes.not_mem {radix : Nat} {text : List Char} {n : Nat} (h : Denotes radix text n) {c : Char}
    (hc : ∀ d < radix, ¬ IsDigit c d) : c ∉ text := by
  obtain ⟨-, ds, hds, -⟩ := h
  induction hds with
  | nil => exact List.not_mem_nil
  | cons hhead _ ih =>
    apply List.not_mem_cons_of_ne_of_not_mem _ ih
    rintro rfl
    exact hc _ hhead.1 hhead.2

end Numeral

namespace Asm

/-- The bases of a constant; hexadecimal has two marks. -/
inductive Base where
  | decimal
  | hex
  | capitalHex
  | binary
  deriving DecidableEq, Repr

namespace Base

def mark : Base → List Char
  | decimal => []
  | hex => ['0', 'x']
  | capitalHex => ['0', 'X']
  | binary => ['0', 'b']

def radix : Base → Nat
  | decimal => 10
  | hex | capitalHex => 16
  | binary => 2

theorem radix_le (b : Base) : b.radix ≤ 16 := by
  cases b <;> decide

end Base

/-- A constant as it is written. -/
structure Literal where
  negative : Bool
  base : Base
  digits : List Char
  deriving DecidableEq, Repr

namespace Literal

def text (l : Literal) : List Char :=
  (if l.negative then ['-'] else []) ++ l.base.mark ++ l.digits

/-- The digits denote the number `m`. -/
def Denotes (l : Literal) (m : Nat) : Prop :=
  Numeral.Denotes l.base.radix l.digits m

/-- The largest number that the digits may denote. -/
def limit (l : Literal) : Nat :=
  if l.negative then 2 ^ 63 else 2 ^ 64 - 1

/-- The number with its sign, where the digits denote `m`. -/
def signed (l : Literal) (m : Nat) : Int :=
  if l.negative then -m else m

theorem lt_size (l : Literal) {m : Nat} (h : m ≤ l.limit) : m < UInt64.size := by
  apply Nat.lt_of_le_of_lt h
  rw [limit]
  split_ifs <;> decide

end Literal

section Magnitude

variable {b : Base} {digits : List Char} {m : Nat} (h : Numeral.Denotes b.radix digits m)
include h

theorem not_mem_digits {c : Char} (hc : ∀ d < 16, ¬ Numeral.IsDigit c d) : c ∉ digits := by
  apply h.not_mem
  intro d hd
  exact hc d (Nat.lt_of_lt_of_le hd b.radix_le)

theorem magnitude?_mark : magnitude? (b.mark ++ digits) = Numeral.parse? b.radix UInt64.size digits := by
  cases b with
  | hex => rfl
  | capitalHex => rfl
  | binary => rfl
  | decimal =>
    -- no decimal digit is a letter that marks another base
    have hmark (c : Char) (hc : ∀ d < 10, ¬ Numeral.IsDigit c d) (rest : List Char) :
        digits ≠ '0' :: c :: rest := by
      rintro rfl
      exact h.not_mem hc (List.mem_cons_of_mem _ List.mem_cons_self)
    change magnitude? digits = _
    unfold magnitude?
    split
    next rest => exact absurd rfl (hmark 'x' (by decide) rest)
    next rest => exact absurd rfl (hmark 'X' (by decide) rest)
    next rest => exact absurd rfl (hmark 'b' (by decide) rest)
    next => rfl

theorem magnitude?_eq_some_iff (n : Nat) :
    magnitude? (b.mark ++ digits) = some n ↔ n = m ∧ m < UInt64.size := by
  have hplus : '+' ∉ digits := not_mem_digits h (by decide)
  rw [magnitude?_mark h, Numeral.parse?_eq_some_iff_denotes b.radix_le UInt64.size hplus]
  constructor
  · rintro ⟨hn, hlt⟩
    obtain rfl := hn.unique b.radix_le h
    exact ⟨rfl, hlt⟩
  · rintro ⟨rfl, hlt⟩
    exact ⟨h, hlt⟩

end Magnitude

theorem denotes_of_magnitude? {text : List Char} (hplus : '+' ∉ text) {m : Nat}
    (h : magnitude? text = some m) :
    ∃ b digits, text = Base.mark b ++ digits ∧ Numeral.Denotes b.radix digits m ∧ m < UInt64.size := by
  have hread (b : Base) {digits : List Char} (hdigits : '+' ∉ digits)
      (hparse : Numeral.parse? b.radix UInt64.size digits = some m) :=
    (Numeral.parse?_eq_some_iff_denotes b.radix_le UInt64.size hdigits m).mp hparse
  have hbehind {c d : Char} {digits : List Char} (hmem : '+' ∉ c :: d :: digits) : '+' ∉ digits :=
    fun hdigits => hmem (List.mem_cons_of_mem c (List.mem_cons_of_mem d hdigits))
  unfold magnitude? at h
  split at h
  next digits => exact ⟨.hex, digits, rfl, hread .hex (hbehind hplus) h⟩
  next digits => exact ⟨.capitalHex, digits, rfl, hread .capitalHex (hbehind hplus) h⟩
  next digits => exact ⟨.binary, digits, rfl, hread .binary (hbehind hplus) h⟩
  next => exact ⟨.decimal, text, rfl, hread .decimal hplus h⟩

theorem splitSign_text (l : Literal) {m : Nat} (h : l.Denotes m) :
    splitSign l.text = (l.negative, l.base.mark ++ l.digits) := by
  obtain ⟨negative, base, digits⟩ := l
  cases negative with
  | true => rfl
  | false =>
    have hminus : '-' ∉ base.mark ++ digits := by
      rw [List.mem_append, not_or]
      exact ⟨by cases base <;> decide, not_mem_digits h (by decide)⟩
    change splitSign (base.mark ++ digits) = _
    unfold splitSign
    split
    next heq =>
      rw [heq] at hminus
      exact absurd List.mem_cons_self hminus
    next => rfl

theorem eq_of_splitSign {text digits : List Char} {negative : Bool}
    (h : splitSign text = (negative, digits)) :
    text = (if negative then ['-'] else []) ++ digits := by
  unfold splitSign at h
  split at h
  next =>
    obtain ⟨rfl, rfl⟩ := Prod.mk.inj h
    rfl
  next =>
    obtain ⟨rfl, rfl⟩ := Prod.mk.inj h
    rfl

/-- Among the signed numbers of 64 bits, one is congruent to a given number. -/
theorem ofInt_eq_iff_modEq (n : Int) (v : Int64) : Int64.ofInt n = v ↔ v.toInt ≡ n [ZMOD 2 ^ 64] := by
  have hlow := v.le_toInt
  have hhigh := v.toInt_lt
  rw [Int64.ofInt_eq_iff_bmod_eq_toInt, Int.bmod_eq_iff (by decide), Int.modEq_iff_dvd, ← Int.dvd_neg,
    Int.neg_sub]
  constructor
  · rintro ⟨-, -, hdvd⟩
    exact hdvd
  · intro hdvd
    exact ⟨by omega, by omega, hdvd⟩

theorem constant?_eq_some_iff_magnitude? {text : String} {negative : Bool} {digits : List Char}
    (h : splitSign text.toList = (negative, digits)) (v : Int64) :
    constant? text = some v ↔ ∃ m, magnitude? digits = some m ∧ (negative = true → m ≤ 2 ^ 63) ∧
      Int64.ofInt (if negative then -m else m) = v := by
  simp only [constant?, h, Option.bind_eq_bind, Option.bind_eq_some_iff]
  cases negative <;> simp

/-- A written constant is read if its number does not exceed the limit. -/
theorem constant?_text (l : Literal) {m : Nat} (h : l.Denotes m) (v : Int64) :
    constant? (String.ofList l.text) = some v ↔
      m ≤ l.limit ∧ v.toInt ≡ l.signed m [ZMOD 2 ^ 64] := by
  have hsign : splitSign (String.ofList l.text).toList = (l.negative, l.base.mark ++ l.digits) := by
    rw [String.toList_ofList, splitSign_text l h]
  have hlimit : m ≤ l.limit ↔ m < UInt64.size ∧ (l.negative = true → m ≤ 2 ^ 63) := by
    refine ⟨fun hle => ⟨l.lt_size hle, ?_⟩, ?_⟩
    · intro hnegative
      rwa [Literal.limit, if_pos hnegative] at hle
    · rintro ⟨hsize, hnegative⟩
      rw [Literal.limit]
      split_ifs with hminus
      · exact hnegative hminus
      · exact Nat.le_sub_one_of_lt hsize
  rw [constant?_eq_some_iff_magnitude? hsign, hlimit, ← ofInt_eq_iff_modEq, Literal.signed]
  simp only [magnitude?_eq_some_iff h]
  constructor
  · rintro ⟨n, ⟨rfl, hsize⟩, hnegative, hv⟩
    exact ⟨⟨hsize, hnegative⟩, hv⟩
  · rintro ⟨⟨hsize, hnegative⟩, hv⟩
    exact ⟨m, ⟨rfl, hsize⟩, hnegative, hv⟩

/-- What is read as a constant is written as one. -/
theorem exists_literal {text : String} (hplus : '+' ∉ text.toList) {v : Int64}
    (h : constant? text = some v) : ∃ l m, text.toList = Literal.text l ∧ l.Denotes m := by
  rcases hsign : splitSign text.toList with ⟨negative, rest⟩
  have htext := eq_of_splitSign hsign
  have hrest : '+' ∉ rest := by
    rw [htext, List.mem_append, not_or] at hplus
    exact hplus.2
  obtain ⟨m, hm, -, -⟩ := (constant?_eq_some_iff_magnitude? hsign v).mp h
  obtain ⟨base, digits, rfl, hdenotes, -⟩ := denotes_of_magnitude? hrest hm
  refine ⟨⟨negative, base, digits⟩, m, ?_, hdenotes⟩
  rw [htext, Literal.text, List.append_assoc]

/-- A text without a plus sign is a constant exactly if it is a sign, a mark and digits of a number within
the limit, and its value is congruent to that number. So every signed number is read back from its decimal
digits, and it does not matter in which base a number is written. -/
theorem constant?_exact :
    (∀ (text : String) (v : Int64), '+' ∉ text.toList →
      (constant? text = some v ↔
        ∃ l m, text.toList = Literal.text l ∧ l.Denotes m ∧ m ≤ l.limit ∧
          v.toInt ≡ l.signed m [ZMOD 2 ^ 64])) ∧
      (∀ v : Int64, constant? (toString v.toInt) = some v) ∧
      ∀ (l l' : Literal) (m : Nat), l.negative = l'.negative → l.Denotes m → l'.Denotes m →
        constant? (String.ofList l.text) = constant? (String.ofList l'.text) := by
  refine ⟨?_, constant?_toString, ?_⟩
  · intro text v hplus
    constructor
    · intro h
      obtain ⟨l, m, htext, hdenotes⟩ := exists_literal hplus h
      rw [← String.ofList_toList (s := text), htext, constant?_text l hdenotes] at h
      exact ⟨l, m, htext, hdenotes, h⟩
    · rintro ⟨l, m, htext, hdenotes, h⟩
      rw [← String.ofList_toList (s := text), htext, constant?_text l hdenotes]
      exact h
  · intro l l' m hsign h h'
    -- limit and value depend on the sign and the number alone
    ext v
    rw [constant?_text l h, constant?_text l' h', Literal.limit, Literal.limit, Literal.signed,
      Literal.signed, hsign]

/-- The least signed number, in hexadecimal digits with a sign. -/
def leastInHex : Literal :=
  { negative := true, base := .hex, digits := "8000000000000000".toList }

theorem constant?_exact_leastInHex :
    String.ofList leastInHex.text = "-0x8000000000000000" ∧ '+' ∉ "-0x8000000000000000".toList ∧
      constant? "-0x8000000000000000" = some Int64.minValue ∧
      constant? "-0x8000000000000000" = constant? "-9223372036854775808" := by
  have hhex : leastInHex.Denotes (2 ^ 63) :=
    ⟨by decide, 8 :: List.replicate 15 0, (Numeral.digits?_eq_some_iff (by decide) _ _).mp (by decide),
      by decide⟩
  have hdecimal : Literal.Denotes ⟨true, .decimal, "9223372036854775808".toList⟩ (2 ^ 63) :=
    ⟨by decide, [9, 2, 2, 3, 3, 7, 2, 0, 3, 6, 8, 5, 4, 7, 7, 5, 8, 0, 8],
      (Numeral.digits?_eq_some_iff (by decide) _ _).mp (by decide), by decide⟩
  obtain ⟨hread, -, hagree⟩ := constant?_exact
  refine ⟨by decide, by decide, ?_, hagree leastInHex ⟨true, .decimal, _⟩ _ rfl hhex hdecimal⟩
  exact (hread _ _ (by decide)).mpr ⟨leastInHex, 2 ^ 63, by decide, hhex, by decide, by decide⟩

end Asm

end PrefixVM
