import PrefixVM.Proofs.BitView
import PrefixVM.Decoder

/-!
The readers of a decoder. A reader recovers a coding when it answers `a` exactly where the code of `a`
stands at the cursor, and then moves the cursor behind it. The readers of bits, fields, codewords and
operands recover what the writers of bit strings write.
-/
namespace PrefixVM

namespace Code

def bits (c : Code) : Bits :=
  c.stream.toBits

@[simp] theorem length_bits (c : Code) : c.bits.length = c.length :=
  Stream.length_toBits c.stream

theorem bit?_eq_getElem? (c : Code) (i : Nat) : c.bit? i = c.bits[i]? :=
  (Stream.getElem?_toBits c.stream i).symm

/-- A number in the code is the value of its bits. -/
theorem number_eq_value (c : Code) (i width : Nat) (h : i + width ≤ c.length) :
    c.number i width = Bits.value ((c.bits.drop i).take width) := by
  induction width generalizing i with
  | zero => rfl
  | succ width ih =>
    have hi : i < c.bits.length := by rw [length_bits]; omega
    have hget : c.bits[i]? = some (c.stream.bit i) :=
      Stream.getElem?_toBits_of_lt c.stream i (by rw [length_bits] at hi; exact hi)
    have hbit : c.bits[i] = c.stream.bit i := by
      rw [List.getElem?_eq_getElem hi] at hget
      exact Option.some.inj hget
    rw [number, ih (i + 1) (by omega), List.drop_eq_getElem_cons hi, List.take_succ_cons, hbit,
      Bits.value]
    cases c.stream.bit i <;> simp [Nat.add_comm]

end Code

namespace Decoder

def rest (d : Decoder) : Bits :=
  d.code.bits.drop d.cursor

def skip (d : Decoder) (n : Nat) : Decoder :=
  { d with cursor := d.cursor + n }

def withRecord (d : Decoder) (o : Operands) : Decoder :=
  { d with record := o }

@[simp] theorem withRecord_code (d : Decoder) (o : Operands) : (d.withRecord o).code = d.code := rfl

@[simp] theorem withRecord_cursor (d : Decoder) (o : Operands) :
    (d.withRecord o).cursor = d.cursor := rfl

@[simp] theorem withRecord_record (d : Decoder) (o : Operands) : (d.withRecord o).record = o := rfl

@[simp] theorem withRecord_rest (d : Decoder) (o : Operands) : (d.withRecord o).rest = d.rest := rfl

@[simp] theorem withRecord_withRecord (d : Decoder) (o p : Operands) :
    (d.withRecord o).withRecord p = d.withRecord p := rfl

@[simp] theorem withRecord_skip (d : Decoder) (o : Operands) (n : Nat) :
    (d.withRecord o).skip n = (d.skip n).withRecord o := rfl

@[simp] theorem skip_code (d : Decoder) (n : Nat) : (d.skip n).code = d.code := rfl

@[simp] theorem skip_cursor (d : Decoder) (n : Nat) : (d.skip n).cursor = d.cursor + n := rfl

@[simp] theorem skip_record (d : Decoder) (n : Nat) : (d.skip n).record = d.record := rfl

@[simp] theorem skip_zero (d : Decoder) : d.skip 0 = d := rfl

@[simp] theorem skip_skip (d : Decoder) (m n : Nat) : (d.skip m).skip n = d.skip (m + n) := by
  simp [skip, Nat.add_assoc]

@[simp] theorem rest_skip (d : Decoder) (n : Nat) : (d.skip n).rest = d.rest.drop n := by
  simp [rest, skip]

theorem bit?_cursor (d : Decoder) : d.code.bit? d.cursor = d.rest.head? := by
  rw [Code.bit?_eq_getElem?, rest, List.head?_drop]

theorem length_rest (d : Decoder) : d.rest.length = d.code.length - d.cursor := by
  simp [rest]

end Decoder

theorem Bits.append_prefix_iff (a b l : Bits) : a ++ b <+: l ↔ a <+: l ∧ b <+: l.drop a.length := by
  constructor
  · rintro ⟨r, rfl⟩
    refine ⟨⟨b ++ r, by rw [List.append_assoc]⟩, ⟨r, ?_⟩⟩
    rw [List.append_assoc, List.drop_left]
  · rintro ⟨⟨r, rfl⟩, hb⟩
    rw [List.drop_left] at hb
    obtain ⟨t, rfl⟩ := hb
    exact ⟨t, by rw [List.append_assoc]⟩

namespace Opcode

theorem mem_encoded_iff {op : Opcode} : op ∈ encoded ↔ op.codeword ≠ [] := by
  cases op <;> decide

theorem ne_padding_of_mem_encoded {op : Opcode} (hop : op ∈ encoded) : op ≠ .padding := by
  rintro rfl
  exact absurd hop (by decide)

theorem length_codeword_le (op : Opcode) : op.codeword.length ≤ maxCodewordLength := by
  cases op <;> decide

/-- No codeword starts another one, so the bits in front of the last one of a codeword form none yet. -/
theorem ofCodeword?_eq_none {op : Opcode} (hop : op ∈ encoded) {word more : List Bool} {b c : Bool}
    (hword : op.codeword = word ++ b :: c :: more) : ofCodeword? (word ++ [b]) = none := by
  rw [Option.eq_none_iff_forall_ne_some]
  intro op' h
  have hword' := codeword_of_ofCodeword? h
  have hop' : op' ∈ encoded := mem_encoded_iff.mpr (by simp [hword'])
  have hprefix : op'.codeword.isPrefixOf op.codeword = true := by
    rw [List.isPrefixOf_iff_prefix, hword, hword']
    exact ⟨c :: more, by rw [List.append_assoc]; rfl⟩
  rw [eq_of_codeword_isPrefixOf op' hop' op hop hprefix, hword] at hword'
  simp at hword'

end Opcode

theorem EStateM.run_get_bind {ε σ β : Type} (f : σ → EStateM ε σ β) (s : σ) :
    (get >>= f).run s = (f s).run s := rfl

theorem EStateM.run_bind_eq_ok {ε σ α β : Type} (x : EStateM ε σ α) (f : α → EStateM ε σ β)
    (s : σ) (b : β) (s' : σ) :
    (x >>= f).run s = .ok b s' ↔ ∃ a s₁, x.run s = .ok a s₁ ∧ (f a).run s₁ = .ok b s' := by
  change EStateM.bind x f s = _ ↔ ∃ a s₁, x s = _ ∧ f a s₁ = _
  unfold EStateM.bind
  cases hx : x s with
  | ok a s₁ => simp
  | error e s₁ => simp

namespace Reading

/-- A reader recovers a coding of the admissible values: it answers `a` exactly where the code of `a`
stands, and moves the cursor behind it. -/
def Recovers {α : Type} (x : Reading α) (code : α → Bits) (admissible : α → Prop) : Prop :=
  ∀ d a d', x.run d = .ok a d' ↔
    admissible a ∧ code a <+: d.rest ∧ d' = d.skip (code a).length

/-- What follows a reader that recovers a coding starts behind the code of the answer. -/
theorem Recovers.run_bind {α β : Type} {x : Reading α} {code : α → Bits} {admissible : α → Prop}
    (hx : Recovers x code admissible) (f : α → Reading β) (d : Decoder) (b : β) (d' : Decoder) :
    (x >>= f).run d = .ok b d' ↔
      ∃ a, admissible a ∧ code a <+: d.rest ∧ (f a).run (d.skip (code a).length) = .ok b d' := by
  rw [EStateM.run_bind_eq_ok]
  constructor
  · rintro ⟨a, d₁, hread, h⟩
    obtain ⟨ha, hpre, rfl⟩ := (hx d a d₁).mp hread
    exact ⟨a, ha, hpre, h⟩
  · rintro ⟨a, ha, hpre, h⟩
    exact ⟨a, _, (hx d a _).mpr ⟨ha, hpre, rfl⟩, h⟩

theorem bit_run_nil {d : Decoder} (h : d.rest = []) :
    bit.run d = .error (.streamExhausted d.cursor) d := by
  rw [bit, EStateM.run_get_bind, d.bit?_cursor, h, List.head?_nil]
  rfl

theorem bit_run_cons {d : Decoder} {b : Bool} {r : Bits} (h : d.rest = b :: r) :
    bit.run d = .ok b (d.skip 1) := by
  rw [bit, EStateM.run_get_bind, d.bit?_cursor, h, List.head?_cons]
  rfl

theorem recovers_bit : Recovers bit (fun b => [b]) fun _ => True := by
  intro d b d'
  cases hrest : d.rest with
  | nil =>
    rw [bit_run_nil hrest]
    simp
  | cons c r =>
    rw [bit_run_cons hrest]
    simp [eq_comm]

theorem field_run (width : Nat) (hw : 0 < width) (d : Decoder) :
    (field width).run d = if width ≤ d.rest.length then
      .ok (Bits.value (d.rest.take width)) (d.skip width)
    else .error (.streamExhausted (max d.cursor d.code.length))
      { d with cursor := max d.cursor d.code.length } := by
  have hlen := d.length_rest
  rw [field, EStateM.run_get_bind]
  by_cases h : d.cursor + width ≤ d.code.length
  · rw [if_pos h, if_pos (by omega), Decoder.rest, ← Code.number_eq_value _ _ _ h]
    rfl
  · rw [if_neg h, if_neg (by omega)]
    rfl

theorem recovers_field (width : Nat) (hw : 0 < width) :
    Recovers (field width) (Bits.field width) (· < 2 ^ width) := by
  intro d n d'
  rw [field_run width hw, Bits.length_field]
  constructor
  · intro h
    split at h
    next hlen =>
      obtain ⟨rfl, rfl⟩ := EStateM.Result.ok.inj h
      have htake : (d.rest.take width).length = width := by rw [List.length_take]; omega
      refine ⟨?_, ?_, rfl⟩
      · have hlt := Bits.value_lt (d.rest.take width)
        rwa [htake] at hlt
      · have hfield := Bits.field_value (d.rest.take width)
        rw [htake] at hfield
        rw [hfield]
        exact List.take_prefix width d.rest
    next => cases h
  · rintro ⟨hn, ⟨r, hr⟩, rfl⟩
    have hlen : width ≤ d.rest.length := by
      rw [← hr, List.length_append, Bits.length_field]; omega
    have htake : d.rest.take width = Bits.field width n := by
      rw [← hr, List.take_append_of_le_length (by rw [Bits.length_field]), List.take_of_length_le]
      rw [Bits.length_field]
    rw [if_pos hlen, htake, Bits.value_field, Nat.mod_eq_of_lt hn]

/-- Reading on from the start `word` of a codeword finds the operation whose codeword goes on with the
bits at the cursor. -/
theorem opcodeFrom_run_eq_ok (word : List Bool) (n : Nat) (d : Decoder) (op : Opcode) (d' : Decoder) :
    (opcodeFrom word n).run d = .ok op d' ↔
      op ∈ Opcode.encoded ∧ ∃ b more, op.codeword = word ++ b :: more ∧ more.length < n ∧
        b :: more <+: d.rest ∧ d' = d.skip (more.length + 1) := by
  induction n generalizing word d with
  | zero =>
    constructor
    · intro h
      cases h
    · rintro ⟨-, b, more, -, hlen, -⟩
      omega
  | succ n ih =>
    rw [opcodeFrom, recovers_bit.run_bind]
    simp only [true_and, List.concat_eq_append, List.length_singleton]
    constructor
    · rintro ⟨b, ⟨r, hr⟩, h⟩
      split at h
      next op' hop =>
        -- the bits read so far are the codeword
        obtain ⟨rfl, rfl⟩ := EStateM.Result.ok.inj h
        have hword := Opcode.codeword_of_ofCodeword? hop
        refine ⟨Opcode.mem_encoded_iff.mpr (by simp [hword]), b, [], hword, ?_, ⟨r, hr⟩, rfl⟩
        exact Nat.succ_pos n
      next =>
        obtain ⟨hop, c, more, hword, hlen, ⟨t, ht⟩, rfl⟩ := (ih _ _).mp h
        rw [Decoder.rest_skip, ← hr] at ht
        refine ⟨hop, b, c :: more, by rw [hword, List.append_assoc]; rfl, ?_, ⟨t, ?_⟩, ?_⟩
        · rw [List.length_cons]
          omega
        · rw [← hr, List.cons_append, ht]
          rfl
        · rw [Decoder.skip_skip, List.length_cons, Nat.add_comm]
    · rintro ⟨hop, b, more, hword, hlen, ⟨r, hr⟩, rfl⟩
      refine ⟨b, ⟨more ++ r, hr⟩, ?_⟩
      match more with
      | [] =>
        rw [← hword, Opcode.ofCodeword?_codeword op hop]
        rfl
      | c :: more =>
        rw [Opcode.ofCodeword?_eq_none hop hword]
        refine (ih _ _).mpr ⟨hop, c, more, ?_, ?_, ⟨r, ?_⟩, ?_⟩
        · rw [hword, List.append_assoc]
          rfl
        · rw [List.length_cons] at hlen
          omega
        · rw [Decoder.rest_skip, ← hr]
          rfl
        · rw [Decoder.skip_skip, List.length_cons, Nat.add_comm]

theorem recovers_opcode : Recovers opcode Opcode.codeword (· ∈ Opcode.encoded) := by
  intro d op d'
  rw [opcode, opcodeFrom_run_eq_ok]
  constructor
  · rintro ⟨hop, b, more, hword, -, hpre, rfl⟩
    rw [List.nil_append] at hword
    rw [hword]
    exact ⟨hop, hpre, rfl⟩
  · rintro ⟨hop, hpre, rfl⟩
    have hlen := Opcode.length_codeword_le op
    obtain ⟨b, more, hword⟩ := List.exists_cons_of_ne_nil (Opcode.mem_encoded_iff.mp hop)
    rw [hword] at hpre hlen
    refine ⟨hop, b, more, by rw [hword]; rfl, hlen, hpre, ?_⟩
    rw [hword, List.length_cons]

theorem register_run_eq_ok {α : Type} (f : UInt8 → α) (d : Decoder) (a : α) (d' : Decoder) :
    (do return f (UInt8.ofNat (← field 4)) : Reading α).run d = .ok a d' ↔
      ∃ i : UInt8, i.toNat < registerCount ∧ f i = a ∧ Bits.field 4 i.toNat <+: d.rest ∧
        d' = d.skip 4 := by
  rw [(recovers_field 4 (by decide)).run_bind]
  simp only [Bits.length_field]
  constructor
  · rintro ⟨n, hn, hpre, h⟩
    obtain ⟨rfl, rfl⟩ := EStateM.Result.ok.inj h
    have hto : (UInt8.ofNat n).toNat = n := UInt8.toNat_ofNat_of_lt' (Nat.lt_trans hn (by decide))
    exact ⟨UInt8.ofNat n, by rw [hto]; exact hn, rfl, by rw [hto]; exact hpre, rfl⟩
  · rintro ⟨i, hi, rfl, hpre, rfl⟩
    exact ⟨i.toNat, hi, hpre, by rw [UInt8.ofNat_toNat]; rfl⟩

theorem memory_run_eq_ok (d : Decoder) (o : Operand) (d' : Decoder) :
    (do
      let width := Width.ofSelector (← field 2)
      return .memory width (UInt8.ofNat (← field 4)) : Reading Operand).run d = .ok o d' ↔
      ∃ (w : Width) (i : UInt8), i.toNat < registerCount ∧ .memory w i = o ∧
        Bits.field 2 w.selector ++ Bits.field 4 i.toNat <+: d.rest ∧ d' = d.skip 6 := by
  rw [(recovers_field 2 (by decide)).run_bind]
  simp only [register_run_eq_ok, Bits.append_prefix_iff, Bits.length_field, Decoder.rest_skip,
    Decoder.skip_skip]
  constructor
  · rintro ⟨n, hn, hsel, i, hi, rfl, hpre, rfl⟩
    have hwidth : (Width.ofSelector n).selector = n := by
      match n, hn with
      | 0, _ | 1, _ | 2, _ | 3, _ => rfl
    exact ⟨Width.ofSelector n, i, hi, rfl, ⟨by rw [hwidth]; exact hsel, hpre⟩, rfl⟩
  · rintro ⟨w, i, hi, rfl, ⟨hsel, hpre⟩, rfl⟩
    have hlt : w.selector < 2 ^ 2 := by cases w <;> decide
    exact ⟨w.selector, hlt, hsel, i, hi, by rw [Width.ofSelector_selector], hpre, rfl⟩

theorem recovers_operand :
    Recovers operand Bits.ofOperand fun o => o.index.toNat < registerCount := by
  intro d o d'
  rw [operand, recovers_bit.run_bind]
  simp only [true_and, List.length_singleton]
  constructor
  · rintro ⟨b, hb, h⟩
    cases b with
    | false =>
      obtain ⟨i, hi, rfl, hpre, rfl⟩ := (register_run_eq_ok Operand.register _ _ _).mp h
      rw [Decoder.rest_skip] at hpre
      exact ⟨hi, (Bits.append_prefix_iff [false] _ _).mpr ⟨hb, hpre⟩, rfl⟩
    | true =>
      obtain ⟨w, i, hi, rfl, hpre, rfl⟩ := (memory_run_eq_ok _ _ _).mp h
      rw [Decoder.rest_skip] at hpre
      exact ⟨hi, (Bits.append_prefix_iff [true] _ _).mpr ⟨hb, hpre⟩, rfl⟩
  · rintro ⟨hi, hpre, rfl⟩
    cases o with
    | register i =>
      obtain ⟨hb, hpre⟩ := (Bits.append_prefix_iff [false] _ _).mp hpre
      refine ⟨false, hb, (register_run_eq_ok Operand.register _ _ _).mpr ⟨i, hi, rfl, ?_, rfl⟩⟩
      rw [Decoder.rest_skip]
      exact hpre
    | memory w i =>
      obtain ⟨hb, hpre⟩ := (Bits.append_prefix_iff [true] _ _).mp hpre
      refine ⟨true, hb, (memory_run_eq_ok _ _ _).mpr ⟨w, i, hi, rfl, ?_, rfl⟩⟩
      rw [Decoder.rest_skip]
      exact hpre

end Reading

end PrefixVM
