import PrefixVM.Proofs.MachineFaults

/-!
What a fetch does at every place that a decoder can reach. Any bit string either starts with the code of an
instruction or ends inside such a code. In the first case a fetch answers the instruction and stops behind it;
in the second it uses up the stream, and the record shows the operands that were complete by then. Only the
zeros that fill up the last byte are padding, however short the instruction in front of them is.
-/
namespace PrefixVM

namespace Bits

/-- The bits are the start of a longer bit string. -/
structure CutShort (bits whole : Bits) : Prop where
  start : bits <+: whole
  shorter : bits.length < whole.length

/-- What ends inside two strings ends inside the first of them, or goes through it and ends inside the
second. -/
theorem CutShort.of_append {bits a b : Bits} (h : CutShort bits (a ++ b)) :
    CutShort bits a ∨ a <+: bits ∧ CutShort (bits.drop a.length) b := by
  have hshorter := h.shorter
  rw [List.length_append] at hshorter
  by_cases hlen : bits.length < a.length
  · left
    exact ⟨List.prefix_of_prefix_length_le h.start (List.prefix_append a b) (by omega), hlen⟩
  · right
    obtain ⟨r, rfl⟩ : a <+: bits :=
      List.prefix_of_prefix_length_le (List.prefix_append a b) h.start (by omega)
    rw [List.length_append] at hshorter
    rw [List.drop_left]
    exact ⟨List.prefix_append a r, (List.prefix_append_right_inj a).mp h.start, by omega⟩

theorem exists_field_prefix (width : Nat) (bits : Bits) (h : width ≤ bits.length) :
    ∃ n < 2 ^ width, field width n <+: bits := by
  have hlen : (bits.take width).length = width := by rw [List.length_take]; omega
  have hfield := field_value (bits.take width)
  have hlt := value_lt (bits.take width)
  rw [hlen] at hfield hlt
  refine ⟨value (bits.take width), hlt, ?_⟩
  rw [hfield]
  exact List.take_prefix width bits

/-- The codewords are complete: six bits always start with one of them. -/
theorem exists_codeword_prefix (bits : Bits) (h : Opcode.maxCodewordLength ≤ bits.length) :
    ∃ op ∈ Opcode.encoded, op.codeword <+: bits := by
  have htable : ∀ a b c d e f : Bool,
      ∃ op ∈ Opcode.encoded, op.codeword.isPrefixOf [a, b, c, d, e, f] = true := by
    decide
  have hsix (word : Bits) (hword : word.length = 6) : ∃ op ∈ Opcode.encoded, op.codeword <+: word := by
    match word, hword with
    | [a, b, c, d, e, f], _ =>
      obtain ⟨op, hop, hpre⟩ := htable a b c d e f
      exact ⟨op, hop, List.isPrefixOf_iff_prefix.mp hpre⟩
  have hlen : (bits.take 6).length = 6 := by
    rw [List.length_take]
    exact Nat.min_eq_left h
  obtain ⟨op, hop, hpre⟩ := hsix _ hlen
  exact ⟨op, hop, hpre.trans (List.take_prefix 6 bits)⟩

theorem exists_register_prefix (bits : Bits) (h : 4 ≤ bits.length) :
    ∃ i : UInt8, i.toNat < registerCount ∧ field 4 i.toNat <+: bits := by
  obtain ⟨n, hn, hpre⟩ := exists_field_prefix 4 bits h
  have hto : (UInt8.ofNat n).toNat = n := UInt8.toNat_ofNat_of_lt' (Nat.lt_trans hn (by decide))
  exact ⟨UInt8.ofNat n, by rw [hto]; exact hn, by rw [hto]; exact hpre⟩

theorem exists_operand_prefix (bits : Bits) (h : 7 ≤ bits.length) :
    ∃ o : Operand, o.index.toNat < registerCount ∧ ofOperand o <+: bits := by
  match bits with
  | false :: rest =>
    rw [List.length_cons] at h
    obtain ⟨i, hi, hpre⟩ := exists_register_prefix rest (by omega)
    exact ⟨.register i, hi, List.cons_prefix_cons.mpr ⟨rfl, hpre⟩⟩
  | true :: rest =>
    rw [List.length_cons] at h
    obtain ⟨n, hn, hsel⟩ := exists_field_prefix 2 rest (by omega)
    obtain ⟨i, hi, hpre⟩ := exists_register_prefix (rest.drop 2) (by rw [List.length_drop]; omega)
    have hwidth : (Width.ofSelector n).selector = n := by
      match n, hn with
      | 0, _ | 1, _ | 2, _ | 3, _ => rfl
    refine ⟨.memory (Width.ofSelector n) i, hi, List.cons_prefix_cons.mpr ⟨rfl, ?_⟩⟩
    rw [append_prefix_iff, hwidth, length_field]
    exact ⟨hsel, hpre⟩

theorem exists_operands_prefix (n : Nat) (bits : Bits) (h : 7 * n ≤ bits.length) :
    ∃ args : List Operand, args.length = n ∧ (∀ o ∈ args, o.index.toNat < registerCount) ∧
      args.flatMap ofOperand <+: bits := by
  induction n generalizing bits with
  | zero => exact ⟨[], rfl, by simp, List.nil_prefix⟩
  | succ n ih =>
    obtain ⟨o, ho, hpre⟩ := exists_operand_prefix bits (by omega)
    have hlen : (ofOperand o).length ≤ 7 := by
      rw [length_ofOperand]
      cases o <;> simp [Operand.encodedLength]
    obtain ⟨args, hargs, hregs, hrest⟩ := ih (bits.drop (ofOperand o).length)
      (by rw [List.length_drop]; omega)
    refine ⟨o :: args, by rw [List.length_cons, hargs], List.forall_mem_cons.mpr ⟨ho, hregs⟩, ?_⟩
    rw [List.flatMap_cons, append_prefix_iff]
    exact ⟨hpre, hrest⟩

theorem exists_addressPart_prefix (op : Opcode) (bits : Bits) (h : addressWidth ≤ bits.length) :
    ∃ address : UInt32, (op.hasAddress = false → address = 0) ∧ addressPart op address <+: bits := by
  cases hop : op.hasAddress with
  | false => exact ⟨0, fun _ => rfl, by rw [addressPart, hop]; exact List.nil_prefix⟩
  | true =>
    obtain ⟨n, hn, hpre⟩ := exists_field_prefix addressWidth bits h
    refine ⟨UInt32.ofNat n, fun h => absurd h (by decide), ?_⟩
    rw [addressPart, hop, if_pos rfl, ofAddress, UInt32.toNat_ofNat_of_lt' hn]
    exact hpre

theorem exists_constantPart_prefix (op : Opcode) (bits : Bits) (h : constantWidth ≤ bits.length) :
    ∃ constant : Int64, (op.hasConstant = false → constant = 0) ∧
      constantPart op constant <+: bits := by
  cases hop : op.hasConstant with
  | false => exact ⟨0, fun _ => rfl, by rw [constantPart, hop]; exact List.nil_prefix⟩
  | true =>
    obtain ⟨n, hn, hpre⟩ := exists_field_prefix constantWidth bits h
    refine ⟨(UInt64.ofNat n).toInt64, fun h => absurd h (by decide), ?_⟩
    rw [constantPart, hop, if_pos rfl, ofConstant, UInt64.toUInt64_toInt64,
      UInt64.toNat_ofNat_of_lt' hn]
    exact hpre

/-- No instruction is longer than this. -/
def maxInstructionLength : Nat :=
  Opcode.maxCodewordLength + addressWidth + constantWidth + 7 * Opcode.maxOperandCount

/-- The code of an instruction stands at the start of the bits. -/
structure StartsWith (bits : Bits) (op : Opcode) (o : Operands) : Prop where
  opcode : op ∈ Opcode.encoded
  fits : o.Fits op
  code : ofInstruction op o <+: bits

/-- The bits end inside the code of an instruction. -/
structure EndsInside (bits : Bits) (op : Opcode) (o : Operands) : Prop where
  opcode : op ∈ Opcode.encoded
  fits : o.Fits op
  code : CutShort bits (ofInstruction op o)

theorem exists_startsWith_of_length (bits : Bits) (h : maxInstructionLength ≤ bits.length) :
    ∃ op o, bits.StartsWith op o := by
  rw [maxInstructionLength] at h
  obtain ⟨op, hop, hword⟩ := exists_codeword_prefix bits (by omega)
  have hwordLen := Opcode.length_codeword_le op
  have hcount := op.operandCount_le
  obtain ⟨address, haddress, hapre⟩ := exists_addressPart_prefix op (bits.drop op.codeword.length)
    (by rw [List.length_drop]; omega)
  have halen : (addressPart op address).length ≤ addressWidth := by
    rw [length_addressPart]
    split <;> omega
  obtain ⟨constant, hconstant, hcpre⟩ := exists_constantPart_prefix op
    (bits.drop (op.codeword.length + (addressPart op address).length))
    (by rw [List.length_drop]; omega)
  have hclen : (constantPart op constant).length ≤ constantWidth := by
    rw [length_constantPart]
    split <;> omega
  obtain ⟨args, hargs, hregs, hopre⟩ := exists_operands_prefix op.operandCount
    (bits.drop (op.codeword.length + (addressPart op address).length +
      (constantPart op constant).length))
    (by rw [List.length_drop]; omega)
  refine ⟨op, { address, constant, args }, hop, ⟨hargs, hregs, haddress, hconstant⟩, ?_⟩
  rw [ofInstruction_eq, body, List.append_assoc, append_prefix_iff, append_prefix_iff,
    append_prefix_iff, List.drop_drop, List.drop_drop]
  exact ⟨hword, hapre, hcpre, hopre⟩

/-- Any bits start with an instruction or end inside one. -/
theorem startsWith_or_endsInside (bits : Bits) :
    (∃ op o, bits.StartsWith op o) ∨ ∃ op o, bits.EndsInside op o := by
  -- completed with zeros they are long enough to hold an instruction
  obtain ⟨op, o, hstart⟩ := exists_startsWith_of_length
    (bits ++ List.replicate maxInstructionLength false)
    (by rw [List.length_append, List.length_replicate]; omega)
  by_cases hlen : (ofInstruction op o).length ≤ bits.length
  · left
    refine ⟨op, o, hstart.opcode, hstart.fits, ?_⟩
    exact List.prefix_of_prefix_length_le hstart.code (List.prefix_append _ _) hlen
  · right
    refine ⟨op, o, hstart.opcode, hstart.fits, ?_, by omega⟩
    exact List.prefix_of_prefix_length_le (List.prefix_append _ _) hstart.code (by omega)

end Bits

theorem EStateM.run_bind_of_ok {ε σ α β : Type} {x : EStateM ε σ α} {s s' : σ} {a : α}
    (h : x.run s = .ok a s') (f : α → EStateM ε σ β) : (x >>= f).run s = (f a).run s' := by
  change EStateM.bind x f s = _
  unfold EStateM.bind
  rw [show x s = _ from h]
  rfl

theorem EStateM.run_bind_of_error {ε σ α β : Type} {x : EStateM ε σ α} {s s' : σ} {e : ε}
    (h : x.run s = .error e s') (f : α → EStateM ε σ β) : (x >>= f).run s = .error e s' := by
  change EStateM.bind x f s = _
  unfold EStateM.bind
  rw [show x s = _ from h]

namespace Decoder

/-- The decoder at the end of its code. -/
def drained (d : Decoder) : Decoder :=
  { d with cursor := d.code.length }

@[simp] theorem withRecord_drained (d : Decoder) (o : Operands) :
    (d.withRecord o).drained = d.drained.withRecord o := rfl

@[simp] theorem drained_skip (d : Decoder) (n : Nat) : (d.skip n).drained = d.drained := rfl

theorem drained_of_rest {d : Decoder} (hd : d.cursor ≤ d.code.length) (h : d.rest = []) :
    d.drained = d := by
  have hlen := d.length_rest
  rw [h, List.length_nil] at hlen
  have hcursor : d.code.length = d.cursor := by omega
  rw [drained, hcursor]

theorem skip_cursor_le {d : Decoder} {bits : Bits} (hd : d.cursor ≤ d.code.length)
    (hpre : bits <+: d.rest) : (d.skip bits.length).cursor ≤ (d.skip bits.length).code.length := by
  have hlen := hpre.length_le
  rw [d.length_rest] at hlen
  change d.cursor + bits.length ≤ d.code.length
  omega

end Decoder

namespace Reading

open Bits (CutShort)

/-- A reader runs out where the code of an admissible value is cut off: it fails, and the stream is used
up. -/
def RunsOut {α : Type} (x : Reading α) (code : α → Bits) (admissible : α → Prop) : Prop :=
  ∀ d a, d.cursor ≤ d.code.length → admissible a → CutShort d.rest (code a) →
    x.run d = .error (.streamExhausted d.code.length) d.drained

/-- A code of two parts that is cut off: the reader of the first part runs out, or what follows it starts
behind the first part and finds the second one cut off. -/
theorem RunsOut.run_bind {α β : Type} {x : Reading α} {code : α → Bits} {admissible : α → Prop}
    (hx : Recovers x code admissible) (hout : RunsOut x code admissible) (f : α → Reading β)
    {d : Decoder} (hd : d.cursor ≤ d.code.length) (a : α) (ha : admissible a) (tail : Bits)
    (h : CutShort d.rest (code a ++ tail)) :
    CutShort d.rest (code a) ∧
        (x >>= f).run d = .error (.streamExhausted d.code.length) d.drained ∨
      code a <+: d.rest ∧ CutShort (d.skip (code a).length).rest tail ∧
        (x >>= f).run d = (f a).run (d.skip (code a).length) := by
  rcases h.of_append with hcut | ⟨hpre, htail⟩
  · exact .inl ⟨hcut, EStateM.run_bind_of_error (hout d a hd ha hcut) f⟩
  · refine .inr ⟨hpre, by rw [Decoder.rest_skip]; exact htail, ?_⟩
    exact EStateM.run_bind_of_ok ((hx d a _).mpr ⟨ha, hpre, rfl⟩) f

theorem runsOut_bit : RunsOut bit (fun b => [b]) fun _ => True := by
  intro d b hd _ h
  have hrest : d.rest = [] := List.length_eq_zero_iff.mp (Nat.lt_one_iff.mp h.shorter)
  have hlen := d.length_rest
  rw [hrest, List.length_nil] at hlen
  rw [bit_run_nil hrest, Decoder.drained_of_rest hd hrest, show d.cursor = d.code.length by omega]

theorem runsOut_field (width : Nat) (hw : 0 < width) :
    RunsOut (field width) (Bits.field width) (· < 2 ^ width) := by
  intro d n hd _ h
  have hshorter := h.shorter
  rw [Bits.length_field] at hshorter
  rw [field_run width hw, if_neg (by omega), Nat.max_eq_right hd]
  rfl

theorem opcodeFrom_run_cutShort {op : Opcode} (hop : op ∈ Opcode.encoded) (n : Nat)
    (word more : Bits) (hword : op.codeword = word ++ more) (hn : more.length ≤ n) (d : Decoder)
    (hd : d.cursor ≤ d.code.length) (h : CutShort d.rest more) :
    (opcodeFrom word n).run d = .error (.streamExhausted d.code.length) d.drained := by
  induction n generalizing word more d with
  | zero => exact absurd h.shorter (by omega)
  | succ n ih =>
    match more with
    | [] => exact absurd h.shorter (Nat.not_lt_zero _)
    | b :: more =>
      rcases RunsOut.run_bind recovers_bit runsOut_bit _ hd b trivial more h with
        ⟨-, hrun⟩ | ⟨hpre, htail, hrun⟩
      · exact hrun
      · -- one bit more is there, and the codeword goes on behind it
        obtain ⟨c, rest, rfl⟩ : ∃ c rest, more = c :: rest :=
          List.exists_cons_of_length_pos (Nat.zero_lt_of_lt htail.shorter)
        rw [opcodeFrom, hrun]
        simp only [List.concat_eq_append, Opcode.ofCodeword?_eq_none hop hword]
        refine (ih (word ++ [b]) (c :: rest) ?_ ?_ _ (Decoder.skip_cursor_le hd hpre) htail)
        · rw [hword, List.append_assoc]
          rfl
        · rw [List.length_cons] at hn
          omega

theorem runsOut_opcode : RunsOut opcode Opcode.codeword (· ∈ Opcode.encoded) := by
  intro d op hd hop h
  exact opcodeFrom_run_cutShort hop _ [] op.codeword rfl op.length_codeword_le d hd h

theorem register_run_cutShort {α : Type} (f : UInt8 → α) {d : Decoder} (hd : d.cursor ≤ d.code.length)
    {i : UInt8} (hi : i.toNat < registerCount) (h : CutShort d.rest (Bits.field 4 i.toNat)) :
    (do return f (UInt8.ofNat (← field 4)) : Reading α).run d =
      .error (.streamExhausted d.code.length) d.drained :=
  EStateM.run_bind_of_error (runsOut_field 4 (by decide) d i.toNat hd hi h) _

theorem runsOut_operand :
    RunsOut operand Bits.ofOperand fun o => o.index.toNat < registerCount := by
  intro d o hd ho h
  cases o with
  | register i =>
    rcases RunsOut.run_bind recovers_bit runsOut_bit _ hd false trivial
      (Bits.field 4 i.toNat) h with ⟨-, hrun⟩ | ⟨hpre, htail, hrun⟩
    · exact hrun
    · rw [operand, hrun]
      exact register_run_cutShort Operand.register (Decoder.skip_cursor_le hd hpre) ho htail
  | memory w i =>
    rcases RunsOut.run_bind recovers_bit runsOut_bit _ hd true trivial
      (Bits.field 2 w.selector ++ Bits.field 4 i.toNat) h with ⟨-, hrun⟩ | ⟨hpre, htail, hrun⟩
    · exact hrun
    · have hw : w.selector < 2 ^ 2 := by cases w <;> decide
      have hd₁ := Decoder.skip_cursor_le hd hpre
      rw [operand, hrun]
      rcases RunsOut.run_bind (recovers_field 2 (by decide)) (runsOut_field 2 (by decide)) _ hd₁
        w.selector hw _ htail with ⟨-, hrun⟩ | ⟨hpre, htail, hrun⟩
      · exact hrun
      · refine hrun.trans ?_
        exact register_run_cutShort _ (Decoder.skip_cursor_le hd₁ hpre) ho htail

end Reading

/-- The operands whose code lies within the first `n` bits of theirs. -/
def Operand.within : (n : Nat) → List Operand → List Operand
  | _, [] => []
  | n, o :: rest => if o.encodedLength ≤ n then o :: within (n - o.encodedLength) rest else []

/-- The part of the operands whose code lies within the first `n` bits of the instruction. -/
def Operands.within (o : Operands) (op : Opcode) (n : Nat) : Operands :=
  let afterAddress := op.codeword.length + (Bits.addressPart op o.address).length
  let afterConstant := afterAddress + (Bits.constantPart op o.constant).length
  { address := if afterAddress ≤ n then o.address else 0
    constant := if afterConstant ≤ n then o.constant else 0
    args := Operand.within (n - afterConstant) o.args }

theorem Operand.within_of_lt {n : Nat} {o : Operand} (rest : List Operand) (h : n < o.encodedLength) :
    Operand.within n (o :: rest) = [] := by
  rw [Operand.within, if_neg (by omega)]

@[simp] theorem Operand.within_zero (args : List Operand) : Operand.within 0 args = [] := by
  cases args with
  | nil => rfl
  | cons o rest =>
    apply within_of_lt
    cases o <;> simp [encodedLength]

/-- Nothing is complete as long as the address is not. -/
theorem Operands.within_of_lt {o : Operands} {op : Opcode} {n : Nat}
    (h : n < op.codeword.length + (Bits.addressPart op o.address).length) : o.within op n = {} := by
  rw [within, if_neg (by omega), if_neg (by omega), Nat.sub_eq_zero_of_le (by omega),
    Operand.within_zero]

/-- Behind the address, what is complete is counted from there on. -/
theorem Operands.within_of_address {o : Operands} {op : Opcode} {n : Nat}
    (h : (Bits.addressPart op o.address).length ≤ n) :
    o.within op (op.codeword.length + n) =
      { address := o.address
        constant := if (Bits.constantPart op o.constant).length ≤
          n - (Bits.addressPart op o.address).length then o.constant else 0
        args := Operand.within (n - (Bits.addressPart op o.address).length -
          (Bits.constantPart op o.constant).length) o.args } := by
  have hconstant : (op.codeword.length + (Bits.addressPart op o.address).length +
        (Bits.constantPart op o.constant).length ≤ op.codeword.length + n) =
      ((Bits.constantPart op o.constant).length ≤ n - (Bits.addressPart op o.address).length) := by
    rw [eq_iff_iff]
    omega
  have hargs : op.codeword.length + n - (op.codeword.length +
        (Bits.addressPart op o.address).length + (Bits.constantPart op o.constant).length) =
      n - (Bits.addressPart op o.address).length - (Bits.constantPart op o.constant).length := by
    omega
  rw [within, if_pos (Nat.add_le_add_left h _), hargs]
  simp only [hconstant]

namespace Reading

open Bits (CutShort)

/-- Operands that are cut off: those in front of the cut are in the record. -/
theorem operands_run_cutShort (args : List Operand) (hregs : ∀ o ∈ args, o.index.toNat < registerCount)
    (d : Decoder) (hd : d.cursor ≤ d.code.length) (h : CutShort d.rest (args.flatMap Bits.ofOperand)) :
    (operands args.length).run d = .error (.streamExhausted d.code.length)
      (d.drained.withRecord
        { d.record with args := d.record.args ++ Operand.within d.rest.length args }) := by
  induction args generalizing d with
  | nil => exact absurd h.shorter (Nat.not_lt_zero _)
  | cons o args ih =>
    obtain ⟨ho, hregs⟩ := List.forall_mem_cons.mp hregs
    rw [List.flatMap_cons] at h
    rw [List.length_cons, operands]
    rcases RunsOut.run_bind recovers_operand runsOut_operand _ hd o ho _ h with
      ⟨hcut, hrun⟩ | ⟨hpre, htail, hrun⟩
    · have hshorter := hcut.shorter
      rw [Bits.length_ofOperand] at hshorter
      rw [hrun, Operand.within_of_lt args hshorter, List.append_nil]
      rfl
    · have hle := hpre.length_le
      rw [Bits.length_ofOperand] at hle
      have hnext := ih hregs ((d.skip (Bits.ofOperand o).length).withRecord
        { d.record with args := d.record.args ++ [o] }) (Decoder.skip_cursor_le hd hpre) htail
      rw [Operand.within, if_pos hle]
      refine (hrun.trans hnext).trans ?_
      simp

theorem addressPart_run_cutShort {op : Opcode} {address : UInt32} {d : Decoder}
    (hd : d.cursor ≤ d.code.length) (h : CutShort d.rest (Bits.addressPart op address)) :
    (addressPart op).run d = .error (.streamExhausted d.code.length) d.drained := by
  unfold Bits.addressPart at h
  unfold addressPart
  split at h
  next hop =>
    rw [if_pos hop]
    exact EStateM.run_bind_of_error
      (runsOut_field Bits.addressWidth (by decide) d _ hd address.toNat_lt h) _
  next => exact absurd h.shorter (Nat.not_lt_zero _)

theorem constantPart_run_cutShort {op : Opcode} {constant : Int64} {d : Decoder}
    (hd : d.cursor ≤ d.code.length) (h : CutShort d.rest (Bits.constantPart op constant)) :
    (constantPart op).run d = .error (.streamExhausted d.code.length) d.drained := by
  unfold Bits.constantPart at h
  unfold constantPart
  split at h
  next hop =>
    rw [if_pos hop]
    exact EStateM.run_bind_of_error
      (runsOut_field Bits.constantWidth (by decide) d _ hd constant.toUInt64.toNat_lt h) _
  next => exact absurd h.shorter (Nat.not_lt_zero _)

/-- What stands behind the address is cut off. -/
theorem constantPart_operands_run_cutShort {op : Opcode} {o : Operands} (hfits : o.Fits op)
    {d : Decoder} (hconstant : d.record.constant = 0) (hargs : d.record.args = [])
    (hd : d.cursor ≤ d.code.length)
    (h : CutShort d.rest (Bits.constantPart op o.constant ++ o.args.flatMap Bits.ofOperand)) :
    (do constantPart op; operands op.operandCount : Reading Unit).run d =
      .error (.streamExhausted d.code.length) (d.drained.withRecord
        { address := d.record.address
          constant := if (Bits.constantPart op o.constant).length ≤ d.rest.length then o.constant else 0
          args := Operand.within (d.rest.length - (Bits.constantPart op o.constant).length) o.args }) := by
  rcases h.of_append with hcut | ⟨hpre, h⟩
  · have hshorter := hcut.shorter
    rw [if_neg (by omega), Nat.sub_eq_zero_of_le (by omega), Operand.within_zero, ← hconstant, ← hargs]
    exact EStateM.run_bind_of_error (constantPart_run_cutShort hd hcut) _
  · have hread := (constantPart_run_eq_ok op d _).mpr
      ⟨o.constant, fun hop => (hfits.constant hop).trans hconstant.symm, hpre, rfl⟩
    have hcut := operands_run_cutShort o.args hfits.registers
      ((d.skip (Bits.constantPart op o.constant).length).withRecord
        { d.record with constant := o.constant }) (Decoder.skip_cursor_le hd hpre) (by simpa using h)
    rw [EStateM.run_bind_of_ok hread, ← hfits.args_length, hcut, if_pos hpre.length_le]
    simp [hargs]

/-- What stands behind a codeword is cut off: the fields in front of the cut are in the record. -/
theorem body_run_cutShort {op : Opcode} {o : Operands} (hfits : o.Fits op) {d : Decoder}
    (hrecord : d.record = {}) (hd : d.cursor ≤ d.code.length)
    (h : CutShort d.rest (Bits.body op o)) :
    (body op).run d = .error (.streamExhausted d.code.length)
      (d.drained.withRecord (o.within op (op.codeword.length + d.rest.length))) := by
  rw [Bits.body, List.append_assoc] at h
  rw [body_eq_parts]
  rcases h.of_append with hcut | ⟨hpre, h⟩
  · rw [Operands.within_of_lt (Nat.add_lt_add_left hcut.shorter _), ← hrecord]
    exact EStateM.run_bind_of_error (addressPart_run_cutShort hd hcut) _
  · have hread := (addressPart_run_eq_ok op d _).mpr
      ⟨o.address, fun hop => by rw [hrecord]; exact hfits.address hop, hpre, rfl⟩
    have hle := hpre.length_le
    have hcut := constantPart_operands_run_cutShort hfits
      (d := (d.skip (Bits.addressPart op o.address).length).withRecord
        { d.record with address := o.address }) (by rw [hrecord]; rfl) (by rw [hrecord]; rfl)
      (Decoder.skip_cursor_le hd hpre) (by simpa using h)
    rw [EStateM.run_bind_of_ok hread, hcut, Operands.within_of_address hle]
    simp

/-- An instruction that is cut off: the stream is used up, and the record shows what was complete. -/
theorem instruction_run_endsInside {d : Decoder} (hd : d.cursor ≤ d.code.length)
    (hpad : d.code.isPadding d.cursor = false) {op : Opcode} {o : Operands}
    (h : d.rest.EndsInside op o) :
    instruction.run d = .error (.streamExhausted d.code.length)
      (d.drained.withRecord (o.within op d.rest.length)) := by
  rw [instruction_run, hpad, if_neg (by decide)]
  have hcode := h.code
  rw [Bits.ofInstruction_eq] at hcode
  rcases RunsOut.run_bind recovers_opcode runsOut_opcode (fun op => do body op; return op)
    (d := d.withRecord {}) hd op h.opcode _ hcode with ⟨hcut, hrun⟩ | ⟨hpre, htail, hrun⟩
  · have hshorter := hcut.shorter
    rw [Decoder.withRecord_rest] at hshorter
    rw [hrun, Operands.within_of_lt (Nat.lt_of_lt_of_le hshorter (Nat.le_add_right _ _))]
    rfl
  · have hle := hpre.length_le
    rw [Decoder.withRecord_rest] at hle
    rw [hrun, EStateM.run_bind_of_error
      (body_run_cutShort h.fits rfl (Decoder.skip_cursor_le (d := d.withRecord {}) hd hpre) htail)]
    rw [Decoder.rest_skip, Decoder.withRecord_rest, List.length_drop, Nat.add_sub_cancel' hle]
    rfl

end Reading

namespace Decoder

theorem fetch_of_startsWith {d : Decoder} {op : Opcode} {o : Operands} (h : d.rest.StartsWith op o) :
    d.fetch = (.ok op, (d.skip (Bits.ofInstruction op o).length).withRecord o) :=
  fetch_of_prefix d op o h.opcode h.fits h.code

theorem fetch_of_endsInside {d : Decoder} (hd : d.cursor ≤ d.code.length)
    (hpad : d.code.isPadding d.cursor = false) {op : Opcode} {o : Operands}
    (h : d.rest.EndsInside op o) :
    d.fetch = (.error (.streamExhausted d.code.length),
      d.drained.withRecord (o.within op d.rest.length)) := by
  rw [fetch, Reading.instruction_run_endsInside hd hpad h]

/-- No two instructions start the same bits, since a fetch has one answer. -/
theorem startsWith_unique {d : Decoder} {op op' : Opcode} {o o' : Operands}
    (h : d.rest.StartsWith op o) (h' : d.rest.StartsWith op' o') : op' = op ∧ o' = o := by
  have heq := (fetch_of_startsWith h').symm.trans (fetch_of_startsWith h)
  exact ⟨Except.ok.inj (congrArg Prod.fst heq), congrArg (fun r => r.2.record) heq⟩

theorem not_startsWith_of_endsInside {d : Decoder} (hd : d.cursor ≤ d.code.length)
    (hpad : d.code.isPadding d.cursor = false) {op op' : Opcode} {o o' : Operands}
    (h : d.rest.EndsInside op o) : ¬ d.rest.StartsWith op' o' := by
  intro h'
  have heq := (fetch_of_startsWith h').symm.trans (fetch_of_endsInside hd hpad h)
  cases congrArg Prod.fst heq

/-- The calls that move a decoder. -/
inductive Move where
  | fetch
  | jump (target : UInt32)

/-- The decoder behind a call, which may have failed. A jump that fails leaves the decoder alone. -/
def move (d : Decoder) : Move → Decoder
  | .fetch => d.fetch.2
  | .jump target =>
    match d.jump target with
    | .ok d' => d'
    | .error _ => d

def moveAll (d : Decoder) (moves : List Move) : Decoder :=
  moves.foldl move d

/-- The three answers of a fetch inside a code: padding, the instruction that stands at the cursor, or the end of
the stream, where the decoder then is. -/
theorem Within.fetch_cases {d : Decoder} {code : Code} (hd : d.Within code) :
    code.isPadding d.cursor = true ∧ d.fetch = (.ok .padding, d.withRecord {}) ∨
    (∃ op o, d.rest.StartsWith op o ∧
      d.fetch = (.ok op, (d.skip (Bits.ofInstruction op o).length).withRecord o)) ∨
    ∃ o, d.fetch = (.error (.streamExhausted code.length), d.drained.withRecord o) := by
  obtain ⟨rfl, hcursor⟩ := hd
  cases hpad : d.code.isPadding d.cursor with
  | true => exact .inl ⟨rfl, fetch_of_isPadding d hpad⟩
  | false =>
    right
    rcases d.rest.startsWith_or_endsInside with ⟨op, o, h⟩ | ⟨op, o, h⟩
    · exact .inl ⟨op, o, h, fetch_of_startsWith h⟩
    · exact .inr ⟨_, fetch_of_endsInside hcursor hpad h⟩

/-- A fetch stays inside the code, also when it fails. -/
theorem Within.fetch {d : Decoder} {code : Code} (hd : d.Within code) : d.fetch.2.Within code := by
  have hcases := hd.fetch_cases
  obtain ⟨rfl, hcursor⟩ := hd
  rcases hcases with ⟨-, h⟩ | ⟨op, o, hstart, h⟩ | ⟨o, h⟩
  · rw [h]
    exact ⟨rfl, hcursor⟩
  · rw [h]
    exact ⟨rfl, skip_cursor_le hcursor hstart.code⟩
  · rw [h]
    exact ⟨rfl, Nat.le_refl _⟩

theorem Within.move {d : Decoder} {code : Code} (hd : d.Within code) (m : Move) :
    (d.move m).Within code := by
  cases m with
  | fetch => exact hd.fetch
  | jump target =>
    rw [Decoder.move]
    split
    next d' hjump => exact hd.jump hjump
    next => exact hd

theorem Within.moveAll {d : Decoder} {code : Code} (hd : d.Within code) (moves : List Move) :
    (d.moveAll moves).Within code := by
  induction moves generalizing d with
  | nil => exact hd
  | cons m rest ih => exact ih (hd.move m)

/-- A fetch accepts exactly the codes of instructions. Wherever fetches and jumps have led a decoder, it
stands inside the code. If the last set bit is not behind the cursor and fewer than eight bits are left, a
fetch answers padding. Otherwise the bits from the cursor on either start with one instruction, which is the
answer, or end inside the code of an instruction; then the fetch fails at the end of the stream, and the
record shows what lies in front of it. -/
theorem fetch_moveAll (code : Code) (moves : List Move) :
    let d := (start code).moveAll moves
    d.code = code ∧ d.cursor ≤ code.length ∧
      if code.stream.lastSet?.getD 0 ≤ d.cursor ∧ code.length - d.cursor < 8 then
        d.fetch = (.ok .padding, { d with record := {} })
      else
        ((∃ op o, d.rest.StartsWith op o) ∨ ∃ op o, d.rest.EndsInside op o) ∧
        ¬ ((∃ op o, d.rest.StartsWith op o) ∧ ∃ op o, d.rest.EndsInside op o) ∧
        (∀ op o, d.rest.StartsWith op o →
          (∀ op' o', d.rest.StartsWith op' o' → op' = op ∧ o' = o) ∧
          d.fetch = (.ok op,
            { code, cursor := d.cursor + (Bits.ofInstruction op o).length, record := o })) ∧
        ∀ op o, d.rest.EndsInside op o →
          d.fetch = (.error (.streamExhausted code.length),
            { code, cursor := code.length, record := o.within op d.rest.length }) := by
  intro d
  obtain ⟨hcode, hcursor⟩ : d.Within code := (within_start code).moveAll moves
  refine ⟨hcode, hcursor, ?_⟩
  have hd : d.cursor ≤ d.code.length := by rwa [hcode]
  have hpad : d.code.isPadding d.cursor = true ↔
      code.stream.lastSet?.getD 0 ≤ d.cursor ∧ code.length - d.cursor < 8 := by
    rw [Code.isPadding, Bool.and_eq_true_iff, decide_eq_true_iff, decide_eq_true_iff,
      d.code.paddingStart_eq, hcode]
    rfl
  split
  next h => exact fetch_of_isPadding d (hpad.mpr h)
  next h =>
    have hclear : d.code.isPadding d.cursor = false := Bool.eq_false_iff.mpr fun heq => h (hpad.mp heq)
    refine ⟨d.rest.startsWith_or_endsInside, ?_, ?_, ?_⟩
    · rintro ⟨⟨op, o, hstart⟩, op', o', hinside⟩
      exact not_startsWith_of_endsInside hd hclear hinside hstart
    · intro op o hstart
      refine ⟨fun op' o' => startsWith_unique hstart, ?_⟩
      rw [fetch_of_startsWith hstart, ← hcode]
      rfl
    · intro op o hinside
      rw [fetch_of_endsInside hd hclear hinside, ← hcode]
      rfl

/-- A byte that holds a move up to its first operand. -/
example : (start (Code.ofBytes [1])).fetch.1 = .error (.streamExhausted 8) ∧
    (start (Code.ofBytes [1])).fetch.2.record = { args := [.register 8] } := by
  decide

end Decoder

/-- The operands that an operation carries; everything else is zero. -/
def Operands.carried (o : Operands) (op : Opcode) : Operands :=
  { address := if op.hasAddress then o.address else 0
    constant := if op.hasConstant then o.constant else 0
    args := o.args }

theorem Bits.ofInstruction_carried (op : Opcode) (o : Operands) :
    ofInstruction op (o.carried op) = ofInstruction op o := by
  unfold ofInstruction Operands.carried
  cases op.hasAddress <;> cases op.hasConstant <;> rfl

theorem Operands.fits_carried {o : Operands} {op : Opcode} (hlen : o.args.length = op.operandCount)
    (hregs : ∀ a ∈ o.args, a.index.toNat < registerCount) : (o.carried op).Fits op where
  args_length := hlen
  registers := hregs
  address h := by simp [carried, h]
  constant h := by simp [carried, h]

/-- Padding never swallows an instruction. Whatever stands in front of its code and behind it, a decoder at
its first bit fetches the instruction and stops right behind it, also when it is the last one, when it is
shorter than a byte and when all its bits are zero. -/
theorem Decoder.fetch_pack (op : Opcode) (o : Operands) (before after : Bits) (record : Operands)
    (hop : op ∈ Opcode.encoded) (hlen : o.args.length = op.operandCount)
    (hregs : ∀ a ∈ o.args, a.index.toNat < registerCount) :
    let code := Code.ofBytes (Bits.pack (before ++ Bits.ofInstruction op o ++ after))
    op ≠ .padding ∧
      fetch { code, cursor := before.length, record } =
        (.ok op,
          { code
            cursor := before.length + (Bits.ofInstruction op o).length
            record := o.carried op }) := by
  intro code
  have hbits : code.bits = before ++ Bits.ofInstruction op o ++ after ++ _ :=
    Stream.toBits_ofCode_pack _
  have hstart : Bits.StartsWith (rest { code, cursor := before.length, record }) op (o.carried op) := by
    refine ⟨hop, Operands.fits_carried hlen hregs, ?_⟩
    rw [Bits.ofInstruction_carried, rest, hbits, List.append_assoc, List.append_assoc, List.drop_left]
    exact List.prefix_append _ _
  refine ⟨?_, ?_⟩
  · rintro rfl
    exact absurd hop (by decide)
  · rw [fetch_of_startsWith hstart, Bits.ofInstruction_carried]
    rfl

/-- A move whose code is all zeros is not taken for the padding behind it. -/
theorem Decoder.fetch_pack_zeros :
    Bits.ofInstruction .mov { args := [.register 0, .register 0] } = List.replicate 13 false ∧
      fetch
          { code := Code.ofBytes (Bits.pack ([true] ++ List.replicate 13 false ++ []))
            cursor := 1
            record := { constant := 7 } } =
        (.ok .mov,
          { code := Code.ofBytes (Bits.pack ([true] ++ List.replicate 13 false ++ []))
            cursor := 14
            record := { args := [.register 0, .register 0] } }) :=
  ⟨by decide, (fetch_pack .mov { args := [.register 0, .register 0] } [true] [] { constant := 7 }
    (by decide) rfl (by decide)).2⟩

end PrefixVM
