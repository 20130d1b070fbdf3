import PrefixVM.Proofs.Readers

/-!
Decoding whole instructions. Fetching answers an instruction exactly where its code stands at the cursor,
and padding at the end of the stream. The two never compete: an instruction is either as long as the
window in which padding is looked for, or has a bit set behind its first one.
-/
namespace PrefixVM

namespace Bits

def addressPart (op : Opcode) (address : UInt32) : Bits :=
  if op.hasAddress then ofAddress address else []

def constantPart (op : Opcode) (constant : Int64) : Bits :=
  if op.hasConstant then ofConstant constant else []

def body (op : Opcode) (o : Operands) : Bits :=
  addressPart op o.address ++ constantPart op o.constant ++ o.args.flatMap ofOperand

theorem ofInstruction_eq (op : Opcode) (o : Operands) :
    ofInstruction op o = op.codeword ++ body op o := by
  simp only [ofInstruction, body, addressPart, constantPart, List.append_assoc]

end Bits

/-- What a decoder can have read for an operation: as many operands as it takes, each with one of the
sixteen registers, and zeros in place of what it does not carry. -/
structure Operands.Fits (o : Operands) (op : Opcode) : Prop where
  args_length : o.args.length = op.operandCount
  registers : ∀ a ∈ o.args, a.index.toNat < registerCount
  address : op.hasAddress = false → o.address = 0
  constant : op.hasConstant = false → o.constant = 0

namespace Reading

theorem operands_run_eq_ok (n : Nat) (d d' : Decoder) :
    (operands n).run d = .ok () d' ↔
      ∃ args, args.length = n ∧ (∀ o ∈ args, o.index.toNat < registerCount) ∧
        args.flatMap Bits.ofOperand <+: d.rest ∧
        d' = (d.skip (args.flatMap Bits.ofOperand).length).withRecord
          { d.record with args := d.record.args ++ args } := by
  induction n generalizing d with
  | zero =>
    constructor
    · intro h
      obtain ⟨-, rfl⟩ := EStateM.Result.ok.inj h
      exact ⟨[], rfl, by simp, List.nil_prefix, by simp [Decoder.withRecord]⟩
    · rintro ⟨args, hlen, -, -, rfl⟩
      obtain rfl := List.eq_nil_of_length_eq_zero hlen
      simp [operands, Decoder.withRecord]
  | succ n ih =>
    rw [operands, recovers_operand.run_bind]
    simp only [EStateM.run_bind_eq_ok]
    constructor
    · rintro ⟨o, ho, hpre, u, d₂, hmod, h⟩
      obtain ⟨-, rfl⟩ := EStateM.Result.ok.inj hmod
      obtain ⟨args, rfl, hargs, hrest, rfl⟩ := (ih _).mp h
      refine ⟨o :: args, rfl, ?_, ?_, ?_⟩
      · simpa using ⟨ho, hargs⟩
      · rw [List.flatMap_cons]
        change _ <+: (d.skip _).rest at hrest
        rw [Decoder.rest_skip] at hrest
        exact (Bits.append_prefix_iff _ _ _).mpr ⟨hpre, hrest⟩
      · simp [Decoder.withRecord, Decoder.skip, Nat.add_assoc]
    · rintro ⟨args, hlen, hargs, hpre, rfl⟩
      obtain ⟨o, args, rfl⟩ := List.exists_cons_of_length_eq_add_one hlen
      rw [List.flatMap_cons] at hpre
      obtain ⟨ho, hrest⟩ := (Bits.append_prefix_iff _ _ _).mp hpre
      refine ⟨o, hargs o (by simp), ho, (), _, rfl, ?_⟩
      refine (ih _).mpr ⟨args, by simpa using hlen, fun a ha => hargs a (by simp [ha]), ?_, ?_⟩
      · change _ <+: (d.skip _).rest
        rw [Decoder.rest_skip]
        exact hrest
      · simp [Decoder.withRecord, Decoder.skip, Nat.add_assoc]

def addressPart (op : Opcode) : Reading Unit := do
  if op.hasAddress then
    let address := UInt32.ofNat (← field Bits.addressWidth)
    modify fun d => { d with record := { d.record with address } }

def constantPart (op : Opcode) : Reading Unit := do
  if op.hasConstant then
    let constant := (UInt64.ofNat (← field Bits.constantWidth)).toInt64
    modify fun d => { d with record := { d.record with constant } }

theorem body_eq_parts (op : Opcode) :
    body op = (do addressPart op; constantPart op; operands op.operandCount) := by
  unfold body addressPart constantPart
  split <;> split <;> simp only [bind_assoc, pure_bind]

/-- A field that only some operations have: it is read into the record through `put`, and otherwise the
record keeps what `get` finds there. -/
theorem optional_field_run_eq_ok {α : Type} (has : Bool) (width : Nat) (hw : 0 < width)
    (ofNat : Nat → α) (toNat : α → Nat) (hlt : ∀ a, toNat a < 2 ^ width)
    (hof : ∀ a, ofNat (toNat a) = a) (hto : ∀ n < 2 ^ width, toNat (ofNat n) = n)
    (get : Operands → α) (put : α → Operands → Operands) (hput : ∀ o, put (get o) o = o)
    (d d' : Decoder) :
    (if has then do
        let n ← field width
        modify fun d => d.withRecord (put (ofNat n) d.record)
      else pure () : Reading Unit).run d = .ok () d' ↔
      ∃ a, (has = false → a = get d.record) ∧
        (if has then Bits.field width (toNat a) else []) <+: d.rest ∧
        d' = (d.skip (if has then Bits.field width (toNat a) else []).length).withRecord
          (put a d.record) := by
  cases has with
  | true =>
    simp only [if_true, (recovers_field width hw).run_bind]
    constructor
    · rintro ⟨n, hn, hpre, h⟩
      obtain ⟨-, rfl⟩ := EStateM.Result.ok.inj h
      refine ⟨ofNat n, fun h => absurd h (by decide), ?_, ?_⟩
      · rw [hto n hn]
        exact hpre
      · rw [hto n hn]
        rfl
    · rintro ⟨a, -, hpre, rfl⟩
      refine ⟨toNat a, hlt a, hpre, ?_⟩
      rw [hof]
      rfl
  | false =>
    simp only [Bool.false_eq_true, if_false]
    constructor
    · intro h
      obtain ⟨-, rfl⟩ := EStateM.Result.ok.inj h
      refine ⟨get d.record, fun _ => rfl, List.nil_prefix, ?_⟩
      rw [hput]
      rfl
    · rintro ⟨a, ha, -, rfl⟩
      rw [ha trivial, hput]
      rfl

theorem addressPart_run_eq_ok (op : Opcode) (d d' : Decoder) :
    (addressPart op).run d = .ok () d' ↔
      ∃ address : UInt32, (op.hasAddress = false → address = d.record.address) ∧
        Bits.addressPart op address <+: d.rest ∧
        d' = (d.skip (Bits.addressPart op address).length).withRecord { d.record with address } :=
  optional_field_run_eq_ok op.hasAddress Bits.addressWidth (by decide) UInt32.ofNat UInt32.toNat
    UInt32.toNat_lt (fun _ => UInt32.ofNat_toNat) (fun _ hn => UInt32.toNat_ofNat_of_lt' hn)
    Operands.address (fun address o => { o with address }) (fun _ => rfl) d d'

theorem constantPart_run_eq_ok (op : Opcode) (d d' : Decoder) :
    (constantPart op).run d = .ok () d' ↔
      ∃ constant : Int64, (op.hasConstant = false → constant = d.record.constant) ∧
        Bits.constantPart op constant <+: d.rest ∧
        d' = (d.skip (Bits.constantPart op constant).length).withRecord
          { d.record with constant } :=
  optional_field_run_eq_ok op.hasConstant Bits.constantWidth (by decide)
    (fun n => (UInt64.ofNat n).toInt64) (fun c => c.toUInt64.toNat) (fun c => c.toUInt64.toNat_lt)
    (fun c => by rw [UInt64.ofNat_toNat, Int64.toInt64_toUInt64])
    (fun n hn => by rw [UInt64.toUInt64_toInt64]; exact UInt64.toNat_ofNat_of_lt' hn)
    Operands.constant (fun constant o => { o with constant }) (fun _ => rfl) d d'

theorem body_run_eq_ok (op : Opcode) (d d' : Decoder) (hd : d.record = {}) :
    (body op).run d = .ok () d' ↔
      ∃ o : Operands, o.Fits op ∧ Bits.body op o <+: d.rest ∧
        d' = (d.skip (Bits.body op o).length).withRecord o := by
  rw [body_eq_parts, EStateM.run_bind_eq_ok]
  simp only [EStateM.run_bind_eq_ok]
  constructor
  · rintro ⟨u, d₁, ha, v, d₂, hc, ho⟩
    obtain ⟨address, haddress, hapre, rfl⟩ := (addressPart_run_eq_ok op _ _).mp ha
    obtain ⟨constant, hconstant, hcpre, rfl⟩ := (constantPart_run_eq_ok op _ _).mp hc
    obtain ⟨args, hlen, hregs, hopre, rfl⟩ := (operands_run_eq_ok _ _ _).mp ho
    simp only [hd, Decoder.withRecord_record] at haddress hconstant
    simp only [Decoder.withRecord_rest, Decoder.withRecord_skip, Decoder.rest_skip, Decoder.skip_skip]
      at hcpre hopre
    refine ⟨{ address, constant, args }, ⟨hlen, hregs, haddress, hconstant⟩, ?_, ?_⟩
    · rw [Bits.body, List.append_assoc, Bits.append_prefix_iff, Bits.append_prefix_iff, List.drop_drop]
      exact ⟨hapre, hcpre, hopre⟩
    · simp [Bits.body, hd, Nat.add_assoc]
  · rintro ⟨o, hfits, hpre, rfl⟩
    rw [Bits.body, List.append_assoc, Bits.append_prefix_iff, Bits.append_prefix_iff, List.drop_drop]
      at hpre
    obtain ⟨hapre, hcpre, hopre⟩ := hpre
    refine ⟨(), _, (addressPart_run_eq_ok op _ _).mpr ⟨o.address, ?_, hapre, rfl⟩, (), _,
      (constantPart_run_eq_ok op _ _).mpr ⟨o.constant, ?_, ?_, rfl⟩,
      (operands_run_eq_ok _ _ _).mpr ⟨o.args, hfits.args_length, hfits.registers, ?_, ?_⟩⟩
    · rw [hd]
      exact hfits.address
    · rw [Decoder.withRecord_record, hd]
      exact hfits.constant
    · simpa using hcpre
    · simpa using hopre
    · simp [Bits.body, hd, Nat.add_assoc]

/-- An instruction is read into an empty record, unless the rest of the code is padding. -/
theorem instruction_run (d : Decoder) :
    instruction.run d =
      (if d.code.isPadding d.cursor = true then pure .padding
        else do
          let op ← opcode
          body op
          return op : Reading Opcode).run (d.withRecord {}) := rfl

/-- Reading an instruction answers padding where the rest of the code is padding, and elsewhere the
instruction whose code stands at the cursor. -/
theorem instruction_run_eq_ok (d : Decoder) (op : Opcode) (d' : Decoder) :
    instruction.run d = .ok op d' ↔
      (d.code.isPadding d.cursor = true ∧ op = .padding ∧ d' = d.withRecord {}) ∨
      (d.code.isPadding d.cursor = false ∧ op ∈ Opcode.encoded ∧
        ∃ o : Operands, o.Fits op ∧ Bits.ofInstruction op o <+: d.rest ∧
          d' = (d.skip (Bits.ofInstruction op o).length).withRecord o) := by
  rw [instruction_run]
  cases d.code.isPadding d.cursor with
  | true =>
    simp only [if_true, true_and, reduceCtorEq, false_and, or_false]
    constructor
    · intro h
      obtain ⟨rfl, rfl⟩ := EStateM.Result.ok.inj h
      exact ⟨rfl, rfl⟩
    · rintro ⟨rfl, rfl⟩
      rfl
  | false =>
    simp only [Bool.false_eq_true, if_false, false_and, false_or, true_and, recovers_opcode.run_bind,
      EStateM.run_bind_eq_ok]
    constructor
    · rintro ⟨a, hop, hword, u, d₂, hbody, h⟩
      obtain ⟨rfl, rfl⟩ := EStateM.Result.ok.inj h
      obtain ⟨o, hfits, hpre, rfl⟩ := (body_run_eq_ok a _ _ rfl).mp hbody
      refine ⟨hop, o, hfits, ?_, ?_⟩
      · rw [Bits.ofInstruction_eq, Bits.append_prefix_iff]
        exact ⟨hword, by simpa using hpre⟩
      · simp [Bits.ofInstruction_eq]
    · rintro ⟨hop, o, hfits, hpre, rfl⟩
      rw [Bits.ofInstruction_eq, Bits.append_prefix_iff] at hpre
      refine ⟨op, hop, hpre.1, (), _,
        (body_run_eq_ok op _ _ rfl).mpr ⟨o, hfits, by simpa using hpre.2, rfl⟩, ?_⟩
      simp [Bits.ofInstruction_eq]

end Reading

namespace Bits

theorem length_addressPart (op : Opcode) (address : UInt32) :
    (addressPart op address).length = if op.hasAddress then addressWidth else 0 := by
  unfold addressPart
  split
  · exact length_field _ _
  · rfl

theorem length_constantPart (op : Opcode) (constant : Int64) :
    (constantPart op constant).length = if op.hasConstant then constantWidth else 0 := by
  unfold constantPart
  split
  · exact length_field _ _
  · rfl

theorem le_length_flatMap_ofOperand (args : List Operand) :
    5 * args.length ≤ (args.flatMap ofOperand).length := by
  induction args with
  | nil => exact Nat.le_refl 0
  | cons o rest ih =>
    have ho : 5 ≤ (ofOperand o).length := by
      rw [length_ofOperand]
      cases o <;> simp [Operand.encodedLength]
    rw [List.flatMap_cons, List.length_append, List.length_cons]
    omega

theorem length_ofInstruction_ge (op : Opcode) (o : Operands) (hfits : o.Fits op) :
    op.codeword.length + (if op.hasAddress then addressWidth else 0) +
      (if op.hasConstant then constantWidth else 0) + 5 * op.operandCount ≤
        (ofInstruction op o).length := by
  have hargs := le_length_flatMap_ofOperand o.args
  rw [hfits.args_length] at hargs
  rw [ofInstruction_eq, body, List.length_append, List.length_append, List.length_append,
    length_addressPart, length_constantPart]
  omega

theorem length_ofInstruction_pos (op : Opcode) (o : Operands) (hop : op ∈ Opcode.encoded) :
    0 < (ofInstruction op o).length := by
  have hword := List.length_pos_iff.mpr (Opcode.mem_encoded_iff.mp hop)
  rw [ofInstruction_eq, List.length_append]
  omega

/-- An instruction shorter than the padding window has a bit set behind its first one. -/
theorem exists_set_bit_of_short (op : Opcode) (o : Operands) (hop : op ∈ Opcode.encoded)
    (hfits : o.Fits op) (hshort : (ofInstruction op o).length < Code.paddingWindow) :
    ∃ k, 0 < k ∧ (ofInstruction op o)[k]? = some true := by
  have hlen := length_ofInstruction_ge op o hfits
  -- only an instruction without fields is that short, and the table shows the bit in its codeword
  have htable : ∀ op ∈ Opcode.encoded,
      op.codeword.length + (if op.hasAddress then addressWidth else 0) +
        (if op.hasConstant then constantWidth else 0) + 5 * op.operandCount < Code.paddingWindow →
      ∃ k < 8, 0 < k ∧ op.codeword[k]? = some true := by
    decide
  obtain ⟨k, -, hk, hbit⟩ := htable op hop (by omega)
  refine ⟨k, hk, ?_⟩
  rw [ofInstruction_eq, List.getElem?_append_left, hbit]
  exact (List.getElem?_eq_some_iff.mp hbit).1

end Bits

namespace Code

theorem le_paddingStart (c : Code) (i : Nat) (hi : c.bits[i]? = some true) : i ≤ c.paddingStart := by
  rw [← bit?_eq_getElem?] at hi
  rw [c.paddingStart_eq]
  cases hlast : c.stream.lastSet? with
  | none => exact absurd hi ((Stream.lastSet?_eq_none_iff _).mp hlast i)
  | some k =>
    have hk := ((Stream.lastSet?_eq_some_iff _ _).mp hlast).2 i
    rw [Option.getD_some]
    by_contra hlt
    exact hk (by omega) hi

/-- Padding does not hide an instruction, however short it is and wherever it stands. -/
theorem isPadding_eq_false (c : Code) (position : Nat) (op : Opcode) (o : Operands)
    (hop : op ∈ Opcode.encoded) (hfits : o.Fits op)
    (hpre : Bits.ofInstruction op o <+: c.bits.drop position) : c.isPadding position = false := by
  have hlen := hpre.length_le
  rw [List.length_drop, length_bits] at hlen
  rw [isPadding, Bool.and_eq_false_iff, decide_eq_false_iff_not, decide_eq_false_iff_not]
  by_cases hshort : (Bits.ofInstruction op o).length < paddingWindow
  · -- the set bit of a short instruction stands behind `position`, so padding cannot start there
    left
    obtain ⟨k, hk, hbit⟩ := Bits.exists_set_bit_of_short op o hop hfits hshort
    obtain ⟨r, hr⟩ := hpre
    have hset : c.bits[position + k]? = some true := by
      rw [← List.getElem?_drop, ← hr, List.getElem?_append_left, hbit]
      exact (List.getElem?_eq_some_iff.mp hbit).1
    have := le_paddingStart c _ hset
    omega
  · right
    omega

/-- Fewer than eight zeros at the end are padding. -/
theorem isPadding_of_zeros (c : Code) (position n : Nat) (hn : n < paddingWindow)
    (hrest : c.bits.drop position = List.replicate n false) : c.isPadding position = true := by
  have hlen := congrArg List.length hrest
  rw [List.length_drop, length_bits, List.length_replicate] at hlen
  rw [isPadding, Bool.and_eq_true_iff, decide_eq_true_iff, decide_eq_true_iff]
  refine ⟨?_, by omega⟩
  rw [c.paddingStart_eq]
  cases hlast : c.stream.lastSet? with
  | none => exact Nat.zero_le _
  | some k =>
    -- a set bit behind `position` would be among the zeros
    have hk := ((Stream.lastSet?_eq_some_iff _ _).mp hlast).1
    rw [Option.getD_some]
    by_contra hlt
    have hget : (c.bits.drop position)[k - position]? = some true := by
      rw [List.getElem?_drop, Nat.add_sub_cancel' (by omega), ← bit?_eq_getElem?]
      exact hk
    rw [hrest, List.getElem?_replicate] at hget
    split at hget <;> simp at hget

end Code

namespace Decoder

theorem fetch_eq_iff (d : Decoder) (op : Opcode) (d' : Decoder) :
    d.fetch = (.ok op, d') ↔ Reading.instruction.run d = .ok op d' := by
  unfold fetch
  cases Reading.instruction.run d <;> simp

theorem fetch_of_prefix (d : Decoder) (op : Opcode) (o : Operands) (hop : op ∈ Opcode.encoded)
    (hfits : o.Fits op) (hpre : Bits.ofInstruction op o <+: d.rest) :
    d.fetch = (.ok op, (d.skip (Bits.ofInstruction op o).length).withRecord o) := by
  rw [fetch_eq_iff, Reading.instruction_run_eq_ok]
  exact .inr ⟨Code.isPadding_eq_false d.code d.cursor op o hop hfits hpre, hop, o, hfits, hpre, rfl⟩

theorem fetch_of_isPadding (d : Decoder) (hpad : d.code.isPadding d.cursor = true) :
    d.fetch = (.ok .padding, d.withRecord {}) := by
  rw [fetch_eq_iff, Reading.instruction_run_eq_ok]
  exact .inl ⟨hpad, rfl, rfl⟩

end Decoder

end PrefixVM
