import PrefixVM.Proofs.Destinations
import PrefixVM.Proofs.Lines

/-!
What a reference to a label means. An instruction of a source is read off one line of the text, and on a line
with a jump, a call or a new thread one word stands in the place of the address. If there is a label of that
name, then the address is where the label stands, unless the word also reads as a number: a label may have
any word for a name, but a reference is a number whenever it can be one.
-/
namespace PrefixVM.Asm

/-- A number belongs to one line. -/
theorem eq_of_mem_numbered {number : Nat} {lines : List (List Token)} {l l' : Line}
    (h : l ∈ numbered number lines) (h' : l' ∈ numbered number lines) (heq : l.number = l'.number) :
    l = l' := by
  obtain ⟨k, hk, hnumber, -⟩ := (mem_numbered_iff number lines l).mp h
  obtain ⟨k', hk', hnumber', -⟩ := (mem_numbered_iff number lines l').mp h'
  obtain rfl : k = k' := by omega
  have htokens : l.tokens = l'.tokens := Option.some.inj (hk.symm.trans hk')
  calc
    l = ⟨l.number, l.tokens⟩ := rfl
    _ = l' := by rw [heq, htokens]

theorem line_injective {text : String} {lines : List Line} (h : tokenize text = .ok lines) {l l' : Line}
    (hl : l ∈ lines) (hl' : l' ∈ lines) (heq : l.number = l'.number) : l = l' := by
  obtain ⟨-, rfl⟩ := (tokenize_eq_ok_iff text lines).mp h
  exact eq_of_mem_numbered hl hl' heq

namespace Progress

/-- A line adds at most one instruction, which is the one written on it. -/
theorem instructions_line {p p' : Progress} {l : Line} (h : p.line l = .ok p') :
    instructions p'.source.code = instructions p.source.code ∨
      ∃ i, Instruction.parse l.number l.tokens = .ok i ∧
        instructions p'.source.code = instructions p.source.code ++ [i] := by
  unfold line at h
  split at h
  · exact .inl (congrArg instructions (directive_code h).1)
  · left
    unfold label at h
    split at h <;> split at h
    next => cases h
    next =>
      obtain rfl := Except.ok.inj h
      exact (instructions_append _ _).trans (List.append_nil _)
    next => cases h
    next =>
      obtain rfl := Except.ok.inj h
      rfl
  · split at h
    · obtain ⟨i, hi, h⟩ := (Except.bind_eq_ok_iff _ _ _).mp h
      obtain rfl := (Except.pure_eq_ok_iff _ _).mp h
      exact .inr ⟨i, hi, instructions_append _ _⟩
    · obtain ⟨bytes, -, h⟩ := (Except.bind_eq_ok_iff _ _ _).mp h
      obtain rfl := (Except.pure_eq_ok_iff _ _).mp h
      exact .inl rfl

theorem exists_line {lines : List Line} {p p' : Progress} (h : lines.foldlM line p = .ok p')
    {i : Instruction} (hi : i ∈ instructions p'.source.code) :
    i ∈ instructions p.source.code ∨ ∃ l ∈ lines, Instruction.parse l.number l.tokens = .ok i := by
  induction lines generalizing p with
  | nil =>
    rw [List.foldlM_nil, Except.pure_eq_ok_iff] at h
    rw [h]
    exact .inl hi
  | cons l rest ih =>
    rw [List.foldlM_cons, Except.bind_eq_ok_iff] at h
    obtain ⟨p₁, hl, hrest⟩ := h
    -- the instruction is there after the first line, or is read off a later one
    rcases ih hrest with hi | ⟨l', hl', hparse⟩
    · rcases instructions_line hl with heq | ⟨j, hj, heq⟩
      · rw [heq] at hi
        exact .inl hi
      · rw [heq, List.mem_append, List.mem_singleton] at hi
        rcases hi with hi | rfl
        · exact .inl hi
        · exact .inr ⟨l, List.mem_cons_self, hj⟩
    · exact .inr ⟨l', List.mem_cons_of_mem l hl', hparse⟩

end Progress

/-- Every instruction of a source is written on a line of the text. -/
theorem Source.exists_line {text : String} {lines : List Line} {source : Source}
    (hlines : tokenize text = .ok lines) (hsource : parse text = .ok source) {i : Instruction}
    (hi : i ∈ instructions source.code) :
    ∃ l ∈ lines, Instruction.parse l.number l.tokens = .ok i := by
  obtain ⟨lines', hlines', h⟩ := (Except.bind_eq_ok_iff _ _ _).mp hsource
  obtain rfl : lines = lines' := Except.ok.inj (hlines.symm.trans hlines')
  obtain ⟨p, hp, h⟩ := (Except.bind_eq_ok_iff _ _ _).mp h
  obtain rfl := (Except.pure_eq_ok_iff _ _).mp h
  rcases Progress.exists_line hp hi with hnil | hline
  · cases hnil
  · exact hline

/-- The word in the place of the address, on a line whose instruction has one. -/
def addressWord? : List Token → Option String
  | .word mnemonic :: rest =>
    match Opcode.ofMnemonic? mnemonic, Instruction.splitOperands rest with
    | some op, [.word w] :: _ => if op.hasAddress then some w else none
    | _, _ => none
  | _ => none

example : Opcode.encoded.filter Opcode.hasAddress = [.jump, .jumpEqual, .createThread, .call] := by
  decide

namespace Instruction

variable {number : Nat} {tokens : List Token} {i : Instruction} {w : String}

theorem line_of_parse (h : parse number tokens = .ok i) : i.line = number := by
  obtain ⟨mnemonic, rest, rfl⟩ := exists_word_of_parse h
  obtain ⟨op, target, operands, constant, more, args, -, -, -, -, -, rfl⟩ :=
    (parse_eq_ok_iff number mnemonic rest i).mp h
  rfl

theorem target_of_parse (h : parse number tokens = .ok i) (hw : addressWord? tokens = some w) :
    i.opcode.hasAddress = true ∧
      ∃ t, parseTarget number [.word w] = .ok t ∧ i.target = some t := by
  unfold addressWord? at hw
  split at hw
  next mnemonic rest =>
    obtain ⟨op, target, operands, constant, more, args, hop, -, ht, -, -, rfl⟩ :=
      (parse_eq_ok_iff number mnemonic rest i).mp h
    rw [hop] at hw
    split at hw
    next op' w' others hop' hparts =>
      obtain rfl := Option.some.inj hop'
      split at hw
      next haddress =>
        obtain rfl := Option.some.inj hw
        simp only [hparts, takeTarget, haddress] at ht
        obtain ⟨t, hparse, ht⟩ := (Except.bind_eq_ok_iff _ _ _).mp ht
        obtain ⟨rfl, -⟩ := Prod.mk.inj ((Except.pure_eq_ok_iff _ _).mp ht)
        exact ⟨haddress, t, hparse, rfl⟩
      next => cases hw
    next => cases hw
  next => cases hw

/-- A word is a number if it can be one, and a label otherwise. -/
theorem parseTarget_word {t : Target} (h : parseTarget number [.word w] = .ok t) :
    match constant? w with
    | none => t = .label w
    | some v => ∃ bits, t = .offset bits ∧ (bits.toNat : Int) = v.toInt := by
  unfold parseTarget at h
  cases hw : constant? w with
  | none =>
    simp only [hw] at h
    split at h
    next => exact (Except.ok.inj h).symm
    next => cases h
  | some v =>
    simp only [hw] at h
    split at h
    next hv =>
      refine ⟨_, (Except.ok.inj h).symm, ?_⟩
      have hnonneg : 0 ≤ v.toInt := Int64.le_iff_toInt_le.mp hv.1
      rw [UInt32.toNat_ofNat_of_lt' hv.2]
      omega
    next => cases h

end Instruction

theorem drop_codeBits (labels : Labels) (code : List Instruction) (k : Nat) :
    (codeBits labels code).drop (offset code k) = codeBits labels (code.drop k) := by
  have hsplit : codeBits labels code = codeBits labels (code.take k) ++ codeBits labels (code.drop k) := by
    rw [codeBits, codeBits, codeBits, ← List.flatMap_append, List.take_append_drop]
  have hlength : (codeBits labels (code.take k)).length = offset code k := length_codeBits _ _
  rw [hsplit, ← hlength, List.drop_left]

section Assembled

variable {text : String} {source : Source} {a : Assembly}

/-- The code of an instruction stands at its offset, with its label resolved. -/
theorem startsWith_resolved (hsource : Source.parse text = .ok source) (hasm : assemble text = .ok a)
    {k : Nat} {i : Instruction} (hi : (instructions source.code)[k]? = some i) :
    Bits.StartsWith (a.image.machineCode.bits.drop (offset (instructions source.code) k)) i.opcode
      (i.resolved (Labels.ofItems 0 source.code)) := by
  have hwf := (Source.parse_wellFormed hsource).instructions i (List.mem_of_getElem? hi)
  obtain ⟨hlt, hget⟩ := List.getElem?_eq_some_iff.mp hi
  have hle : offset (instructions source.code) k ≤
      (codeBits (Labels.ofItems 0 source.code) (instructions source.code)).length := by
    rw [length_codeBits]
    exact offset_le _ _
  refine ⟨hwf.opcode, hwf.fits _, ?_⟩
  rw [(bits_machineCode hsource hasm).2, List.drop_append_of_le_length hle, drop_codeBits,
    List.drop_eq_getElem_cons hlt, hget, codeBits, List.flatMap_cons, List.append_assoc]
  exact List.prefix_append _ _

theorem find?_of_defined (hsource : Source.parse text = .ok source) {before after : List Item} {n : Nat}
    {name : String} (hcode : source.code = before ++ .label n name :: after) :
    Labels.find? (Labels.ofItems 0 source.code) name =
      some (UInt32.ofNat (totalLength (instructions before))) := by
  have hafter : name ∉ labelNames after := by
    have hnodup := (Source.parse_wellFormed hsource).labels
    rw [hcode, labelNames, List.filterMap_append] at hnodup
    exact (List.nodup_cons.mp (List.nodup_append.mp hnodup).2.1).1
  rw [hcode, Labels.find?_ofItems_append hafter, Nat.zero_add]

/-- A reference to a label is encoded as the place of the label, wherever that is defined, unless the word
reads as a number. Then it is that number. -/
theorem address_of_reference {lines : List Line} (hlines : tokenize text = .ok lines)
    (hsource : Source.parse text = .ok source) (hasm : assemble text = .ok a)
    (hsize : totalLength (instructions source.code) < UInt32.size) {k : Nat} {i : Instruction}
    (hi : (instructions source.code)[k]? = some i) {l : Line} (hl : l ∈ lines)
    (hnumber : l.number = i.line) {w : String} (hw : addressWord? l.tokens = some w)
    {before after : List Item} {n : Nat} (hcode : source.code = before ++ .label n w :: after) :
    ∃ o, Bits.StartsWith (a.image.machineCode.bits.drop (offset (instructions source.code) k)) i.opcode o ∧
      (o.address.toNat : Int) = match constant? w with
        | none => (totalLength (instructions before) : Int)
        | some v => v.toInt := by
  have hmem := List.mem_of_getElem? hi
  refine ⟨_, startsWith_resolved hsource hasm hi, ?_⟩
  -- the line with the number of the instruction is the one that it was read off
  obtain ⟨l', hl', hparse⟩ := Source.exists_line hlines hsource hmem
  obtain rfl : l = l' := line_injective hlines hl hl' (hnumber.trans (Instruction.line_of_parse hparse))
  obtain ⟨hop, t, htarget, ht⟩ := Instruction.target_of_parse hparse hw
  have hmeaning := Instruction.parseTarget_word htarget
  cases hconstant : constant? w with
  | none =>
    rw [hconstant] at hmeaning
    obtain rfl := hmeaning
    have hresolve : i.resolve (Labels.ofItems 0 source.code) =
        .ok (UInt32.ofNat (totalLength (instructions before))) := by
      simp only [Instruction.resolve, hop, ht, find?_of_defined hsource hcode]
    have hbefore : totalLength (instructions before) < UInt32.size := by
      rw [hcode, instructions_append, totalLength_append] at hsize
      omega
    simp only [Instruction.resolved, hresolve, Instruction.operands]
    rw [UInt32.toNat_ofNat_of_lt' hbefore]
  | some v =>
    rw [hconstant] at hmeaning
    obtain ⟨bits, rfl, hbits⟩ := hmeaning
    have hresolve : i.resolve (Labels.ofItems 0 source.code) = .ok bits := by
      simp only [Instruction.resolve, hop, ht]
    simp only [Instruction.resolved, hresolve, Instruction.operands]
    exact hbits

end Assembled

/-- A loop with a reference to a label in front of it and one to a label behind it. -/
def loopUntilEqual : String :=
  "loop:\njumpEqual done, r0, r1\njump loop\ndone:\nhlt"

theorem address_of_reference_loopUntilEqual :
    ∃ lines source a, tokenize loopUntilEqual = .ok lines ∧ Source.parse loopUntilEqual = .ok source ∧
      assemble loopUntilEqual = .ok a ∧ totalLength (instructions source.code) = 89 ∧
      ∃ o, (Decoder.start a.image.machineCode).rest.StartsWith .jumpEqual o ∧
        (o.address.toNat : Int) = 84 := by
  have hlines : tokenize loopUntilEqual = .ok
      [⟨1, [.word "loop", .colon]⟩,
        ⟨2, [.word "jumpEqual", .word "done", .comma, .word "r0", .comma, .word "r1"]⟩,
        ⟨3, [.word "jump", .word "loop"]⟩, ⟨4, [.word "done", .colon]⟩, ⟨5, [.word "hlt"]⟩] := by
    cbv
  have hsource : Source.parse loopUntilEqual = .ok
      { code := [.label 1 "loop",
          .instruction ⟨2, .jumpEqual, some (.label "done"), 0, [.register 0, .register 1]⟩,
          .instruction ⟨3, .jump, some (.label "loop"), 0, []⟩] ++
        .label 4 "done" :: [.instruction ⟨5, .halt, none, 0, []⟩] } := by
    cbv
  have hasm : assemble loopUntilEqual = .ok
      { image := Image.make [113, 80, 0, 0, 0, 16, 208, 0, 0, 0, 11, 0] [] 0 } := by
    cbv
  have hword : addressWord?
      [.word "jumpEqual", .word "done", .comma, .word "r0", .comma, .word "r1"] = some "done" := by
    cbv
  have hlabel : constant? "done" = none := by
    cbv
  have haddress := address_of_reference hlines hsource hasm (by decide) (k := 0) rfl
    (.tail _ (.head _)) rfl hword rfl
  rw [hlabel] at haddress
  exact ⟨_, _, _, hlines, hsource, hasm, rfl, haddress⟩

/-- A source whose label has a number for a name. -/
def numberForName : String :=
  "jump 8\nhlt\n8:\nhlt"

/-- The label stands at 42, but the jump in front of it leads to 8. -/
theorem reference_is_number_numberForName :
    ∃ lines source a before after, tokenize numberForName = .ok lines ∧
      Source.parse numberForName = .ok source ∧ assemble numberForName = .ok a ∧
      totalLength (instructions source.code) = 47 ∧
      (instructions source.code)[0]? = some ⟨1, .jump, some (.offset 8), 0, []⟩ ∧
      lines.head? = some ⟨1, [.word "jump", .word "8"]⟩ ∧
      addressWord? [.word "jump", .word "8"] = some "8" ∧
      source.code = before ++ .label 3 "8" :: after ∧ totalLength (instructions before) = 42 ∧
      ∀ o, (Decoder.start a.image.machineCode).rest.StartsWith .jump o → o.address.toNat = 8 := by
  have hlines : tokenize numberForName = .ok
      [⟨1, [.word "jump", .word "8"]⟩, ⟨2, [.word "hlt"]⟩, ⟨3, [.word "8", .colon]⟩,
        ⟨4, [.word "hlt"]⟩] := by
    cbv
  have hsource : Source.parse numberForName = .ok
      { code := [.instruction ⟨1, .jump, some (.offset 8), 0, []⟩,
          .instruction ⟨2, .halt, none, 0, []⟩] ++
        .label 3 "8" :: [.instruction ⟨4, .halt, none, 0, []⟩] } := by
    cbv
  have hasm : assemble numberForName = .ok
      { image := Image.make [104, 128, 0, 0, 5, 172] [] 0 } := by
    cbv
  have hword : addressWord? [.word "jump", .word "8"] = some "8" := by
    cbv
  have hcode : (Decoder.start (Image.make [104, 128, 0, 0, 5, 172] [] 0).machineCode).rest.StartsWith _ _ :=
    startsWith_resolved hsource hasm (k := 0) rfl
  refine ⟨_, _, _, _, _, hlines, hsource, hasm, rfl, rfl, rfl, hword, rfl, rfl, ?_⟩
  intro o ho
  obtain ⟨-, rfl⟩ := Decoder.startsWith_unique hcode ho
  rfl

end PrefixVM.Asm
