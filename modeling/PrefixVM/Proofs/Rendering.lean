import PrefixVM.Listing
import PrefixVM.Proofs.Decoding
import PrefixVM.Proofs.Grammar
import PrefixVM.Proofs.Scanning

/-!
Printed instructions are read back. The text of an instruction spells its mnemonic and its operands between
commas, and reading these tokens gives the operation with the operands that were printed. Addresses come
back as bit offsets, so that nothing depends on labels.
-/
namespace PrefixVM.Asm

section Words

theorem isWord_of_forall {text : List Char} (hne : text ≠ []) (h : ∀ x ∈ text, isWordChar x = true) :
    IsWord text := by
  cases text with
  | nil => exact absurd rfl hne
  | cons c rest => exact .plain c rest h

theorem isWordChar_of_isDigit {c : Char} (h : c.isDigit = true) : isWordChar c = true := by
  have hdigit : ('0' ≤ c && c ≤ '9') = true := by
    simp only [Char.isDigit, Bool.and_eq_true, decide_eq_true_eq] at h
    rw [Bool.and_eq_true, decide_eq_true_eq, decide_eq_true_eq]
    exact h
  rw [isWordChar, hdigit, Bool.or_true]

theorem isWordChar_of_mem_toDigits {n : Nat} {c : Char} (h : c ∈ Nat.toDigits 10 n) :
    isWordChar c = true :=
  isWordChar_of_isDigit (Nat.isDigit_of_mem_toDigits (by decide) (by decide) h)

theorem isWord_nat (n : Nat) : IsWord (toString n).toList := by
  rw [show (toString n).toList = Nat.toDigits 10 n from Nat.toList_repr]
  exact isWord_of_forall Nat.toDigits_ne_nil fun _ => isWordChar_of_mem_toDigits

theorem isWord_int (i : Int) : IsWord (toString i).toList := by
  rw [Int.toString_eq_repr, Int.repr_eq_if]
  split
  · exact isWord_nat i.toNat
  · rw [String.toList_append, Nat.toList_repr]
    obtain ⟨c, rest, heq⟩ := List.exists_cons_of_ne_nil (Nat.toDigits_ne_nil (b := 10) (n := (-i).toNat))
    have hall : ∀ x ∈ c :: rest, isWordChar x = true := by
      intro x hx
      rw [← heq] at hx
      exact isWordChar_of_mem_toDigits hx
    rw [heq]
    exact .negative c rest hall

theorem isWord_register (i : UInt8) : IsWord ("r" ++ toString i.toNat).toList := by
  have htext : ("r" ++ toString i.toNat).toList = 'r' :: Nat.toDigits 10 i.toNat := by
    rw [String.toList_append]
    exact congrArg ('r' :: ·) Nat.toList_repr
  rw [htext]
  exact .plain _ _ (List.forall_mem_cons.mpr ⟨by decide, fun _ => isWordChar_of_mem_toDigits⟩)

theorem isWord_of_all {text : List Char} (hne : text.isEmpty = false)
    (h : text.all isWordChar = true) : IsWord text :=
  isWord_of_forall (List.isEmpty_eq_false_iff.mp hne) (List.all_eq_true.mp h)

theorem isWord_width (w : Width) : IsWord w.name.toList := by
  cases w <;> exact isWord_of_all rfl rfl

theorem isWord_mnemonic {op : Opcode} (hop : op ∈ Opcode.encoded) (hknown : op.isUnknown = false) :
    IsWord op.mnemonic.toList := by
  have hall : ∀ op ∈ Opcode.encoded, op.isUnknown = false →
      op.mnemonic.toList.isEmpty = false ∧ op.mnemonic.toList.all isWordChar = true := by
    decide
  obtain ⟨hne, hchars⟩ := hall op hop hknown
  exact isWord_of_all hne hchars

end Words

theorem Spells.text {text : String} (h : IsWord text.toList) : Spells text.toList [.word text] := by
  have hspells := Spells.word h
  rwa [String.ofList_toList] at hspells

def operandTokens : Operand → List Token
  | .register i => [.word ("r" ++ toString i.toNat)]
  | .memory w i => [.word w.name, .openBracket, .word ("r" ++ toString i.toNat), .closeBracket]

theorem spells_operand (o : Operand) : Spells o.text.toList (operandTokens o) := by
  cases o with
  | register i => exact Spells.text (isWord_register i)
  | memory w i =>
    have htext : (Operand.memory w i).text.toList =
        w.name.toList ++ '[' :: (("r" ++ toString i.toNat).toList ++ [']']) := by
      simp [Operand.text]
    have hclose : Spells [']'] [.closeBracket] := .cons ']' _ (fun _ => rfl) (by decide) .nil
    rw [htext]
    exact .append (by decide) (Spells.text (isWord_width w))
      (.cons '[' _ (fun _ => rfl) (by decide)
        (.append (by decide) (Spells.text (isWord_register i)) hclose))

/-- The tokens of the operands that an instruction is written with, one list for each. -/
def writtenParts (op : Opcode) (o : Operands) : List (List Token) :=
  (if op.hasAddress then [[.word (toString o.address.toNat)]] else []) ++
    (if op.hasConstant then [[.word (toString o.constant.toInt)]] else []) ++
    o.args.map operandTokens

def writtenTokens (op : Opcode) (o : Operands) : List Token :=
  .word op.mnemonic :: [Token.comma].intercalate (writtenParts op o)

theorem forall₂_optional (has : Bool) {text : String} {tokens : List Token}
    (h : Spells text.toList tokens) :
    List.Forall₂ Spells ((if has then [text] else []).map String.toList)
      (if has then [tokens] else []) := by
  cases has with
  | false => exact .nil
  | true => exact .cons h .nil

/-- The text of an instruction spells its tokens. -/
theorem spells_instructionText {op : Opcode} (hop : op ∈ Opcode.encoded)
    (hknown : op.isUnknown = false) (o : Operands) :
    Spells (instructionText op o).toList (writtenTokens op o) := by
  have hparts : List.Forall₂ Spells
      (((if op.hasAddress then [toString o.address.toNat] else []) ++
        (if op.hasConstant then [toString o.constant.toInt] else []) ++
        o.args.map Operand.text).map String.toList) (writtenParts op o) := by
    rw [List.map_append, List.map_append, writtenParts]
    refine List.rel_append (List.rel_append ?_ ?_) ?_
    · exact forall₂_optional _ (Spells.text (isWord_nat _))
    · exact forall₂_optional _ (Spells.text (isWord_int _))
    · rw [List.map_map, List.forall₂_map_left_iff, List.forall₂_map_right_iff, List.forall₂_same]
      exact fun a _ => spells_operand a
  have hmnemonic := Spells.text (isWord_mnemonic hop hknown)
  have hspells := Spells.intercalate hparts
  -- from here on only the number of operands matters
  unfold instructionText writtenTokens
  dsimp only
  revert hparts hspells
  generalize (if op.hasAddress then [toString o.address.toNat] else []) ++
    (if op.hasConstant then [toString o.constant.toInt] else []) ++ o.args.map Operand.text = texts
  generalize writtenParts op o = parts
  intro hparts hspells
  cases texts with
  | nil =>
    cases hparts
    exact hmnemonic
  | cons text texts =>
    have hline : (op.mnemonic ++ " " ++ String.intercalate ", " (text :: texts)).toList =
        op.mnemonic.toList ++ ' ' :: [',', ' '].intercalate ((text :: texts).map String.toList) := by
      simp
    dsimp only
    rw [hline]
    exact .append (by decide) hmnemonic hspells.blank

namespace Instruction

theorem split_append {part : List Token} (h : .comma ∉ part) (rest : List Token) :
    splitOperands.split (part ++ .comma :: rest) = part :: splitOperands.split rest := by
  induction part with
  | nil => rfl
  | cons t part ih =>
    obtain ⟨hne, hpart⟩ := List.ne_and_not_mem_of_not_mem_cons h
    rw [List.cons_append, splitOperands.split, ih hpart]
    exact fun heq => hne heq.symm

theorem split_eq_singleton {part : List Token} (h : .comma ∉ part) :
    splitOperands.split part = [part] := by
  induction part with
  | nil => rfl
  | cons t part ih =>
    obtain ⟨hne, hpart⟩ := List.ne_and_not_mem_of_not_mem_cons h
    rw [splitOperands.split, ih hpart]
    exact fun heq => hne heq.symm

theorem split_intercalate {parts : List (List Token)} (hparts : parts ≠ [])
    (hcomma : ∀ part ∈ parts, .comma ∉ part) :
    splitOperands.split ([Token.comma].intercalate parts) = parts := by
  induction parts with
  | nil => exact absurd rfl hparts
  | cons part rest ih =>
    obtain ⟨hpart, hrest⟩ := List.forall_mem_cons.mp hcomma
    cases rest with
    | nil => rw [List.intercalate_singleton, split_eq_singleton hpart]
    | cons part' rest =>
      rw [List.intercalate_cons_cons, List.append_assoc]
      change splitOperands.split (part ++ .comma :: [Token.comma].intercalate (part' :: rest)) = _
      rw [split_append hpart, ih (List.cons_ne_nil _ _) hrest]

theorem splitOperands_eq_split {tokens : List Token} (h : tokens ≠ []) :
    splitOperands tokens = splitOperands.split tokens := by
  cases tokens with
  | nil => exact absurd rfl h
  | cons t ts => rfl

theorem splitOperands_intercalate {parts : List (List Token)}
    (hparts : ∀ part ∈ parts, part ≠ [] ∧ .comma ∉ part) :
    splitOperands ([Token.comma].intercalate parts) = parts := by
  cases parts with
  | nil => rfl
  | cons part rest =>
    have htokens : [Token.comma].intercalate (part :: rest) ≠ [] := by
      cases part with
      | nil => exact absurd rfl (hparts [] List.mem_cons_self).1
      | cons t ts =>
        rw [List.intercalate_cons_cons_left]
        exact List.cons_ne_nil _ _
    rw [splitOperands_eq_split htokens]
    exact split_intercalate (List.cons_ne_nil _ _) fun part hpart => (hparts part hpart).2

theorem mem_intercalate {parts : List (List Token)} {t : Token}
    (h : t ∈ [Token.comma].intercalate parts) : t = .comma ∨ ∃ part ∈ parts, t ∈ part := by
  induction parts with
  | nil => cases h
  | cons part rest ih =>
    cases rest with
    | nil =>
      rw [List.intercalate_singleton] at h
      exact .inr ⟨part, List.mem_cons_self, h⟩
    | cons part' rest =>
      rw [List.intercalate_cons_cons, List.mem_append, List.mem_append, List.mem_singleton] at h
      rcases h with (h | h) | h
      · exact .inr ⟨part, List.mem_cons_self, h⟩
      · exact .inl h
      · obtain hcomma | ⟨other, hother, hmem⟩ := ih h
        · exact .inl hcomma
        · exact .inr ⟨other, List.mem_cons_of_mem _ hother, hmem⟩

theorem operandTokens_spec (o : Operand) : operandTokens o ≠ [] ∧ .comma ∉ operandTokens o ∧
    .colon ∉ operandTokens o := by
  cases o <;> simp [operandTokens]

/-- No part of an instruction is empty or contains a comma or a colon. -/
theorem writtenParts_spec (op : Opcode) (o : Operands) :
    ∀ part ∈ writtenParts op o, part ≠ [] ∧ .comma ∉ part ∧ .colon ∉ part := by
  intro part hpart
  simp only [writtenParts, List.mem_append, List.mem_map] at hpart
  rcases hpart with (hpart | hpart) | ⟨a, -, rfl⟩
  · split at hpart
    · obtain rfl := List.mem_singleton.mp hpart
      simp
    · cases hpart
  · split at hpart
    · obtain rfl := List.mem_singleton.mp hpart
      simp
    · cases hpart
  · exact operandTokens_spec a

theorem ofMnemonic?_mnemonic {op : Opcode} (hop : op ∈ Opcode.encoded) (hknown : op.isUnknown = false) :
    Opcode.ofMnemonic? op.mnemonic = some op := by
  have hall : ∀ op ∈ Opcode.encoded, op.isUnknown = false →
      Opcode.ofMnemonic? op.mnemonic = some op := by
    decide
  exact hall op hop hknown

theorem parseTarget_toString (line : Nat) (address : UInt32) :
    parseTarget line [.word (toString address.toNat)] = .ok (.offset address) := by
  have hlt := address.toNat_lt
  have hsize : UInt64.size = 18446744073709551616 := rfl
  have hread := constant?_toString_nat address.toNat (by omega)
  have hvalue : (Int64.ofInt address.toNat).toInt = address.toNat :=
    Int64.toInt_ofInt_of_le (by omega) (by omega)
  have hnonneg : 0 ≤ Int64.ofInt address.toNat := by
    rw [Int64.le_iff_toInt_le, hvalue]
    exact Int.natCast_nonneg _
  have hfits : (Int64.ofInt address.toNat).toInt.toNat < UInt32.size := by
    rw [hvalue]
    exact hlt
  simp only [parseTarget, hread]
  rw [if_pos ⟨hnonneg, hfits⟩, hvalue, Int.toNat_natCast, UInt32.ofNat_toNat]

theorem parseConstant_toString (line : Nat) (c : Int64) :
    parseConstant line [.word (toString c.toInt)] = .ok c := by
  simp only [parseConstant, constant?_toString]

theorem parseOperand_tokens (line : Nat) (o : Operand) (ho : o.index.toNat < registerCount) :
    parseOperand line (operandTokens o) = .ok o := by
  cases o with
  | register i =>
    have hname := registerIndex?_name i ho
    simp only [operandTokens, parseOperand, register, hname]
    rfl
  | memory w i =>
    have hname := registerIndex?_name i ho
    simp only [operandTokens, parseOperand, register, hname, Width.ofName?_name]
    rfl

theorem mapM_parseOperand (line : Nat) (args : List Operand)
    (hargs : ∀ a ∈ args, a.index.toNat < registerCount) :
    (args.map operandTokens).mapM (parseOperand line) = .ok args := by
  induction args with
  | nil => rfl
  | cons a rest ih =>
    obtain ⟨ha, hrest⟩ := List.forall_mem_cons.mp hargs
    rw [List.map_cons, mapM_cons_eq_ok_iff]
    exact ⟨a, rest, parseOperand_tokens line a ha, ih hrest, rfl⟩

def written (line : Nat) (op : Opcode) (o : Operands) : Instruction :=
  { line
    opcode := op
    target := if op.hasAddress then some (.offset o.address) else none
    constant := o.constant
    args := o.args }

theorem length_writtenParts {op : Opcode} {o : Operands} (h : o.Fits op) :
    (writtenParts op o).length = writtenCount op := by
  rw [writtenParts, writtenCount, List.length_append, List.length_append, List.length_map,
    h.args_length]
  cases op.hasAddress <;> cases op.hasConstant <;> rfl

/-- Reading the tokens of an instruction gives its operation and its operands. -/
theorem parse_writtenTokens {op : Opcode} {o : Operands} (hop : op ∈ Opcode.encoded)
    (hknown : op.isUnknown = false) (h : o.Fits op) (line : Nat) :
    parse line (writtenTokens op o) = .ok (written line op o) := by
  have hsplit : splitOperands ([Token.comma].intercalate (writtenParts op o)) = writtenParts op o := by
    apply splitOperands_intercalate
    intro part hpart
    obtain ⟨hne, hcomma, -⟩ := writtenParts_spec op o part hpart
    exact ⟨hne, hcomma⟩
  have htarget : takeTarget line op (writtenParts op o) =
      .ok ((written line op o).target,
        (if op.hasConstant then [[.word (toString o.constant.toInt)]] else []) ++
          o.args.map operandTokens) := by
    cases haddress : op.hasAddress with
    | true =>
      simp only [takeTarget, writtenParts, written, haddress, if_true, List.cons_append, List.nil_append,
        parseTarget_toString]
      rfl
    | false =>
      simp only [takeTarget, writtenParts, written, haddress, Bool.false_eq_true, if_false,
        List.nil_append]
      rfl
  have hconstant : takeConstant line op
      ((if op.hasConstant then [[.word (toString o.constant.toInt)]] else []) ++
        o.args.map operandTokens) = .ok (o.constant, o.args.map operandTokens) := by
    cases hconst : op.hasConstant with
    | true =>
      simp only [takeConstant, hconst, if_true, List.cons_append, List.nil_append,
        parseConstant_toString]
      rfl
    | false =>
      simp only [takeConstant, hconst, Bool.false_eq_true, if_false, List.nil_append, h.constant hconst]
      rfl
  rw [writtenTokens, parse_eq_ok_iff, hsplit]
  exact ⟨op, _, _, _, _, o.args, ofMnemonic?_mnemonic hop hknown, length_writtenParts h, htarget,
    hconstant, mapM_parseOperand line o.args h.registers, rfl⟩

end Instruction

def Progress.addCode (p : Progress) (items : List Item) : Progress :=
  { p with source := { p.source with code := p.source.code ++ items } }

theorem Progress.line_writtenTokens {op : Opcode} {o : Operands} (hop : op ∈ Opcode.encoded)
    (hknown : op.isUnknown = false) (h : o.Fits op) (p : Progress) (hp : p.current = .code)
    (number : Nat) :
    p.line ⟨number, writtenTokens op o⟩ =
      .ok (p.addCode [.instruction (Instruction.written number op o)]) := by
  have hparse := Instruction.parse_writtenTokens hop hknown h number
  unfold Progress.line
  split
  next heq => cases heq
  next name heq =>
    -- the tokens are not those of a label
    have hcolon : Token.colon ∈ [Token.comma].intercalate (writtenParts op o) := by
      rw [(List.cons.inj heq).2]
      exact List.mem_cons_self
    rcases Instruction.mem_intercalate hcolon with hcomma | ⟨part, hpart, hmem⟩
    · cases hcomma
    · exact absurd hmem (Instruction.writtenParts_spec op o part hpart).2.2
  next =>
    split
    next =>
      change Except.bind (Instruction.parse number (writtenTokens op o)) _ = _
      rw [hparse]
      rfl
    next hdata =>
      rw [hp] at hdata
      cases hdata

end PrefixVM.Asm
