import Mathlib
import PrefixVM.Proofs.Literals
import PrefixVM.Proofs.LongestMatch
import PrefixVM.Proofs.References
import PrefixVM.Proofs.Rendering

/-!
The grammar of instructions. A line is an instruction exactly if it is the mnemonic of a known operation and
the operands of that operation between commas: a target, a constant and arguments, each in one of its forms.
The forms say what an operand means, so a line is read as one instruction or not at all.
-/
namespace PrefixVM.Asm

/-- A name for register `i`: the letter `r` and decimal digits, in which leading zeros do not matter. -/
def NamesRegister (name : String) (i : UInt8) : Prop :=
  ∃ digits, name.toList = 'r' :: digits ∧ Numeral.Denotes 10 digits i.toNat ∧ i.toNat < 16

/-- The forms of a target: a constant that is an offset of 32 bits, or a name that is no constant. -/
inductive WritesTarget : List Token → Target → Prop
  | offset {w : String} {v : Int64} {bits : UInt32} (hv : constant? w = some v)
    (hbits : v.toInt = bits.toNat) : WritesTarget [.word w] (.offset bits)
  | label {w : String} {c : Char} {rest : List Char} (hw : constant? w = none)
    (hname : w.toList = c :: rest) (hc : c.isAlpha = true ∨ c = '_') : WritesTarget [.word w] (.label w)

inductive WritesConstant : List Token → Int64 → Prop
  | word {w : String} {v : Int64} (hv : constant? w = some v) : WritesConstant [.word w] v

/-- The forms of an argument: a register, or the memory that a register points to. -/
inductive WritesOperand : List Token → Operand → Prop
  | register {name : String} {i : UInt8} (h : NamesRegister name i) :
    WritesOperand [.word name] (.register i)
  | memory (w : Width) {name : String} {i : UInt8} (h : NamesRegister name i) :
    WritesOperand [.word w.name, .openBracket, .word name, .closeBracket] (.memory w i)

namespace Instruction

/-- The constant of an instruction that has one. -/
def constants (i : Instruction) : List Int64 :=
  if i.opcode.hasConstant then [i.constant] else []

/-- The tokens write the instruction `i`: its mnemonic and, between commas, as many operands of each kind as
its operation asks for. -/
structure WrittenWith (i : Instruction) (tokens : List Token) (targets constants args : List (List Token)) :
    Prop where
  known : i.opcode ∈ Opcode.encoded ∧ i.opcode.isUnknown = false
  tokens_eq :
    tokens = .word i.opcode.mnemonic :: [Token.comma].intercalate (targets ++ constants ++ args)
  targets_length : targets.length = i.opcode.hasAddress.toNat
  constants_length : constants.length = i.opcode.hasConstant.toNat
  args_length : args.length = i.opcode.operandCount
  target : List.Forall₂ WritesTarget targets i.target.toList
  constant : List.Forall₂ WritesConstant constants i.constants
  operands : List.Forall₂ WritesOperand args i.args
  unused : i.opcode.hasConstant = false → i.constant = 0

end Instruction

section Operands

variable {line : Nat} {part : List Token}

theorem isNameStart_iff (c : Char) : isNameStart c = true ↔ c.isAlpha = true ∨ c = '_' := by
  have hletter : isLetter c = true ↔ c.isAlpha = true := by
    simp only [isLetter, Char.isAlpha, Char.isUpper, Char.isLower, Bool.or_eq_true, Bool.and_eq_true,
      decide_eq_true_eq]
    exact or_comm
  rw [isNameStart, Bool.or_eq_true, beq_iff_eq, hletter]

theorem parseTarget_eq_ok_iff (t : Target) :
    Instruction.parseTarget line part = .ok t ↔ WritesTarget part t := by
  constructor
  · intro h
    unfold Instruction.parseTarget at h
    split at h
    next w =>
      split at h
      next v hv =>
        split_ifs at h with hrange
        obtain rfl := Except.ok.inj h
        obtain ⟨hnonneg, hlt⟩ := hrange
        apply WritesTarget.offset hv
        rw [UInt32.toNat_ofNat_of_lt' hlt]
        exact (Int.toNat_of_nonneg (Int64.le_iff_toInt_le.mp hnonneg)).symm
      next hw =>
        split_ifs at h with hname
        obtain rfl := Except.ok.inj h
        obtain ⟨c, hhead, hc⟩ := (Option.any_eq_true _ _).mp hname
        obtain ⟨rest, hlist⟩ := List.head?_eq_some_iff.mp hhead
        exact .label hw hlist ((isNameStart_iff c).mp hc)
    next => cases h
  · intro h
    cases h with
    | @offset w v bits hv hbits =>
      have hnonneg : 0 ≤ v := by
        rw [Int64.le_iff_toInt_le, hbits]
        exact Int.natCast_nonneg _
      have hnat : v.toInt.toNat = bits.toNat := by rw [hbits, Int.toNat_natCast]
      have hlt : v.toInt.toNat < UInt32.size := by
        rw [hnat]
        exact bits.toNat_lt
      simp only [Instruction.parseTarget, hv]
      rw [if_pos ⟨hnonneg, hlt⟩, hnat, UInt32.ofNat_toNat]
    | @label w c rest hw hname hc =>
      have hstart : w.toList.head?.any isNameStart = true := by
        rw [hname]
        exact (isNameStart_iff c).mpr hc
      simp only [Instruction.parseTarget, hw]
      rw [if_pos hstart]

theorem parseConstant_eq_ok_iff (c : Int64) :
    Instruction.parseConstant line part = .ok c ↔ WritesConstant part c := by
  constructor
  · intro h
    unfold Instruction.parseConstant at h
    split at h
    next w =>
      split at h
      next v hv =>
        obtain rfl := Except.ok.inj h
        exact .word hv
      next => cases h
    next => cases h
  · intro h
    cases h with
    | word hv => simp only [Instruction.parseConstant, hv]

theorem registerIndex?_eq_some_iff {name : String} (hplus : '+' ∉ name.toList) (i : UInt8) :
    registerIndex? name = some i ↔ NamesRegister name i := by
  unfold registerIndex?
  split
  next digits hname =>
    have hdigits : '+' ∉ digits := by
      rw [hname] at hplus
      exact fun hmem => hplus (List.mem_cons_of_mem _ hmem)
    simp only [Option.map_eq_some_iff,
      Numeral.parse?_eq_some_iff_denotes (show 10 ≤ 16 by decide) registerCount hdigits]
    constructor
    · rintro ⟨n, ⟨hn, hlt⟩, rfl⟩
      have hnat : (UInt8.ofNat n).toNat = n :=
        UInt8.toNat_ofNat_of_lt' (Nat.lt_trans hlt (by decide))
      refine ⟨digits, hname, ?_⟩
      rw [hnat]
      exact ⟨hn, hlt⟩
    · rintro ⟨digits', hname', hdenotes, hlt⟩
      obtain ⟨-, rfl⟩ := List.cons.inj (hname.symm.trans hname')
      exact ⟨i.toNat, ⟨hdenotes, hlt⟩, UInt8.ofNat_toNat⟩
  next hno =>
    constructor
    · intro h
      cases h
    · rintro ⟨digits, hname, -⟩
      exact absurd hname (hno digits)

theorem register_eq_ok_iff_names (line : Nat) {name : String} (hplus : '+' ∉ name.toList) (i : UInt8) :
    register line name = .ok i ↔ NamesRegister name i := by
  rw [← registerIndex?_eq_some_iff hplus, register]
  cases registerIndex? name with
  | none => simp
  | some j => simp

/-- No word among the tokens has a plus sign. -/
def Unsigned (tokens : List Token) : Prop :=
  ∀ w, Token.word w ∈ tokens → '+' ∉ w.toList

theorem mem_intercalate_of_mem {parts : List (List Token)} {part : List Token} (hpart : part ∈ parts)
    {t : Token} (ht : t ∈ part) : t ∈ [Token.comma].intercalate parts := by
  induction parts with
  | nil => cases hpart
  | cons first rest ih =>
    cases rest with
    | nil =>
      rw [List.intercalate_singleton, ← List.mem_singleton.mp hpart]
      exact ht
    | cons next rest =>
      rw [List.intercalate_cons_cons, List.mem_append, List.mem_append]
      rcases List.mem_cons.mp hpart with rfl | hpart
      · exact .inl (.inl ht)
      · exact .inr (ih hpart)

theorem Unsigned.within {t : Token} {parts : List (List Token)}
    (h : Unsigned (t :: [Token.comma].intercalate parts)) {part : List Token} (hpart : part ∈ parts) :
    Unsigned part := fun w hw =>
  h w (List.mem_cons_of_mem t (mem_intercalate_of_mem hpart hw))

theorem parseOperand_eq_ok_iff (hpart : Unsigned part) (o : Operand) :
    Instruction.parseOperand line part = .ok o ↔ WritesOperand part o := by
  constructor
  · intro h
    unfold Instruction.parseOperand at h
    split at h
    next name =>
      obtain ⟨i, hi, h⟩ := (Except.bind_eq_ok_iff _ _ _).mp h
      obtain rfl := (Except.pure_eq_ok_iff _ _).mp h
      exact .register ((register_eq_ok_iff_names line (hpart name (by simp)) i).mp hi)
    next width name =>
      split at h
      next w hw =>
        obtain ⟨i, hi, h⟩ := (Except.bind_eq_ok_iff _ _ _).mp h
        obtain rfl := (Except.pure_eq_ok_iff _ _).mp h
        obtain rfl : w.name = width := beq_iff_eq.mp (List.find?_some hw :)
        exact .memory w ((register_eq_ok_iff_names line (hpart name (by simp)) i).mp hi)
      next => cases h
    next => cases h
  · intro h
    cases h with
    | @register name i hname =>
      have hi := (register_eq_ok_iff_names line (hpart name (by simp)) i).mpr hname
      rw [Instruction.parseOperand, hi]
      rfl
    | @memory w name i hname =>
      have hi := (register_eq_ok_iff_names line (hpart name (by simp)) i).mpr hname
      rw [Instruction.parseOperand, Width.ofName?_name, hi]
      rfl

theorem mapM_parseOperand_eq_ok_iff {parts : List (List Token)} (hparts : ∀ part ∈ parts, Unsigned part)
    (args : List Operand) :
    parts.mapM (Instruction.parseOperand line) = .ok args ↔ List.Forall₂ WritesOperand parts args := by
  induction parts generalizing args with
  | nil => rw [List.mapM_nil, Except.pure_eq_ok_iff, List.forall₂_nil_left_iff, eq_comm]
  | cons part rest ih =>
    obtain ⟨hpart, hrest⟩ := List.forall_mem_cons.mp hparts
    rw [mapM_cons_eq_ok_iff, List.forall₂_cons_left_iff]
    simp only [parseOperand_eq_ok_iff hpart, ih hrest]

end Operands

namespace Instruction

variable {line : Nat} {op : Opcode} {operands rest : List (List Token)}

/-- The operands begin with the target, if the operation has one. -/
theorem takeTarget_eq_ok_iff (hlen : op.hasAddress.toNat ≤ operands.length) (target : Option Target) :
    takeTarget line op operands = .ok (target, rest) ↔
      ∃ targets, operands = targets ++ rest ∧ targets.length = op.hasAddress.toNat ∧
        List.Forall₂ WritesTarget targets target.toList := by
  unfold takeTarget
  cases hop : op.hasAddress with
  | false =>
    simp only [Except.pure_eq_ok_iff, Prod.mk.injEq]
    constructor
    · rintro ⟨rfl, rfl⟩
      exact ⟨[], rfl, rfl, .nil⟩
    · rintro ⟨targets, rfl, hlength, hforms⟩
      obtain rfl := List.length_eq_zero_iff.mp hlength
      exact ⟨(Option.toList_eq_nil_iff.mp (List.forall₂_nil_left_iff.mp hforms)).symm, rfl⟩
  | true =>
    rw [hop] at hlen
    obtain ⟨first, others, rfl⟩ := List.exists_cons_of_length_pos hlen
    simp only [Except.bind_eq_ok_iff, Except.pure_eq_ok_iff, Prod.mk.injEq, parseTarget_eq_ok_iff]
    constructor
    · rintro ⟨t, ht, rfl, rfl⟩
      exact ⟨[first], rfl, rfl, .cons ht .nil⟩
    · rintro ⟨targets, heq, hlength, hforms⟩
      obtain ⟨part, rfl⟩ := List.length_eq_one_iff.mp hlength
      obtain ⟨rfl, rfl⟩ := List.cons.inj heq
      obtain ⟨t, more, ht, hmore, htarget⟩ := List.forall₂_cons_left_iff.mp hforms
      obtain rfl := List.forall₂_nil_left_iff.mp hmore
      exact ⟨t, ht, (Option.toList_eq_singleton_iff.mp htarget).symm, rfl⟩

theorem takeConstant_eq_ok_iff (hlen : op.hasConstant.toNat ≤ operands.length) (constant : Int64) :
    takeConstant line op operands = .ok (constant, rest) ↔
      ∃ constants, operands = constants ++ rest ∧ constants.length = op.hasConstant.toNat ∧
        List.Forall₂ WritesConstant constants (if op.hasConstant then [constant] else []) ∧
        (op.hasConstant = false → constant = 0) := by
  unfold takeConstant
  cases hop : op.hasConstant with
  | false =>
    simp only [Except.pure_eq_ok_iff, Prod.mk.injEq, Bool.false_eq_true, if_false]
    constructor
    · rintro ⟨rfl, rfl⟩
      exact ⟨[], rfl, rfl, .nil, fun _ => rfl⟩
    · rintro ⟨constants, rfl, hlength, -, hzero⟩
      obtain rfl := List.length_eq_zero_iff.mp hlength
      exact ⟨(hzero trivial).symm, rfl⟩
  | true =>
    rw [hop] at hlen
    obtain ⟨first, others, rfl⟩ := List.exists_cons_of_length_pos hlen
    simp only [Except.bind_eq_ok_iff, Except.pure_eq_ok_iff, Prod.mk.injEq, parseConstant_eq_ok_iff, if_true]
    constructor
    · rintro ⟨c, hc, rfl, rfl⟩
      exact ⟨[first], rfl, rfl, .cons hc .nil, by simp⟩
    · rintro ⟨constants, heq, hlength, hforms, -⟩
      obtain ⟨part, rfl⟩ := List.length_eq_one_iff.mp hlength
      obtain ⟨rfl, rfl⟩ := List.cons.inj heq
      obtain ⟨hc, -⟩ := List.forall₂_cons.mp hforms
      exact ⟨constant, hc, rfl, rfl⟩

theorem intercalate_split (tokens : List Token) :
    splitOperands.split tokens ≠ [] ∧ [Token.comma].intercalate (splitOperands.split tokens) = tokens := by
  fun_induction splitOperands.split tokens with
  | case1 => simp
  | case2 rest ih =>
    obtain ⟨part, parts, hsplit⟩ := List.exists_cons_of_ne_nil ih.1
    rw [hsplit] at ih ⊢
    rw [List.intercalate_cons_cons, ih.2]
    exact ⟨List.cons_ne_nil _ _, rfl⟩
  | case3 t rest ht hsplit ih => exact absurd hsplit ih.1
  | case4 t rest ht part parts hsplit ih =>
    rw [hsplit] at ih
    rw [List.intercalate_cons_cons_left, ih.2]
    exact ⟨List.cons_ne_nil _ _, rfl⟩

theorem intercalate_splitOperands (tokens : List Token) :
    [Token.comma].intercalate (splitOperands tokens) = tokens := by
  cases tokens with
  | nil => rfl
  | cons t rest => exact (intercalate_split (t :: rest)).2

/-- No form of an operand is empty or has a comma in it. -/
theorem WrittenWith.apart {targets constants args : List (List Token)} {i : Instruction}
    {tokens : List Token} (h : i.WrittenWith tokens targets constants args) :
    ∀ part ∈ targets ++ constants ++ args, part ≠ [] ∧ .comma ∉ part := by
  have hforms {α : Type} {Writes : List Token → α → Prop} {parts : List (List Token)} {values : List α}
      (hwrites : ∀ part value, Writes part value → part ≠ [] ∧ .comma ∉ part)
      (hparts : List.Forall₂ Writes parts values) : ∀ part ∈ parts, part ≠ [] ∧ .comma ∉ part :=
    ((List.forall₂_and_left _ _).mp (hparts.imp fun part value hpart => ⟨hwrites part value hpart, hpart⟩)).1
  intro part hpart
  rw [List.mem_append, List.mem_append] at hpart
  rcases hpart with (hpart | hpart) | hpart
  · exact hforms (fun _ _ hform => by cases hform <;> simp) h.target part hpart
  · exact hforms (fun _ _ hform => by cases hform; simp) h.constant part hpart
  · exact hforms (fun _ _ hform => by cases hform <;> simp) h.operands part hpart

/-- Reading accepts exactly what is written by the rules. -/
theorem parse_eq_ok_iff_writtenWith {tokens : List Token} (htokens : Unsigned tokens) (line : Nat)
    (i : Instruction) :
    parse line tokens = .ok i ↔
      i.line = line ∧ ∃ targets constants args, i.WrittenWith tokens targets constants args := by
  constructor
  · intro h
    refine ⟨line_of_parse h, ?_⟩
    obtain ⟨mnemonic, tokens, rfl⟩ := exists_word_of_parse h
    obtain ⟨op, target, operands, constant, args, values, hop, hlen, ht, hc, ha, rfl⟩ :=
      (parse_eq_ok_iff line mnemonic tokens i).mp h
    obtain ⟨hmem, hknown, rfl⟩ := ofMnemonic?_eq_some hop
    -- the operands are counted first, so the parts that are taken off are there
    rw [writtenCount] at hlen
    obtain ⟨targets, hparts, htargets, htarget⟩ := (takeTarget_eq_ok_iff (by omega) target).mp ht
    rw [hparts, List.length_append] at hlen
    obtain ⟨constants, rfl, hconstants, hconstant, hzero⟩ :=
      (takeConstant_eq_ok_iff (by omega) constant).mp hc
    rw [List.length_append] at hlen
    rw [← List.append_assoc] at hparts
    have htext := intercalate_splitOperands tokens
    rw [hparts] at htext
    rw [← htext] at htokens
    have hargs : ∀ part ∈ args, Unsigned part := fun part hpart =>
      htokens.within (List.mem_append_right _ hpart)
    have hcount : args.length = op.operandCount := by omega
    exact ⟨targets, constants, args, ⟨hmem, hknown⟩, congrArg _ htext.symm, htargets, hconstants,
      hcount, htarget, hconstant, (mapM_parseOperand_eq_ok_iff hargs values).mp ha, hzero⟩
  · rintro ⟨rfl, targets, constants, args, hi⟩
    obtain ⟨hmem, hknown⟩ := hi.known
    have hsplit := splitOperands_intercalate hi.apart
    rw [hi.tokens_eq] at htokens
    have hargs : ∀ part ∈ args, Unsigned part := fun part hpart =>
      htokens.within (List.mem_append_right _ hpart)
    rw [hi.tokens_eq, parse_eq_ok_iff, hsplit]
    refine ⟨i.opcode, i.target, constants ++ args, i.constant, args, i.args,
      ofMnemonic?_mnemonic hmem hknown, ?_, ?_, ?_, ?_, rfl⟩
    · rw [List.length_append, List.length_append, hi.targets_length, hi.constants_length, hi.args_length]
      rfl
    · rw [takeTarget_eq_ok_iff]
      · exact ⟨targets, List.append_assoc _ _ _, hi.targets_length, hi.target⟩
      · rw [List.length_append, List.length_append, hi.targets_length]
        omega
    · rw [takeConstant_eq_ok_iff]
      · exact ⟨constants, rfl, hi.constants_length, hi.constant, hi.unused⟩
      · rw [List.length_append, hi.constants_length]
        omega
    · exact (mapM_parseOperand_eq_ok_iff hargs i.args).mpr hi.operands

end Instruction

theorem IsWord.plus_not_mem {text : List Char} (h : IsWord text) : '+' ∉ text := by
  have hword : isWordChar '+' = false := by decide
  have hplain {rest : List Char} (hall : ∀ x ∈ rest, isWordChar x = true) : '+' ∉ rest := by
    intro hmem
    rw [hall '+' hmem] at hword
    cases hword
  cases h with
  | plain c rest hall => exact hplain hall
  | negative c rest hall => exact List.not_mem_cons_of_ne_of_not_mem (by decide) (hplain hall)

theorem unsigned_of_mem_lines {text : String} {lines : List Line} (hlines : tokenize text = .ok lines)
    {l : Line} (hl : l ∈ lines) : Unsigned l.tokens := by
  intro w hw
  obtain ⟨-, hmatch⟩ := valid_of_mem_lines hlines hl hw
  have hword : ∀ {piece : List Char} {t : Token}, Matches piece (some t) → t = .word w → IsWord piece := by
    intro piece t h ht
    cases h with
    | word h => exact h
    | directive | comma | colon | openBracket | closeBracket | newline => cases ht
  exact (hword hmatch rfl).plus_not_mem

/-- A scanned line is read as an instruction exactly if it is written by the rules: a mnemonic, then the
operands of its operation between commas. The instruction has these operands and no others, as many arguments
as the operation takes, and registers that exist. -/
theorem parse_line_eq_ok_iff {text : String} {lines : List Line} (hlines : tokenize text = .ok lines)
    {l : Line} (hl : l ∈ lines) (number : Nat) (i : Instruction) :
    (Instruction.parse number l.tokens = .ok i ↔
      i.line = number ∧ ∃ targets constants args, i.WrittenWith l.tokens targets constants args) ∧
    (Instruction.parse number l.tokens = .ok i →
      i.args.length = i.opcode.operandCount ∧ ∀ a ∈ i.args, a.index.toNat < 16) := by
  refine ⟨Instruction.parse_eq_ok_iff_writtenWith (unsigned_of_mem_lines hlines hl) number i, ?_⟩
  intro h
  have hi := Instruction.parse_wellFormed h
  exact ⟨hi.args_length, hi.registers⟩

/-- A jump with two arguments, with blanks around its operands and a comment behind them. -/
def spacedJump : String :=
  "# leave\njumpEqual _end ,r07, dword[ r15 ] # the loop"

theorem parse_line_eq_ok_iff_spacedJump :
    ∃ l, tokenize spacedJump = .ok [l] ∧ l.number = 2 ∧
      Instruction.parse 2 l.tokens =
        .ok ⟨2, .jumpEqual, some (.label "_end"), 0, [.register 7, .memory .dword 15]⟩ := by
  have hlines : tokenize spacedJump = .ok
      [⟨2, [.word "jumpEqual", .word "_end", .comma, .word "r07", .comma, .word "dword", .openBracket,
        .word "r15", .closeBracket]⟩] := by
    cbv
  have hlabel : WritesTarget [.word "_end"] (.label "_end") :=
    .label (by cbv) (show "_end".toList = '_' :: "end".toList by decide) (.inr rfl)
  have hseven : NamesRegister "r07" 7 :=
    ⟨"07".toList, by decide, ⟨by decide, [0, 7], (Numeral.digits?_eq_some_iff (by decide) _ _).mp (by decide),
      by decide⟩, by decide⟩
  have hlast : NamesRegister "r15" 15 :=
    ⟨"15".toList, by decide, ⟨by decide, [1, 5], (Numeral.digits?_eq_some_iff (by decide) _ _).mp (by decide),
      by decide⟩, by decide⟩
  refine ⟨_, hlines, rfl, ((parse_line_eq_ok_iff hlines (List.mem_singleton.mpr rfl) 2 _).1).mpr ?_⟩
  refine ⟨rfl, [[.word "_end"]], [], [[.word "r07"], [.word "dword", .openBracket, .word "r15", .closeBracket]],
    ⟨by decide, rfl⟩, rfl, rfl, rfl, rfl, .cons hlabel .nil, .nil, ?_, fun _ => rfl⟩
  exact .cons (.register hseven) (.cons (.memory .dword hlast) .nil)

end PrefixVM.Asm
