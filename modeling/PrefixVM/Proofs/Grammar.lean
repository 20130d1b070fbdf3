import PrefixVM.Asm.Source
import PrefixVM.Proofs.Numerals

/-!
What a parsed source looks like. Every instruction carries the operands that its operation asks for, with
registers that exist, and the names of the code labels are distinct.
-/
namespace PrefixVM

theorem Except.bind_eq_ok_iff {ε α β : Type} (x : Except ε α) (f : α → Except ε β) (b : β) :
    (x >>= f) = .ok b ↔ ∃ a, x = .ok a ∧ f a = .ok b := by
  cases x <;> simp [bind, Except.bind]

theorem Except.pure_eq_ok_iff {ε α : Type} (a b : α) :
    (pure a : Except ε α) = .ok b ↔ a = b := by
  simp [pure, Except.pure]

theorem Except.map_eq_ok_iff {ε α β : Type} (f : α → β) (x : Except ε α) (b : β) :
    x.map f = .ok b ↔ ∃ a, x = .ok a ∧ b = f a := by
  cases x <;> simp [Except.map, eq_comm]

/-- What every step of a loop preserves holds at its end. -/
theorem foldlM_preserves {ε α β : Type} (P : β → Prop) (f : β → α → Except ε β)
    (hstep : ∀ b a b', P b → f b a = .ok b' → P b') (l : List α) (b b' : β) (hb : P b)
    (h : l.foldlM f b = .ok b') : P b' := by
  induction l generalizing b with
  | nil =>
    rw [List.foldlM_nil, Except.pure_eq_ok_iff] at h
    rwa [← h]
  | cons a rest ih =>
    rw [List.foldlM_cons, Except.bind_eq_ok_iff] at h
    obtain ⟨c, hc, hrest⟩ := h
    exact ih c (hstep b a c hb hc) hrest

theorem mapM_cons_eq_ok_iff {ε α β : Type} (f : α → Except ε β) (a : α) (l : List α) (r : List β) :
    (a :: l).mapM f = .ok r ↔ ∃ b rest, f a = .ok b ∧ l.mapM f = .ok rest ∧ r = b :: rest := by
  simp only [List.mapM_cons, Except.bind_eq_ok_iff, Except.pure_eq_ok_iff]
  constructor
  · rintro ⟨b, hb, rest, hrest, rfl⟩
    exact ⟨b, rest, hb, hrest, rfl⟩
  · rintro ⟨b, rest, hb, hrest, rfl⟩
    exact ⟨b, hb, rest, hrest, rfl⟩

theorem mapM_eq_ok {ε α β : Type} (f : α → Except ε β) (l : List α) (r : List β)
    (h : l.mapM f = .ok r) : r.length = l.length ∧ ∀ b ∈ r, ∃ a ∈ l, f a = .ok b := by
  induction l generalizing r with
  | nil =>
    rw [List.mapM_nil, Except.pure_eq_ok_iff] at h
    simp [← h]
  | cons a rest ih =>
    obtain ⟨b, bs, hb, hbs, rfl⟩ := (mapM_cons_eq_ok_iff f a rest r).mp h
    obtain ⟨hlen, hfrom⟩ := ih bs hbs
    refine ⟨by simp [hlen], ?_⟩
    intro c hc
    rcases List.mem_cons.mp hc with rfl | hc
    · exact ⟨a, by simp, hb⟩
    · obtain ⟨x, hx, hfx⟩ := hfrom c hc
      exact ⟨x, by simp [hx], hfx⟩

namespace Asm

def Item.instruction? : Item → Option Instruction
  | .label _ _ => none
  | .instruction i => some i

def Item.label? : Item → Option String
  | .label _ name => some name
  | .instruction _ => none

def instructions (items : List Item) : List Instruction :=
  items.filterMap Item.instruction?

def labelNames (items : List Item) : List String :=
  items.filterMap Item.label?

namespace Instruction

/-- An instruction with what its operation asks for: a target or none, a constant or zero, and as many
operands as it takes, each with one of the sixteen registers. -/
structure WellFormed (i : Instruction) : Prop where
  opcode : i.opcode ∈ Opcode.encoded
  known : i.opcode.isUnknown = false
  target : i.target.isSome = i.opcode.hasAddress
  constant : i.opcode.hasConstant = false → i.constant = 0
  args_length : i.args.length = i.opcode.operandCount
  registers : ∀ a ∈ i.args, a.index.toNat < registerCount

theorem registerIndex?_lt (text : String) (i : UInt8) (h : registerIndex? text = some i) :
    i.toNat < registerCount := by
  unfold registerIndex? at h
  split at h
  · obtain ⟨n, hn, rfl⟩ := Option.map_eq_some_iff.mp h
    obtain ⟨-, ds, -, -, hlt⟩ := (Numeral.parse?_eq_some_iff _ _ _ _).mp hn
    rw [UInt8.toNat_ofNat_of_lt' (Nat.lt_trans hlt (by decide))]
    exact hlt
  · cases h

theorem register_eq_ok {line : Nat} {text : String} {i : UInt8} (h : register line text = .ok i) :
    i.toNat < registerCount := by
  unfold register at h
  split at h
  next j hj =>
    obtain rfl := Except.ok.inj h
    exact registerIndex?_lt text j hj
  next => cases h

theorem parseOperand_index_lt {line : Nat} {tokens : List Token} {o : Operand}
    (h : parseOperand line tokens = .ok o) : o.index.toNat < registerCount := by
  unfold parseOperand at h
  split at h
  · obtain ⟨i, hi, ho⟩ := (Except.bind_eq_ok_iff _ _ _).mp h
    obtain rfl := (Except.pure_eq_ok_iff _ _).mp ho
    exact register_eq_ok hi
  · split at h
    · obtain ⟨i, hi, ho⟩ := (Except.bind_eq_ok_iff _ _ _).mp h
      obtain rfl := (Except.pure_eq_ok_iff _ _).mp ho
      exact register_eq_ok hi
    · cases h
  · cases h

/-- Reading the target takes one operand if the operation has an address, and none otherwise. -/
theorem takeTarget_eq_ok {line : Nat} {op : Opcode} {operands rest : List (List Token)}
    {target : Option Target} (h : takeTarget line op operands = .ok (target, rest))
    (hlen : op.hasAddress.toNat ≤ operands.length) :
    target.isSome = op.hasAddress ∧ rest.length + op.hasAddress.toNat = operands.length := by
  unfold takeTarget at h
  split at h
  next first more hop =>
    obtain ⟨t, -, ht⟩ := (Except.bind_eq_ok_iff _ _ _).mp h
    obtain ⟨rfl, rfl⟩ := Prod.mk.inj ((Except.pure_eq_ok_iff _ _).mp ht)
    rw [hop]
    exact ⟨rfl, rfl⟩
  next hnone =>
    obtain ⟨rfl, rfl⟩ := Prod.mk.inj ((Except.pure_eq_ok_iff _ _).mp h)
    cases hop : op.hasAddress with
    | false => exact ⟨rfl, rfl⟩
    | true =>
      rw [hop] at hlen
      obtain ⟨first, more, rfl⟩ := List.exists_cons_of_length_pos hlen
      exact absurd rfl (hnone first more hop)

theorem takeConstant_eq_ok {line : Nat} {op : Opcode} {operands rest : List (List Token)}
    {constant : Int64} (h : takeConstant line op operands = .ok (constant, rest))
    (hlen : op.hasConstant.toNat ≤ operands.length) :
    (op.hasConstant = false → constant = 0) ∧
      rest.length + op.hasConstant.toNat = operands.length := by
  unfold takeConstant at h
  split at h
  next first more hop =>
    obtain ⟨c, -, hc⟩ := (Except.bind_eq_ok_iff _ _ _).mp h
    obtain ⟨rfl, rfl⟩ := Prod.mk.inj ((Except.pure_eq_ok_iff _ _).mp hc)
    rw [hop]
    exact ⟨fun h => absurd h (by decide), rfl⟩
  next hnone =>
    obtain ⟨rfl, rfl⟩ := Prod.mk.inj ((Except.pure_eq_ok_iff _ _).mp h)
    cases hop : op.hasConstant with
    | false => exact ⟨fun _ => rfl, rfl⟩
    | true =>
      rw [hop] at hlen
      obtain ⟨first, more, rfl⟩ := List.exists_cons_of_length_pos hlen
      exact absurd rfl (hnone first more hop)

theorem ofMnemonic?_eq_some {name : String} {op : Opcode} (h : Opcode.ofMnemonic? name = some op) :
    op ∈ Opcode.encoded ∧ op.isUnknown = false ∧ op.mnemonic = name := by
  have hmem := List.mem_of_find?_eq_some h
  have htest := List.find?_some h
  rw [Bool.and_eq_true_iff, Bool.not_eq_true', beq_iff_eq] at htest
  exact ⟨hmem, htest.1, htest.2⟩

theorem parse_eq_ok_iff (line : Nat) (mnemonic : String) (tokens : List Token) (i : Instruction) :
    parse line (.word mnemonic :: tokens) = .ok i ↔
      ∃ op target operands constant rest args, Opcode.ofMnemonic? mnemonic = some op ∧
        (splitOperands tokens).length = writtenCount op ∧
        takeTarget line op (splitOperands tokens) = .ok (target, operands) ∧
        takeConstant line op operands = .ok (constant, rest) ∧
        rest.mapM (parseOperand line) = .ok args ∧
        i = { line, opcode := op, target, constant, args } := by
  unfold parse
  cases hop : Opcode.ofMnemonic? mnemonic with
  | none => simp [hop, throw, throwThe, MonadExceptOf.throw]
  | some op =>
    simp only [hop]
    by_cases hlen : (splitOperands tokens).length = writtenCount op
    · simp only [hlen, ne_eq, not_true_eq_false, if_false, Except.bind_eq_ok_iff,
        Except.pure_eq_ok_iff]
      constructor
      · rintro ⟨⟨target, operands⟩, ht, ⟨constant, rest⟩, hc, args, ha, rfl⟩
        exact ⟨op, target, operands, constant, rest, args, rfl, rfl, ht, hc, ha, rfl⟩
      · rintro ⟨op', target, operands, constant, rest, args, hop', -, ht, hc, ha, rfl⟩
        obtain rfl := Option.some.inj hop'
        exact ⟨(target, operands), ht, (constant, rest), hc, args, ha, rfl⟩
    · simp [hlen, throw, throwThe, MonadExceptOf.throw, bind, Except.bind]

theorem exists_word_of_parse {line : Nat} {tokens : List Token} {i : Instruction}
    (h : parse line tokens = .ok i) : ∃ mnemonic rest, tokens = .word mnemonic :: rest := by
  unfold parse at h
  split at h
  next mnemonic rest => exact ⟨mnemonic, rest, rfl⟩
  next => cases h

theorem parse_wellFormed {line : Nat} {tokens : List Token} {i : Instruction}
    (h : parse line tokens = .ok i) : i.WellFormed := by
  obtain ⟨mnemonic, tokens, rfl⟩ := exists_word_of_parse h
  obtain ⟨op, target, operands, constant, rest, args, hop, hlen, ht, hc, ha, rfl⟩ :=
    (parse_eq_ok_iff line mnemonic tokens i).mp h
  obtain ⟨hmem, hknown, -⟩ := ofMnemonic?_eq_some hop
  rw [writtenCount] at hlen
  obtain ⟨htarget, hoperands⟩ := takeTarget_eq_ok ht (by omega)
  obtain ⟨hconstant, hrest⟩ := takeConstant_eq_ok hc (by omega)
  obtain ⟨hargs, hfrom⟩ := mapM_eq_ok _ _ _ ha
  refine ⟨hmem, hknown, htarget, hconstant, ?_, ?_⟩
  · change args.length = op.operandCount
    omega
  · intro a hmem
    obtain ⟨part, -, hpart⟩ := hfrom a hmem
    exact parseOperand_index_lt hpart

end Instruction

/-- A source whose instructions are well formed and whose code labels have distinct names. -/
structure Source.WellFormed (s : Source) : Prop where
  instructions : ∀ i ∈ instructions s.code, i.WellFormed
  labels : (labelNames s.code).Nodup

namespace Progress

/-- The source read so far is well formed, and its code labels are the ones collected. -/
structure Sound (p : Progress) : Prop where
  source : p.source.WellFormed
  codeLabels : ∀ name, name ∈ p.codeLabels ↔ name ∈ labelNames p.source.code

theorem directive_code {p p' : Progress} {line : Nat} {name : String} {rest : List Token}
    (h : p.directive line name rest = .ok p') :
    p'.source.code = p.source.code ∧ p'.codeLabels = p.codeLabels := by
  unfold directive at h
  split at h
  · obtain rfl := Except.ok.inj h
    exact ⟨rfl, rfl⟩
  · obtain rfl := Except.ok.inj h
    exact ⟨rfl, rfl⟩
  · split at h
    · cases h
    · split at h
      · obtain rfl := Except.ok.inj h
        exact ⟨rfl, rfl⟩
      · cases h
  · cases h

theorem label_sound (p : Progress) (line : Nat) (name : String) (p' : Progress) (hp : p.Sound)
    (h : p.label line name = .ok p') : p'.Sound := by
  unfold label at h
  split at h
  · split at h
    · cases h
    next hnew =>
      -- the name is not among the labels read so far
      obtain rfl := Except.ok.inj h
      rw [hp.codeLabels] at hnew
      have hnames : labelNames (p.source.code ++ [.label line name]) =
          labelNames p.source.code ++ [name] := by
        simp [labelNames, Item.label?]
      refine ⟨⟨?_, ?_⟩, ?_⟩
      · intro i hi
        exact hp.source.instructions i (by simpa [Asm.instructions, Item.instruction?] using hi)
      · change (labelNames (p.source.code ++ [.label line name])).Nodup
        rw [hnames, List.nodup_append]
        exact ⟨hp.source.labels, by simp, by grind⟩
      · intro other
        change other ∈ name :: p.codeLabels ↔ other ∈ labelNames (p.source.code ++ [.label line name])
        rw [hnames, List.mem_cons, List.mem_append, hp.codeLabels, List.mem_singleton, or_comm]
  · split at h
    · cases h
    · obtain rfl := Except.ok.inj h
      exact ⟨hp.source, hp.codeLabels⟩

theorem line_sound (p : Progress) (l : Line) (p' : Progress) (hp : p.Sound)
    (h : p.line l = .ok p') : p'.Sound := by
  unfold line at h
  split at h
  · -- directives leave the code and its labels alone
    obtain ⟨hcode, hlabels⟩ := directive_code h
    exact ⟨⟨by rw [hcode]; exact hp.source.instructions, by rw [hcode]; exact hp.source.labels⟩,
      by rw [hcode, hlabels]; exact hp.codeLabels⟩
  · exact label_sound p _ _ p' hp h
  · split at h
    · obtain ⟨i, hi, h⟩ := (Except.bind_eq_ok_iff _ _ _).mp h
      obtain rfl := (Except.pure_eq_ok_iff _ _).mp h
      have hnames : labelNames (p.source.code ++ [.instruction i]) = labelNames p.source.code := by
        simp [labelNames, Item.label?]
      refine ⟨⟨?_, ?_⟩, ?_⟩
      · intro j hj
        have hj : j ∈ Asm.instructions p.source.code ∨ j = i := by
          simpa [Asm.instructions, Item.instruction?] using hj
        rcases hj with hj | rfl
        · exact hp.source.instructions j hj
        · exact Instruction.parse_wellFormed hi
      · change (labelNames (p.source.code ++ [.instruction i])).Nodup
        rw [hnames]
        exact hp.source.labels
      · intro other
        change other ∈ p.codeLabels ↔ other ∈ labelNames (p.source.code ++ [.instruction i])
        rw [hnames]
        exact hp.codeLabels other
    · obtain ⟨bytes, -, h⟩ := (Except.bind_eq_ok_iff _ _ _).mp h
      obtain rfl := (Except.pure_eq_ok_iff _ _).mp h
      exact ⟨⟨hp.source.instructions, hp.source.labels⟩, hp.codeLabels⟩

end Progress

namespace Source

/-- What is read as a source is well formed. -/
theorem parse_wellFormed {text : String} {source : Source} (h : parse text = .ok source) :
    source.WellFormed := by
  unfold parse at h
  obtain ⟨lines, -, h⟩ := (Except.bind_eq_ok_iff _ _ _).mp h
  obtain ⟨p, hp, h⟩ := (Except.bind_eq_ok_iff _ _ _).mp h
  obtain rfl := (Except.pure_eq_ok_iff _ _).mp h
  have hstart : ({} : Progress).Sound :=
    ⟨⟨by simp [Asm.instructions], by simp [labelNames]⟩, by simp [labelNames]⟩
  exact (foldlM_preserves _ _ Progress.line_sound lines _ _ hstart hp).source

end Source

end Asm

end PrefixVM
