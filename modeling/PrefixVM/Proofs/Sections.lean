import Mathlib
import PrefixVM.Proofs.Lines
import PrefixVM.Proofs.Offsets

/-!
The order of sections. Lines of the code section and lines of the data section may be mixed in any way, and
the size of memory may be declared anywhere between them. What a section holds depends on its own lines
alone, so a text can be put in order, with the declaration first, then the code, then the data, and it
assembles to the same image. Line numbers do not reach the image either; they only serve messages.
-/
namespace PrefixVM

theorem Except.bind_eq_ok_of_imp {ε α β : Type} {x y : Except ε α} {f : α → Except ε β} {b : β}
    (hxy : ∀ a, x = .ok a → y = .ok a) (h : (x >>= f) = .ok b) : (y >>= f) = .ok b := by
  obtain ⟨a, ha, hf⟩ := (Except.bind_eq_ok_iff _ _ _).mp h
  exact (Except.bind_eq_ok_iff _ _ _).mpr ⟨a, hxy a ha, hf⟩

theorem mapM_eq_ok_of_imp {ε α β : Type} {f g : α → Except ε β}
    (hfg : ∀ a b, f a = .ok b → g a = .ok b) {l : List α} {r : List β} (h : l.mapM f = .ok r) :
    l.mapM g = .ok r := by
  induction l generalizing r with
  | nil => exact h
  | cons a rest ih =>
    obtain ⟨b, bs, hb, hbs, rfl⟩ := (mapM_cons_eq_ok_iff f a rest r).mp h
    exact (mapM_cons_eq_ok_iff g a rest _).mpr ⟨b, bs, hfg a b hb, ih hbs, rfl⟩

namespace Asm

namespace Instruction

theorem register_renumber {n : Nat} (m : Nat) {text : String} {i : UInt8}
    (h : register n text = .ok i) : register m text = .ok i := by
  unfold register at h ⊢
  split at h
  next => exact h
  next => cases h

theorem parseTarget_renumber {n : Nat} (m : Nat) {tokens : List Token} {t : Target}
    (h : parseTarget n tokens = .ok t) : parseTarget m tokens = .ok t := by
  unfold parseTarget at h ⊢
  split at h
  next text =>
    split at h
    next value =>
      split at h
      next hrange => rw [if_pos hrange]; exact h
      next => cases h
    next =>
      split at h
      next hname => rw [if_pos hname]; exact h
      next => cases h
  next => cases h

theorem parseConstant_renumber {n : Nat} (m : Nat) {tokens : List Token} {c : Int64}
    (h : parseConstant n tokens = .ok c) : parseConstant m tokens = .ok c := by
  unfold parseConstant at h ⊢
  split at h
  next text =>
    split at h
    next => exact h
    next => cases h
  next => cases h

theorem parseOperand_renumber {n : Nat} (m : Nat) {tokens : List Token} {o : Operand}
    (h : parseOperand n tokens = .ok o) : parseOperand m tokens = .ok o := by
  unfold parseOperand at h ⊢
  split at h
  next => exact Except.bind_eq_ok_of_imp (fun _ => register_renumber m) h
  next width name =>
    split at h
    next => exact Except.bind_eq_ok_of_imp (fun _ => register_renumber m) h
    next => cases h
  next => cases h

theorem takeTarget_renumber {n : Nat} (m : Nat) {op : Opcode} {operands : List (List Token)}
    {taken : Option Target × List (List Token)} (h : takeTarget n op operands = .ok taken) :
    takeTarget m op operands = .ok taken := by
  unfold takeTarget at h ⊢
  split at h
  next => exact Except.bind_eq_ok_of_imp (fun _ => parseTarget_renumber m) h
  next => exact h

theorem takeConstant_renumber {n : Nat} (m : Nat) {op : Opcode} {operands : List (List Token)}
    {taken : Int64 × List (List Token)} (h : takeConstant n op operands = .ok taken) :
    takeConstant m op operands = .ok taken := by
  unfold takeConstant at h ⊢
  split at h
  next => exact Except.bind_eq_ok_of_imp (fun _ => parseConstant_renumber m) h
  next => exact h

/-- An instruction reads the same on every line. -/
theorem parse_renumber {n : Nat} (m : Nat) {tokens : List Token} {i : Instruction}
    (h : parse n tokens = .ok i) : parse m tokens = .ok { i with line := m } := by
  obtain ⟨mnemonic, tokens, rfl⟩ := exists_word_of_parse h
  obtain ⟨op, target, operands, constant, rest, args, hop, hlen, ht, hc, ha, rfl⟩ :=
    (parse_eq_ok_iff n mnemonic tokens i).mp h
  exact (parse_eq_ok_iff m mnemonic tokens _).mpr ⟨op, target, operands, constant, rest, args, hop,
    hlen, takeTarget_renumber m ht, takeConstant_renumber m hc,
    mapM_eq_ok_of_imp (fun _ _ => parseOperand_renumber m) ha, rfl⟩

def unnumbered (i : Instruction) : Instruction := { i with line := 0 }

@[simp] theorem length_unnumbered (i : Instruction) : i.unnumbered.length = i.length := rfl

theorem resolve_unnumbered_eq_ok_iff (i : Instruction) (labels : Labels) (address : UInt32) :
    i.unnumbered.resolve labels = .ok address ↔ i.resolve labels = .ok address := by
  simp only [resolve, unnumbered]
  split
  next => rfl
  next => split <;> simp
  next => rfl

theorem resolved_unnumbered (i : Instruction) (labels : Labels) :
    i.unnumbered.resolved labels = i.resolved labels := by
  -- the errors differ by the line they name, but without an address both write zero
  have hiff := resolve_unnumbered_eq_ok_iff i labels
  unfold resolved
  cases h : i.resolve labels with
  | ok address =>
    rw [(hiff address).mpr h]
    rfl
  | error e =>
    cases h' : i.unnumbered.resolve labels with
    | ok address =>
      rw [(hiff address).mp h'] at h
      cases h
    | error e' => rfl

end Instruction

theorem Progress.dataByte_renumber {n : Nat} (m : Nat) {t : Token} {b : UInt8}
    (h : dataByte n t = .ok b) : dataByte m t = .ok b := by
  cases t with
  | word text =>
    simp only [dataByte] at h ⊢
    split at h
    next => exact h
    next => cases h
  | directive | comma | colon | openBracket | closeBracket | newline => cases h

def Item.unnumbered : Item → Item
  | .label _ name => .label 0 name
  | .instruction i => .instruction i.unnumbered

theorem Labels.ofItems_map_unnumbered (position : Nat) (items : List Item) :
    ofItems position (items.map Item.unnumbered) = ofItems position items := by
  induction items generalizing position with
  | nil => rfl
  | cons item rest ih =>
    cases item with
    | label line name => rw [List.map_cons, Item.unnumbered, ofItems, ih, ofItems]
    | instruction i =>
      rw [List.map_cons, Item.unnumbered, ofItems, ih, ofItems, Instruction.length_unnumbered]

theorem instructions_map_unnumbered (items : List Item) :
    instructions (items.map Item.unnumbered) = (instructions items).map Instruction.unnumbered := by
  induction items with
  | nil => rfl
  | cons item rest ih =>
    cases item with
    | label line name => exact ih
    | instruction i => exact congrArg (i.unnumbered :: ·) ih

theorem codeBits_map_unnumbered (labels : Labels) (code : List Instruction) :
    codeBits labels (code.map Instruction.unnumbered) = codeBits labels code := by
  simp only [codeBits, List.flatMap_map, Instruction.resolved_unnumbered]
  rfl

/-- Line numbers do not reach the code. -/
theorem encode_map_unnumbered_eq_ok_iff (items : List Item) (code : Bytes) :
    encode (items.map Item.unnumbered) = .ok code ↔ encode items = .ok code := by
  rw [encode_eq_ok_iff, encode_eq_ok_iff, Labels.ofItems_map_unnumbered, instructions_map_unnumbered,
    codeBits_map_unnumbered]
  simp only [List.forall_mem_map, Instruction.resolve_unnumbered_eq_ok_iff]

theorem encode_congr {items items' : List Item}
    (hitems : items.map Item.unnumbered = items'.map Item.unnumbered) {code : Bytes}
    (h : encode items = .ok code) : encode items' = .ok code := by
  rw [← encode_map_unnumbered_eq_ok_iff, ← hitems, encode_map_unnumbered_eq_ok_iff]
  exact h

/-- What a line is to the sections of a text: it opens one, declares the size of memory, or belongs to
the section that is open. -/
inductive Role where
  | opens (s : Section)
  | declares
  | content
  deriving DecidableEq, Repr

def Role.ofTokens : List Token → Role
  | [.directive "code"] => .opens .code
  | [.directive "data"] => .opens .data
  | .directive "dataSize" :: _ => .declares
  | _ => .content

def Role.ofLine (line : List Char) : Role :=
  Role.ofTokens (lineTokens line)

/-- The lines that belong to section `s`, where `current` is open in front of the first line. -/
def belonging (s : Section) : (current : Section) → (lines : List (List Char)) → List (List Char)
  | _, [] => []
  | current, line :: rest =>
    match Role.ofLine line with
    | .opens next => belonging s next rest
    | .declares => belonging s current rest
    | .content =>
      if current = s then line :: belonging s current rest else belonging s current rest

def declarations (lines : List (List Char)) : List (List Char) :=
  lines.filter (Role.ofLine · = .declares)

def Section.opening : Section → List Char
  | .code => ".code".toList
  | .data => ".data".toList

/-- The lines of a text, put in order: the declared size of memory if there is one, then the code
section, then the data section. -/
def sortedLines (lines : List (List Char)) : List (List Char) :=
  declarations lines ++
    (Section.code.opening :: belonging .code .code lines) ++
    (Section.data.opening :: belonging .data .code lines)

def inOrder (text : String) : String :=
  String.ofList (['\n'].intercalate (sortedLines (textLines text)))

namespace Progress

/-- What has been read of a section: its items or bytes, and its labels. -/
def part (p : Progress) : Section → List Item × Bytes × List String
  | .code => (p.source.code.map Item.unnumbered, [], p.codeLabels)
  | .data => ([], p.source.data, p.dataLabels)

/-- Reading has added to section `s`, which holds `part` now, and to nothing else. -/
structure Filled (s : Section) (p p' : Progress) (part : List Item × Bytes × List String) : Prop where
  current : p'.current = p.current
  dataSize : p'.source.dataSize = p.source.dataSize
  part_eq : p'.part s = part
  others : ∀ t, t ≠ s → p'.part t = p.part t

theorem filled_code {p p' : Progress} {part : List Item × Bytes × List String}
    (hcurrent : p'.current = p.current) (hsize : p'.source.dataSize = p.source.dataSize)
    (hcode : p'.part .code = part) (hdata : p'.part .data = p.part .data) : Filled .code p p' part where
  current := hcurrent
  dataSize := hsize
  part_eq := hcode
  others t ht := by
    cases t with
    | code => exact absurd rfl ht
    | data => exact hdata

theorem filled_data {p p' : Progress} {part : List Item × Bytes × List String}
    (hcurrent : p'.current = p.current) (hsize : p'.source.dataSize = p.source.dataSize)
    (hdata : p'.part .data = part) (hcode : p'.part .code = p.part .code) : Filled .data p p' part where
  current := hcurrent
  dataSize := hsize
  part_eq := hdata
  others t ht := by
    cases t with
    | code => exact hcode
    | data => exact absurd rfl ht

theorem line_opens {l : Line} {s : Section} (hrole : Role.ofTokens l.tokens = .opens s) (p : Progress) :
    p.line l = .ok { p with current := s } := by
  obtain ⟨number, tokens⟩ := l
  unfold Role.ofTokens at hrole
  split at hrole
  next htokens =>
    obtain rfl := htokens
    obtain rfl := Role.opens.inj hrole
    rfl
  next htokens =>
    obtain rfl := htokens
    obtain rfl := Role.opens.inj hrole
    rfl
  next => cases hrole
  next => cases hrole

theorem directive_declares {p p' : Progress} {n : Nat} {rest : List Token}
    (h : p.directive n "dataSize" rest = .ok p') :
    ∃ size, p' = { p with source := { p.source with dataSize := some size } } ∧
      ∀ q m, q.source.dataSize = p.source.dataSize →
        directive q m "dataSize" rest =
          .ok { q with source := { q.source with dataSize := some size } } := by
  unfold directive at h ⊢
  split at h
  next hname => simp at hname
  next hname => simp at hname
  next text =>
    -- nothing but an earlier declaration stands in the way of this one
    split at h
    next => cases h
    next hnew =>
      split at h
      next value hvalue =>
        refine ⟨UInt32.ofNat value, (Except.ok.inj h).symm, ?_⟩
        intro q m hsize
        rw [hsize]
        exact if_neg hnew
      next => cases h
  next => cases h

theorem line_declares {l : Line} {p p' : Progress} (hrole : Role.ofTokens l.tokens = .declares)
    (h : p.line l = .ok p') :
    ∃ size, p' = { p with source := { p.source with dataSize := some size } } ∧
      ∀ q l', l'.tokens = l.tokens → q.source.dataSize = p.source.dataSize →
        line q l' = .ok { q with source := { q.source with dataSize := some size } } := by
  obtain ⟨number, tokens⟩ := l
  unfold Role.ofTokens at hrole
  split at hrole
  next => cases hrole
  next => cases hrole
  next rest htokens =>
    obtain rfl := htokens
    obtain ⟨size, hp', hq⟩ := directive_declares h
    refine ⟨size, hp', ?_⟩
    rintro q ⟨m, tokens'⟩ rfl hsize
    exact hq q m hsize
  next => cases hrole

/-- A directive that reads without an error opens a section or declares the size of memory. -/
theorem directive_not_content {p p' : Progress} {n : Nat} {name : String} {rest : List Token}
    (h : p.directive n name rest = .ok p') : Role.ofTokens (.directive name :: rest) ≠ .content := by
  unfold directive at h
  split at h
  next => decide
  next => decide
  next => exact Role.noConfusion
  next => cases h

theorem label_content {p p' q : Progress} {n : Nat} (m : Nat) {name : String}
    (h : p.label n name = .ok p') (hcurrent : q.current = p.current)
    (hpart : q.part p.current = p.part p.current) :
    ∃ q', q.label m name = .ok q' ∧ Filled p.current q q' (p'.part p.current) := by
  unfold label at h ⊢
  cases hs : p.current with
  | code =>
    rw [hs] at h hcurrent hpart
    obtain ⟨hcode, -, hlabels⟩ := by simpa only [part, Prod.mk.injEq] using hpart
    simp only at h
    split at h
    next => cases h
    next hnew =>
      obtain rfl := Except.ok.inj h
      simp only [hcurrent, hlabels, if_neg hnew]
      refine ⟨_, rfl, filled_code hcurrent.symm rfl ?_ rfl⟩
      simp [part, hcode, Item.unnumbered]
  | data =>
    rw [hs] at h hcurrent hpart
    obtain ⟨-, hdata, hlabels⟩ := by simpa only [part, Prod.mk.injEq] using hpart
    simp only at h
    split at h
    next => cases h
    next hnew =>
      obtain rfl := Except.ok.inj h
      simp only [hcurrent, hlabels, if_neg hnew]
      refine ⟨_, rfl, filled_data hcurrent.symm rfl ?_ rfl⟩
      simp [part, hdata]

/-- A line that belongs to a section adds the same to that section wherever it is read. -/
theorem line_content {l l' : Line} {p p' q : Progress} (hrole : Role.ofTokens l.tokens = .content)
    (h : p.line l = .ok p') (htokens : l'.tokens = l.tokens) (hcurrent : q.current = p.current)
    (hpart : q.part p.current = p.part p.current) :
    ∃ q', q.line l' = .ok q' ∧ Filled p.current q q' (p'.part p.current) := by
  obtain ⟨n, tokens⟩ := l
  obtain ⟨m, tokens'⟩ := l'
  obtain rfl : tokens' = tokens := htokens
  unfold line at h ⊢
  simp only at h ⊢
  split at h
  next name rest => exact absurd hrole (directive_not_content h)
  next name => exact label_content m h hcurrent hpart
  next =>
    cases hs : p.current with
    | code =>
      rw [hs] at h hpart hcurrent
      simp only [hcurrent]
      obtain ⟨hcode, -, hlabels⟩ := by simpa only [part, Prod.mk.injEq] using hpart
      obtain ⟨i, hi, h⟩ := (Except.bind_eq_ok_iff _ _ _).mp h
      obtain rfl := (Except.pure_eq_ok_iff _ _).mp h
      refine ⟨_, (Except.bind_eq_ok_iff _ _ _).mpr ⟨_, Instruction.parse_renumber m hi, rfl⟩,
        filled_code hcurrent.symm rfl ?_ rfl⟩
      simp [part, hcode, hlabels, Item.unnumbered, Instruction.unnumbered]
    | data =>
      rw [hs] at h hpart hcurrent
      simp only [hcurrent]
      obtain ⟨-, hdata, hlabels⟩ := by simpa only [part, Prod.mk.injEq] using hpart
      obtain ⟨bytes, hbytes, h⟩ := (Except.bind_eq_ok_iff _ _ _).mp h
      obtain rfl := (Except.pure_eq_ok_iff _ _).mp h
      have hbytes' := mapM_eq_ok_of_imp (fun _ _ => dataByte_renumber m) hbytes
      refine ⟨_, (Except.bind_eq_ok_iff _ _ _).mpr ⟨bytes, hbytes', rfl⟩,
        filled_data hcurrent.symm rfl ?_ rfl⟩
      simp [part, hdata, hlabels]

theorem Filled.trans {s : Section} {p q r : Progress} {a b : List Item × Bytes × List String}
    (hpq : Filled s p q a) (hqr : Filled s q r b) : Filled s p r b where
  current := hqr.current.trans hpq.current
  dataSize := hqr.dataSize.trans hpq.dataSize
  part_eq := hqr.part_eq
  others t ht := (hqr.others t ht).trans (hpq.others t ht)

/-- Reads one line of a text; a blank line adds nothing. -/
def readLine (p : Progress) (number : Nat) (text : List Char) : Except Error Progress :=
  (Line.nonempty number (lineTokens text)).foldlM line p

theorem readLine_of_blank {text : List Char} (h : lineTokens text = []) (p : Progress) (number : Nat) :
    p.readLine number text = .ok p := by
  rw [readLine, h]
  rfl

theorem readLine_of_tokens {text : List Char} (h : lineTokens text ≠ []) (p : Progress) (number : Nat) :
    p.readLine number text = p.line ⟨number, lineTokens text⟩ := by
  rw [readLine, Line.nonempty_of_ne_nil number h]
  exact bind_pure _

theorem readLine_eq_ok_cases {text : List Char} {p p' : Progress} {number : Nat}
    (h : p.readLine number text = .ok p') :
    lineTokens text = [] ∧ p' = p ∨
      lineTokens text ≠ [] ∧ p.line ⟨number, lineTokens text⟩ = .ok p' := by
  by_cases htokens : lineTokens text = []
  · rw [readLine_of_blank htokens] at h
    exact .inl ⟨htokens, (Except.ok.inj h).symm⟩
  · rw [readLine_of_tokens htokens] at h
    exact .inr ⟨htokens, h⟩

theorem tokens_ne_nil {text : List Char} (h : Role.ofLine text ≠ .content) : lineTokens text ≠ [] := by
  intro hblank
  rw [Role.ofLine, hblank] at h
  exact h rfl

theorem readLine_opens {text : List Char} {s : Section} (hrole : Role.ofLine text = .opens s)
    (p : Progress) (number : Nat) : p.readLine number text = .ok { p with current := s } := by
  rw [readLine_of_tokens (tokens_ne_nil (by rw [hrole]; exact Role.noConfusion))]
  exact line_opens (l := ⟨number, lineTokens text⟩) hrole p

theorem readLine_declares {text : List Char} {p p' : Progress} {n : Nat}
    (hrole : Role.ofLine text = .declares) (h : p.readLine n text = .ok p') :
    ∃ size, p' = { p with source := { p.source with dataSize := some size } } ∧
      ∀ q m, q.source.dataSize = p.source.dataSize →
        readLine q m text = .ok { q with source := { q.source with dataSize := some size } } := by
  have htokens := tokens_ne_nil (by rw [hrole]; exact Role.noConfusion)
  rw [readLine_of_tokens htokens] at h
  obtain ⟨size, hp', hq⟩ := line_declares (l := ⟨n, lineTokens text⟩) hrole h
  refine ⟨size, hp', ?_⟩
  intro q m hsize
  rw [readLine_of_tokens htokens]
  exact hq q _ rfl hsize

theorem readLine_content {text : List Char} {p p' q : Progress} {n : Nat} (m : Nat)
    (hrole : Role.ofLine text = .content) (h : p.readLine n text = .ok p')
    (hcurrent : q.current = p.current) (hpart : q.part p.current = p.part p.current) :
    ∃ q', q.readLine m text = .ok q' ∧ Filled p.current q q' (p'.part p.current) := by
  rcases readLine_eq_ok_cases h with ⟨htokens, rfl⟩ | ⟨htokens, h⟩
  · rw [readLine_of_blank htokens]
    exact ⟨q, rfl, rfl, rfl, hpart, fun _ _ => rfl⟩
  · rw [readLine_of_tokens htokens]
    exact line_content (l := ⟨n, lineTokens text⟩) hrole h rfl hcurrent hpart

theorem filled_of_readLine {text : List Char} {p p' : Progress} {n : Nat}
    (hrole : Role.ofLine text = .content) (h : p.readLine n text = .ok p') :
    Filled p.current p p' (p'.part p.current) := by
  obtain ⟨p'', hp'', hfilled⟩ := readLine_content n hrole h rfl rfl
  obtain rfl := Except.ok.inj (h.symm.trans hp'')
  exact hfilled

/-- Reads the lines of a text, the first of which has the given number. -/
def read (p : Progress) (number : Nat) (lines : List (List Char)) : Except Error Progress :=
  (numbered number (lines.map lineTokens)).foldlM line p

theorem read_nil_eq_ok_iff (p p' : Progress) (number : Nat) :
    p.read number [] = .ok p' ↔ p = p' :=
  Except.pure_eq_ok_iff p p'

theorem read_cons_eq_ok_iff (p p' : Progress) (number : Nat) (text : List Char)
    (rest : List (List Char)) :
    p.read number (text :: rest) = .ok p' ↔
      ∃ p₁, p.readLine number text = .ok p₁ ∧ p₁.read (number + 1) rest = .ok p' := by
  rw [read, List.map_cons, numbered, List.foldlM_append, Except.bind_eq_ok_iff]
  rfl

theorem read_append_eq_ok_iff (p p' : Progress) (number : Nat) (a b : List (List Char)) :
    p.read number (a ++ b) = .ok p' ↔
      ∃ p₁, p.read number a = .ok p₁ ∧ p₁.read (number + a.length) b = .ok p' := by
  induction a generalizing p number with
  | nil => simp [read_nil_eq_ok_iff]
  | cons text rest ih =>
    simp only [List.cons_append, read_cons_eq_ok_iff, ih, List.length_cons, Nat.add_assoc,
      Nat.add_comm 1]
    constructor
    · rintro ⟨p₁, hp₁, p₂, hp₂, hp'⟩
      exact ⟨p₂, ⟨p₁, hp₁, hp₂⟩, hp'⟩
    · rintro ⟨p₂, ⟨p₁, hp₁, hp₂⟩, hp'⟩
      exact ⟨p₁, hp₁, p₂, hp₂, hp'⟩

theorem belonging_opens {text : List Char} {next : Section} (hrole : Role.ofLine text = .opens next)
    (s current : Section) (rest : List (List Char)) :
    belonging s current (text :: rest) = belonging s next rest := by
  rw [belonging, hrole]

theorem belonging_declares {text : List Char} (hrole : Role.ofLine text = .declares)
    (s current : Section) (rest : List (List Char)) :
    belonging s current (text :: rest) = belonging s current rest := by
  rw [belonging, hrole]

theorem belonging_content {text : List Char} (hrole : Role.ofLine text = .content)
    (s current : Section) (rest : List (List Char)) :
    belonging s current (text :: rest) =
      if current = s then text :: belonging s current rest else belonging s current rest := by
  rw [belonging, hrole]

/-- The lines of one section alone fill it as the whole text does. -/
theorem read_belonging (s : Section) {lines : List (List Char)} {p p' q : Progress} {n : Nat} (m : Nat)
    (h : p.read n lines = .ok p') (hcurrent : q.current = s) (hpart : q.part s = p.part s) :
    ∃ q', q.read m (belonging s p.current lines) = .ok q' ∧ Filled s q q' (p'.part s) := by
  -- `p` reads the whole text and `q` the lines of `s` alone; they agree on `s` all the way
  induction lines generalizing p q n m with
  | nil =>
    obtain rfl := (read_nil_eq_ok_iff _ _ _).mp h
    exact ⟨q, rfl, rfl, rfl, hpart, fun _ _ => rfl⟩
  | cons text rest ih =>
    obtain ⟨p₁, hp₁, hrest⟩ := (read_cons_eq_ok_iff _ _ _ _ _).mp h
    cases hrole : Role.ofLine text with
    | opens next =>
      rw [readLine_opens hrole] at hp₁
      obtain rfl := Except.ok.inj hp₁
      rw [belonging_opens hrole]
      exact ih m hrest hcurrent hpart
    | declares =>
      obtain ⟨size, rfl, -⟩ := readLine_declares hrole hp₁
      rw [belonging_declares hrole]
      exact (ih m hrest hcurrent hpart :)
    | content =>
      have hfilled := filled_of_readLine hrole hp₁
      rw [belonging_content hrole, ← hfilled.current]
      split
      next hs =>
        -- the line is of this section: it is read here as it was read there
        rw [hfilled.current] at hs
        obtain rfl := hs
        obtain ⟨q₁, hq₁, hq₁filled⟩ := readLine_content m hrole hp₁ hcurrent hpart
        obtain ⟨q', hq', hq'filled⟩ :=
          ih (m + 1) hrest (hq₁filled.current.trans hcurrent) hq₁filled.part_eq
        exact ⟨q', (read_cons_eq_ok_iff _ _ _ _ _).mpr ⟨q₁, hq₁, hq'⟩, hq₁filled.trans hq'filled⟩
      next hs =>
        -- the line is of the other section and leaves this one alone
        rw [hfilled.current] at hs
        exact ih m hrest hcurrent (hpart.trans (hfilled.others s (Ne.symm hs)).symm)

/-- The declaration can be read before anything else. -/
theorem read_declarations {lines : List (List Char)} {p p' q : Progress} {n : Nat} (m : Nat)
    (h : p.read n lines = .ok p') (hsize : q.source.dataSize = p.source.dataSize) :
    q.read m (declarations lines) =
      .ok { q with source := { q.source with dataSize := p'.source.dataSize } } := by
  induction lines generalizing p q n m with
  | nil =>
    obtain rfl := (read_nil_eq_ok_iff _ _ _).mp h
    rw [← hsize]
    rfl
  | cons text rest ih =>
    obtain ⟨p₁, hp₁, hrest⟩ := (read_cons_eq_ok_iff _ _ _ _ _).mp h
    cases hrole : Role.ofLine text with
    | opens next =>
      rw [readLine_opens hrole] at hp₁
      obtain rfl := Except.ok.inj hp₁
      rw [declarations, List.filter_cons_of_neg (by simp [hrole])]
      exact ih m hrest hsize
    | declares =>
      obtain ⟨size, rfl, hq⟩ := readLine_declares hrole hp₁
      rw [declarations, List.filter_cons_of_pos (by simp [hrole]), read_cons_eq_ok_iff]
      exact ⟨_, hq q m hsize, ih (m + 1) hrest rfl⟩
    | content =>
      have hfilled := filled_of_readLine hrole hp₁
      rw [declarations, List.filter_cons_of_neg (by simp [hrole])]
      exact ih m hrest (hsize.trans hfilled.dataSize.symm)

theorem role_opening (s : Section) : Role.ofLine s.opening = .opens s := by
  cases s <;> cbv

/-- Putting the lines of a text in order changes neither the declared size nor what the sections hold. -/
theorem read_sortedLines {lines : List (List Char)} {p' : Progress}
    (h : ({} : Progress).read 1 lines = .ok p') :
    ∃ q', ({} : Progress).read 1 (sortedLines lines) = .ok q' ∧
      q'.source.dataSize = p'.source.dataSize ∧ ∀ s, q'.part s = p'.part s := by
  -- the three parts are read one after the other, each as the whole text has read it
  have hdeclared := read_declarations 1 h (q := {}) rfl
  set q₁ : Progress := { source := { dataSize := p'.source.dataSize } }
  obtain ⟨q₂, hq₂, hcode⟩ := read_belonging .code (1 + (declarations lines).length + 1) h
    (q := q₁) rfl rfl
  obtain ⟨q₃, hq₃, hdata⟩ := read_belonging .data
    (1 + (declarations lines ++ Section.code.opening :: belonging .code .code lines).length + 1) h
    (q := { q₂ with current := .data }) rfl (hcode.others .data (by decide))
  refine ⟨q₃, ?_, ?_, ?_⟩
  · rw [sortedLines, read_append_eq_ok_iff]
    refine ⟨q₂, ?_, ?_⟩
    · rw [read_append_eq_ok_iff]
      refine ⟨q₁, hdeclared, ?_⟩
      rw [read_cons_eq_ok_iff]
      exact ⟨q₁, readLine_opens (role_opening .code) _ _, hq₂⟩
    · rw [read_cons_eq_ok_iff]
      exact ⟨_, readLine_opens (role_opening .data) _ _, hq₃⟩
  · exact hdata.dataSize.trans hcode.dataSize
  · intro s
    cases s with
    | code => exact (hdata.others .code (by decide)).trans hcode.part_eq
    | data => exact hdata.part_eq

end Progress

theorem subset_of_mem_belonging (s current : Section) (lines : List (List Char)) :
    ∀ line ∈ belonging s current lines, line ∈ lines := by
  induction lines generalizing current with
  | nil => exact fun _ h => h
  | cons text rest ih =>
    intro line hline
    rw [belonging] at hline
    split at hline
    next next _ => exact List.mem_cons_of_mem _ (ih next line hline)
    next => exact List.mem_cons_of_mem _ (ih current line hline)
    next =>
      split at hline
      next =>
        rcases List.mem_cons.mp hline with rfl | hline
        · exact List.mem_cons_self
        · exact List.mem_cons_of_mem _ (ih current line hline)
      next => exact List.mem_cons_of_mem _ (ih current line hline)

theorem mem_sortedLines {lines : List (List Char)} {line : List Char} (h : line ∈ sortedLines lines) :
    line ∈ lines ∨ ∃ s : Section, line = s.opening := by
  simp only [sortedLines, declarations, List.mem_append, List.mem_cons, List.mem_filter] at h
  rcases h with (⟨h, -⟩ | h | h) | h | h
  · exact .inl h
  · exact .inr ⟨.code, h⟩
  · exact .inl (subset_of_mem_belonging _ _ _ _ h)
  · exact .inr ⟨.data, h⟩
  · exact .inl (subset_of_mem_belonging _ _ _ _ h)

theorem opening_scans (s : Section) : '\n' ∉ s.opening ∧ Scans s.opening := by
  cases s with
  | code => exact ⟨by decide, [⟨0, [.directive "code"]⟩], by cbv⟩
  | data => exact ⟨by decide, [⟨0, [.directive "data"]⟩], by cbv⟩

theorem tokenize_inOrder {text : String} {lines : List Line} (h : tokenize text = .ok lines) :
    tokenize (inOrder text) =
      .ok (numbered 1 ((sortedLines (textLines text)).map lineTokens)) := by
  obtain ⟨hscans, -⟩ := (tokenize_eq_ok_iff text lines).mp h
  rw [tokenize, inOrder, String.toList_ofList, scan_lines_eq_ok_iff 1 (sortedLines (textLines text))]
  · refine ⟨?_, rfl⟩
    intro line hline
    rcases mem_sortedLines hline with hline | ⟨s, rfl⟩
    · exact hscans line hline
    · exact (opening_scans s).2
  · intro line hline
    rcases mem_sortedLines hline with hline | ⟨s, rfl⟩
    · exact notMem_of_mem_splitOn _ _ line hline
    · exact (opening_scans s).1

/-- A text and the same text in order are the same source, up to the numbers of their lines. -/
theorem Source.parse_inOrder {text : String} {source : Source} (h : Source.parse text = .ok source) :
    ∃ sorted, Source.parse (inOrder text) = .ok sorted ∧ sorted.dataSize = source.dataSize ∧
      sorted.code.map Item.unnumbered = source.code.map Item.unnumbered ∧
      sorted.data = source.data := by
  unfold parse at h ⊢
  obtain ⟨lines, hlines, h⟩ := (Except.bind_eq_ok_iff _ _ _).mp h
  obtain ⟨p, hp, h⟩ := (Except.bind_eq_ok_iff _ _ _).mp h
  obtain rfl := (Except.pure_eq_ok_iff _ _).mp h
  obtain ⟨-, rfl⟩ := (tokenize_eq_ok_iff text lines).mp hlines
  obtain ⟨q, hq, hsize, hparts⟩ := Progress.read_sortedLines hp
  obtain ⟨hcode, -, -⟩ := by simpa only [Progress.part, Prod.mk.injEq] using hparts .code
  obtain ⟨-, hdata, -⟩ := by simpa only [Progress.part, Prod.mk.injEq] using hparts .data
  refine ⟨q.source, ?_, hsize, hcode, hdata⟩
  refine (Except.bind_eq_ok_iff _ _ _).mpr ⟨_, tokenize_inOrder hlines, ?_⟩
  exact (Except.bind_eq_ok_iff _ _ _).mpr ⟨q, hq, rfl⟩

/-- The order of sections does not reach the image: a text that assembles can be put in order, and what
it assembles to stays the same. -/
theorem assemble_inOrder {text : String} {a : Assembly} (h : assemble text = .ok a) :
    assemble (inOrder text) = .ok a := by
  unfold assemble at h ⊢
  obtain ⟨source, hsource, h⟩ := (Except.bind_eq_ok_iff _ _ _).mp h
  obtain ⟨code, hcode, h⟩ := (Except.bind_eq_ok_iff _ _ _).mp h
  obtain ⟨sorted, hsorted, hsize, hitems, hdata⟩ := Source.parse_inOrder hsource
  refine (Except.bind_eq_ok_iff _ _ _).mpr ⟨sorted, hsorted, ?_⟩
  refine (Except.bind_eq_ok_iff _ _ _).mpr ⟨code, encode_congr hitems.symm hcode, ?_⟩
  rw [hsize, hdata]
  exact h

def interleaved : String :=
  "jump end # over the data\n.data\n0A\nend: \n.dataSize 16\n0B\n.code\n\nend:\n.data\n0C"

theorem assemble_inOrder_interleaved :
    inOrder interleaved =
        ".dataSize 16\n.code\njump end # over the data\n\nend:\n.data\n0A\nend: \n0B\n0C" ∧
      assemble (inOrder interleaved) =
        .ok { image := Image.make [0x6D, 0x20, 0x00, 0x00, 0x00] [0x0A, 0x0B, 0x0C] 16 } :=
  ⟨by cbv, assemble_inOrder (by cbv)⟩

end Asm

end PrefixVM
