import Mathlib
import PrefixVM.Proofs.References
import PrefixVM.Proofs.Sections

/-!
Which line an error names. A text is scanned to its end before any of its lines is read, and read to its end
before any label is resolved. Each of these passes stops at the first line that it cannot take: the lines
above it pass, the text up to that line fails in the same way, and the line itself shows the reason, which is
a character that starts no token, tokens that cannot be read where they stand, or a reference to a label
that no line of the code section defines.
-/
namespace PrefixVM

theorem Except.bind_eq_error_iff {ε α β : Type} (x : Except ε α) (f : α → Except ε β) (e : ε) :
    (x >>= f) = .error e ↔ x = .error e ∨ ∃ a, x = .ok a ∧ f a = .error e := by
  cases x <;> simp [bind, Except.bind]

/-- A loop fails at the first element that it cannot take. -/
theorem foldlM_eq_error {ε α β : Type} {f : β → α → Except ε β} {l : List α} {b : β} {e : ε}
    (h : l.foldlM f b = .error e) :
    ∃ before a after c, l = before ++ a :: after ∧ before.foldlM f b = .ok c ∧ f c a = .error e := by
  induction l generalizing b with
  | nil => cases h
  | cons a rest ih =>
    rw [List.foldlM_cons, Except.bind_eq_error_iff] at h
    rcases h with ha | ⟨c, ha, hrest⟩
    · exact ⟨[], a, rest, b, rfl, rfl, ha⟩
    · obtain ⟨before, a', after, d, rfl, hbefore, ha'⟩ := ih hrest
      refine ⟨a :: before, a', after, d, rfl, ?_, ha'⟩
      rw [List.foldlM_cons, Except.bind_eq_ok_iff]
      exact ⟨c, ha, hbefore⟩

namespace Asm

section Scanning

theorem Line.scan_eq_error {number : Nat} {begun : List Token} {line : List Char} {e : Error}
    (hline : '\n' ∉ line) (h : scan number begun line = .error e) :
    ∃ c ∈ line, e = .unexpected number c.toString := by
  -- what is left behind a lexeme is part of the line
  have hrest {c d : Char} {text : List Char} (hd : d ∈ (Lexeme.first c text).rest) : d ∈ c :: text :=
    List.mem_cons_of_mem c ((Lexeme.rest_first_suffix c text).subset hd)
  fun_induction scan number begun line with
  | case1 => cases h
  | case2 number begun c text => exact ⟨c, List.mem_cons_self, (Except.error.inj h).symm⟩
  | case3 number begun c text rest hfirst ih =>
    have hnewline := newline_notMem_rest hline
    rw [hfirst] at hnewline
    obtain ⟨d, hd, he⟩ := ih hnewline h
    exact ⟨d, hrest (by rw [hfirst]; exact hd), he⟩
  | case4 number begun c text rest hfirst =>
    rw [Lexeme.eq_newline_of_first hfirst] at hline
    exact absurd List.mem_cons_self hline
  | case5 number begun c text t rest ht hfirst ih =>
    have hnewline := newline_notMem_rest hline
    rw [hfirst] at hnewline
    obtain ⟨d, hd, he⟩ := ih hnewline h
    exact ⟨d, hrest (by rw [hfirst]; exact hd), he⟩

/-- Scanning fails on the first line that cannot be scanned. -/
theorem scan_lines_eq_error_iff (number : Nat) (texts : List (List Char))
    (htexts : ∀ line ∈ texts, '\n' ∉ line) (e : Error) :
    Line.scan number [] (['\n'].intercalate texts) = .error e ↔
      ∃ k line, texts[k]? = some line ∧ (∀ earlier ∈ texts.take k, Scans earlier) ∧
        Line.scan (number + k) [] line = .error e := by
  induction texts generalizing number with
  | nil =>
    rw [List.intercalate_nil, Line.scan]
    simp
  | cons line rest ih =>
    obtain ⟨hline, hrest⟩ := List.forall_mem_cons.mp htexts
    -- the first line fails, or it passes and a later one fails
    have hsplit : Line.scan number [] (['\n'].intercalate (line :: rest)) = .error e ↔
        Line.scan number [] line = .error e ∨
          Scans line ∧ Line.scan (number + 1) [] (['\n'].intercalate rest) = .error e := by
      cases rest with
      | nil =>
        rw [List.intercalate_singleton, List.intercalate_nil, Line.scan]
        simp
      | cons next rest =>
        rw [List.intercalate_cons_cons, List.append_assoc, List.singleton_append,
          Line.scan_append_newline, List.count_eq_zero_of_not_mem hline, Nat.add_zero]
        simp only [Except.bind_eq_error_iff, scan_line_eq_ok_iff hline]
        constructor
        · rintro (h | ⟨_, ⟨hscans, -⟩, h | ⟨_, -, h⟩⟩)
          · exact .inl h
          · exact .inr ⟨hscans, h⟩
          · cases h
        · rintro (h | ⟨hscans, h⟩)
          · exact .inl h
          · exact .inr ⟨_, ⟨hscans, rfl⟩, .inl h⟩
    have hnumber (k : Nat) : number + 1 + k = number + (k + 1) := by omega
    rw [hsplit, ih (number + 1) hrest]
    constructor
    · rintro (h | ⟨hscans, k, line', hk, hearlier, h⟩)
      · exact ⟨0, line, rfl, by simp, h⟩
      · rw [hnumber] at h
        exact ⟨k + 1, line', hk, List.forall_mem_cons.mpr ⟨hscans, hearlier⟩, h⟩
    · rintro ⟨k, line', hk, hearlier, h⟩
      cases k with
      | zero =>
        obtain rfl := Option.some.inj hk
        exact .inl h
      | succ k =>
        obtain ⟨hscans, hearlier⟩ := List.forall_mem_cons.mp hearlier
        rw [← hnumber] at h
        exact .inr ⟨hscans, k, line', hk, hearlier, h⟩

/-- The first `k` lines of a text. -/
def firstLines (text : String) (k : Nat) : String :=
  String.ofList (['\n'].intercalate ((textLines text).take k))

theorem tokenize_firstLines (text : String) (k : Nat) :
    tokenize (firstLines text k) = Line.scan 1 [] (['\n'].intercalate ((textLines text).take k)) := by
  rw [tokenize, firstLines, String.toList_ofList]

theorem newline_not_mem_textLines (text : String) : ∀ line ∈ textLines text, '\n' ∉ line :=
  notMem_of_mem_splitOn _ _

theorem newline_not_mem_take (text : String) (k : Nat) : ∀ line ∈ (textLines text).take k, '\n' ∉ line :=
  fun line hline => newline_not_mem_textLines text line (List.mem_of_mem_take hline)

theorem tokenize_firstLines_eq_ok {text : String} {k : Nat}
    (h : ∀ line ∈ (textLines text).take k, Scans line) :
    tokenize (firstLines text k) = .ok (numbered 1 (((textLines text).take k).map lineTokens)) := by
  rw [tokenize_firstLines, scan_lines_eq_ok_iff 1 _ (newline_not_mem_take text k)]
  exact ⟨h, rfl⟩

/-- If a text cannot be scanned, then this shows on the line that the error names and no sooner. -/
theorem tokenize_eq_error {text : String} {e : Error} (h : tokenize text = .error e) :
    ∃ k line c, (textLines text)[k]? = some line ∧ c ∈ line ∧ e = .unexpected (k + 1) c.toString ∧
      (∃ lines, tokenize (firstLines text k) = .ok lines) ∧
      tokenize (firstLines text (k + 1)) = .error e := by
  have htext : ['\n'].intercalate (textLines text) = text.toList := List.intercalate_splitOn '\n'
  rw [tokenize, ← htext, scan_lines_eq_error_iff 1 _ (newline_not_mem_textLines text)] at h
  obtain ⟨k, line, hk, hearlier, h⟩ := h
  have hline := newline_not_mem_textLines text line (List.mem_of_getElem? hk)
  obtain ⟨c, hc, he⟩ := Line.scan_eq_error hline h
  refine ⟨k, line, c, hk, hc, by rw [he, Nat.add_comm], ⟨_, tokenize_firstLines_eq_ok hearlier⟩, ?_⟩
  rw [tokenize_firstLines, scan_lines_eq_error_iff 1 _ (newline_not_mem_take text (k + 1))]
  refine ⟨k, line, ?_, ?_, h⟩
  · rw [List.getElem?_take_of_lt (Nat.lt_succ_self k)]
    exact hk
  · rw [List.take_take, Nat.min_eq_left (Nat.le_succ k)]
    exact hearlier

end Scanning

section Reading

/-- Whether an error arises when the lines of a scanned text are read. -/
def Error.isReading : Error → Bool
  | .unexpected _ _ | .undefinedLabel _ _ | .io _ => false
  | _ => true

/-- Whatever error the computation ends in, it is one of reading, on line `n`. -/
def FailsAt {α : Type} (n : Nat) (x : Except Error α) : Prop :=
  ∀ e, x = .error e → e.line? = some n ∧ e.isReading = true

namespace FailsAt

variable {α β : Type} {n : Nat}

theorem ok (a : α) : FailsAt n (.ok a) := by
  intro e h
  cases h

theorem error {e : Error} (h : e.line? = some n ∧ e.isReading = true) :
    FailsAt n (.error e : Except Error α) := by
  intro e' h'
  cases h'
  exact h

theorem bind {x : Except Error α} {f : α → Except Error β} (hx : FailsAt n x) (hf : ∀ a, FailsAt n (f a)) :
    FailsAt n (x >>= f) := by
  intro e h
  rcases (Except.bind_eq_error_iff x f e).mp h with h | ⟨a, -, h⟩
  · exact hx e h
  · exact hf a e h

theorem mapM {f : α → Except Error β} (hf : ∀ a, FailsAt n (f a)) (l : List α) : FailsAt n (l.mapM f) := by
  induction l with
  | nil => exact ok []
  | cons a rest ih =>
    rw [List.mapM_cons]
    exact (hf a).bind fun b => ih.bind fun bs => ok (b :: bs)

end FailsAt

namespace Instruction

variable (n : Nat)

theorem register_failsAt (text : String) : FailsAt n (register n text) := by
  unfold register
  split
  · exact .ok _
  · exact .error ⟨rfl, rfl⟩

theorem parseTarget_failsAt (tokens : List Token) : FailsAt n (parseTarget n tokens) := by
  unfold parseTarget
  split
  · split
    · split
      · exact .ok _
      · exact .error ⟨rfl, rfl⟩
    · split
      · exact .ok _
      · exact .error ⟨rfl, rfl⟩
  · exact .error ⟨rfl, rfl⟩

theorem parseConstant_failsAt (tokens : List Token) : FailsAt n (parseConstant n tokens) := by
  unfold parseConstant
  split
  · split
    · exact .ok _
    · exact .error ⟨rfl, rfl⟩
  · exact .error ⟨rfl, rfl⟩

theorem parseOperand_failsAt (tokens : List Token) : FailsAt n (parseOperand n tokens) := by
  unfold parseOperand
  split
  · exact (register_failsAt n _).bind fun i => .ok _
  · split
    next => exact (register_failsAt n _).bind fun i => .ok _
    next => exact .error ⟨rfl, rfl⟩
  · exact .error ⟨rfl, rfl⟩

theorem takeTarget_failsAt (op : Opcode) (operands : List (List Token)) :
    FailsAt n (takeTarget n op operands) := by
  unfold takeTarget
  split
  · exact (parseTarget_failsAt n _).bind fun t => .ok _
  · exact .ok _

theorem takeConstant_failsAt (op : Opcode) (operands : List (List Token)) :
    FailsAt n (takeConstant n op operands) := by
  unfold takeConstant
  split
  · exact (parseConstant_failsAt n _).bind fun c => .ok _
  · exact .ok _

theorem parse_failsAt (tokens : List Token) : FailsAt n (parse n tokens) := by
  unfold parse
  split
  · split
    · dsimp only
      split
      · exact .error ⟨rfl, rfl⟩
      · exact (takeTarget_failsAt n _ _).bind fun _ => (takeConstant_failsAt n _ _).bind fun _ =>
          (FailsAt.mapM (parseOperand_failsAt n) _).bind fun _ => .ok _
    · exact .error ⟨rfl, rfl⟩
  · exact .error ⟨rfl, rfl⟩

end Instruction

namespace Progress

theorem directive_failsAt (p : Progress) (n : Nat) (name : String) (rest : List Token) :
    FailsAt n (p.directive n name rest) := by
  unfold directive
  split
  · exact .ok _
  · exact .ok _
  · split
    · exact .error ⟨rfl, rfl⟩
    · split
      · exact .ok _
      · exact .error ⟨rfl, rfl⟩
  · exact .error ⟨rfl, rfl⟩

theorem label_failsAt (p : Progress) (n : Nat) (name : String) : FailsAt n (p.label n name) := by
  unfold label
  split
  all_goals
    split
    · exact .error ⟨rfl, rfl⟩
    · exact .ok _

theorem dataByte_failsAt (n : Nat) (t : Token) : FailsAt n (dataByte n t) := by
  unfold dataByte
  dsimp only
  split
  · exact .ok _
  · exact .error ⟨rfl, rfl⟩

/-- Reading a line fails on that line. -/
theorem line_failsAt (p : Progress) (l : Line) : FailsAt l.number (p.line l) := by
  unfold line
  split
  · exact p.directive_failsAt _ _ _
  · exact p.label_failsAt _ _
  · split
    · exact (Instruction.parse_failsAt _ _).bind fun i => .ok _
    · exact (FailsAt.mapM (dataByte_failsAt _) _).bind fun bytes => .ok _

end Progress

/-- The lines of a text up to one that is not blank are those of the text up to there. -/
theorem numbered_eq_append {number : Nat} {lines : List (List Token)} {before after : List Line} {l : Line}
    (h : numbered number lines = before ++ l :: after) :
    ∃ k, lines[k]? = some l.tokens ∧ l.number = number + k ∧ l.tokens ≠ [] ∧
      numbered number (lines.take k) = before ∧ numbered number (lines.take (k + 1)) = before ++ [l] := by
  induction lines generalizing number before with
  | nil => simp [numbered] at h
  | cons tokens rest ih =>
    cases tokens with
    | nil =>
      obtain ⟨k, hk, hnumber, htokens, hbefore, hlast⟩ := ih h
      exact ⟨k + 1, hk, by omega, htokens, hbefore, hlast⟩
    | cons t ts =>
      cases before with
      | nil =>
        obtain ⟨rfl, -⟩ := List.cons.inj h
        exact ⟨0, rfl, rfl, List.cons_ne_nil t ts, rfl, rfl⟩
      | cons first before =>
        obtain ⟨rfl, hrest⟩ := List.cons.inj h
        obtain ⟨k, hk, hnumber, htokens, hbefore, hlast⟩ := ih hrest
        exact ⟨k + 1, hk, by omega, htokens, congrArg (_ :: ·) hbefore, congrArg (_ :: ·) hlast⟩

/-- If a scanned text cannot be read, then this shows on the line that the error names and no sooner. -/
theorem foldlM_line_eq_error {text : String} {lines : List Line} {e : Error}
    (hlines : tokenize text = .ok lines) (h : lines.foldlM Progress.line {} = .error e) :
    ∃ k line, (textLines text)[k]? = some line ∧ lineTokens line ≠ [] ∧ e.line? = some (k + 1) ∧
      e.isReading = true ∧ (∃ source, Source.parse (firstLines text k) = .ok source) ∧
      Source.parse (firstLines text (k + 1)) = .error e := by
  obtain ⟨hscans, rfl⟩ := (tokenize_eq_ok_iff text lines).mp hlines
  obtain ⟨before, l, after, p, hsplit, hp, hl⟩ := foldlM_eq_error h
  obtain ⟨k, hk, hnumber, htokens, hbefore, hlast⟩ := numbered_eq_append hsplit
  obtain ⟨line, hline, hlineTokens⟩ := by simpa only [List.getElem?_map, Option.map_eq_some_iff] using hk
  obtain ⟨hnamed, hreading⟩ := p.line_failsAt l e hl
  have hread (m : Nat) : tokenize (firstLines text m) =
      .ok (numbered 1 (((textLines text).map lineTokens).take m)) := by
    rw [← List.map_take]
    exact tokenize_firstLines_eq_ok fun line hmem => hscans line (List.mem_of_mem_take hmem)
  refine ⟨k, line, hline, by rwa [hlineTokens], by rw [hnamed, hnumber, Nat.add_comm], hreading, ?_, ?_⟩
  · refine ⟨p.source, (Except.bind_eq_ok_iff _ _ _).mpr ⟨_, hread k, ?_⟩⟩
    rw [hbefore, hp]
    rfl
  · refine (Except.bind_eq_error_iff _ _ _).mpr (.inr ⟨_, hread (k + 1), ?_⟩)
    rw [hlast, List.foldlM_append, hp]
    change ((p.line l >>= pure) >>= _) = _
    rw [hl]
    rfl

end Reading

section Resolving

/-- Some line of the code section defines the label `name`. -/
def DefinesLabel (text name : String) : Prop :=
  ∃ line ∈ belonging .code .code (textLines text), lineTokens line = [.word name, .colon]

namespace Progress

theorem labelNames_label {p p' : Progress} {n : Nat} {name : String} (h : p.label n name = .ok p') :
    labelNames p'.source.code =
      labelNames p.source.code ++ if p.current = .code then [name] else [] := by
  unfold label at h
  split at h
  next hcurrent =>
    split_ifs at h
    obtain rfl := Except.ok.inj h
    rw [if_pos hcurrent]
    exact List.filterMap_append
  next hcurrent =>
    split_ifs at h
    obtain rfl := Except.ok.inj h
    rw [if_neg (by rw [hcurrent]; decide), List.append_nil]

/-- A line that belongs to the code section defines a label if it is a word and a colon. -/
theorem mem_labelNames_line {p p' : Progress} {l : Line} (hrole : Role.ofTokens l.tokens = .content)
    (h : p.line l = .ok p') (name : String) :
    name ∈ labelNames p'.source.code ↔
      name ∈ labelNames p.source.code ∨ p.current = .code ∧ l.tokens = [.word name, .colon] := by
  unfold line at h
  split at h
  next other rest htokens =>
    rw [htokens] at hrole
    exact absurd hrole (directive_not_content h)
  next other htokens =>
    rw [labelNames_label h, List.mem_append, htokens]
    split_ifs with hcode
    · simp [hcode, eq_comm]
    · simp [hcode]
  next hother =>
    -- an instruction or data is no label, and adds none
    have hne : l.tokens ≠ [.word name, .colon] := hother name
    have hsame : labelNames p'.source.code = labelNames p.source.code := by
      split at h
      next =>
        obtain ⟨i, -, h⟩ := (Except.bind_eq_ok_iff _ _ _).mp h
        obtain rfl := (Except.pure_eq_ok_iff _ _).mp h
        simp [labelNames, Item.label?]
      next =>
        obtain ⟨bytes, -, h⟩ := (Except.bind_eq_ok_iff _ _ _).mp h
        obtain rfl := (Except.pure_eq_ok_iff _ _).mp h
        rfl
    rw [hsame]
    simp [hne]

theorem mem_labelNames_readLine {p p' : Progress} {n : Nat} {text : List Char}
    (hrole : Role.ofLine text = .content) (h : p.readLine n text = .ok p') (name : String) :
    name ∈ labelNames p'.source.code ↔
      name ∈ labelNames p.source.code ∨ p.current = .code ∧ lineTokens text = [.word name, .colon] := by
  rcases readLine_eq_ok_cases h with ⟨htokens, rfl⟩ | ⟨-, h⟩
  · simp [htokens]
  · exact mem_labelNames_line (l := ⟨n, lineTokens text⟩) hrole h name

/-- The labels of the code are those that the lines of the code section define. -/
theorem mem_labelNames_read {p p' : Progress} {n : Nat} {lines : List (List Char)}
    (h : p.read n lines = .ok p') (name : String) :
    name ∈ labelNames p'.source.code ↔ name ∈ labelNames p.source.code ∨
      ∃ line ∈ belonging .code p.current lines, lineTokens line = [.word name, .colon] := by
  induction lines generalizing p n with
  | nil =>
    obtain rfl := (read_nil_eq_ok_iff _ _ _).mp h
    simp [belonging]
  | cons text rest ih =>
    obtain ⟨p₁, hp₁, hrest⟩ := (read_cons_eq_ok_iff _ _ _ _ _).mp h
    cases hrole : Role.ofLine text with
    | opens next =>
      rw [readLine_opens hrole] at hp₁
      obtain rfl := Except.ok.inj hp₁
      rw [belonging_opens hrole]
      exact ih hrest
    | declares =>
      obtain ⟨size, rfl, -⟩ := readLine_declares hrole hp₁
      rw [belonging_declares hrole]
      exact (ih hrest :)
    | content =>
      have hcurrent := (filled_of_readLine hrole hp₁).current
      rw [ih hrest, mem_labelNames_readLine hrole hp₁, belonging_content hrole, hcurrent, or_assoc]
      split_ifs with hcode
      · simp [hcode]
      · simp [hcode]

/-- The instructions read so far stand above line `n`, each one below those before it. -/
structure Ordered (p : Progress) (n : Nat) : Prop where
  increasing : (instructions p.source.code).Pairwise fun i j => i.line < j.line
  above : ∀ i ∈ instructions p.source.code, i.line < n

theorem Ordered.readLine {p p' : Progress} {n : Nat} {text : List Char} (hp : p.Ordered n)
    (h : p.readLine n text = .ok p') : p'.Ordered (n + 1) := by
  have hadded : instructions p'.source.code = instructions p.source.code ∨
      ∃ i, i.line = n ∧ instructions p'.source.code = instructions p.source.code ++ [i] := by
    rcases readLine_eq_ok_cases h with ⟨-, rfl⟩ | ⟨-, h⟩
    · exact .inl rfl
    · apply (instructions_line h).imp_right
      rintro ⟨i, hi, heq⟩
      exact ⟨i, Instruction.line_of_parse hi, heq⟩
  rcases hadded with heq | ⟨i, rfl, heq⟩
  · refine ⟨by rw [heq]; exact hp.increasing, ?_⟩
    intro j hj
    rw [heq] at hj
    exact Nat.lt_succ_of_lt (hp.above j hj)
  · refine ⟨?_, ?_⟩
    · rw [heq, List.pairwise_append]
      refine ⟨hp.increasing, List.pairwise_singleton _ _, ?_⟩
      intro j hj k hk
      obtain rfl := List.mem_singleton.mp hk
      exact hp.above j hj
    · intro j hj
      rw [heq, List.mem_append, List.mem_singleton] at hj
      rcases hj with hj | rfl
      · exact Nat.lt_succ_of_lt (hp.above j hj)
      · exact Nat.lt_succ_self _

theorem Ordered.read {p p' : Progress} {n : Nat} {lines : List (List Char)} (hp : p.Ordered n)
    (h : p.read n lines = .ok p') : p'.Ordered (n + lines.length) := by
  induction lines generalizing p n with
  | nil =>
    obtain rfl := (read_nil_eq_ok_iff _ _ _).mp h
    exact hp
  | cons text rest ih =>
    obtain ⟨p₁, hp₁, hrest⟩ := (read_cons_eq_ok_iff _ _ _ _ _).mp h
    have hordered := ih (hp.readLine hp₁) hrest
    rwa [Nat.add_right_comm] at hordered

end Progress

namespace Source

variable {text : String} {source : Source}

theorem exists_read (h : parse text = .ok source) :
    ∃ p, ({} : Progress).read 1 (textLines text) = .ok p ∧ p.source = source := by
  obtain ⟨lines, hlines, hread⟩ := (Except.bind_eq_ok_iff _ _ _).mp h
  obtain ⟨p, hp, hsource⟩ := (Except.bind_eq_ok_iff _ _ _).mp hread
  obtain ⟨-, rfl⟩ := (tokenize_eq_ok_iff text lines).mp hlines
  exact ⟨p, hp, (Except.pure_eq_ok_iff _ _).mp hsource⟩

theorem definesLabel_iff (h : parse text = .ok source) (name : String) :
    DefinesLabel text name ↔ name ∈ labelNames source.code := by
  obtain ⟨p, hp, rfl⟩ := exists_read h
  rw [Progress.mem_labelNames_read hp]
  simp [DefinesLabel, labelNames]

theorem increasing_lines (h : parse text = .ok source) :
    (instructions source.code).Pairwise fun i j => i.line < j.line := by
  obtain ⟨p, hp, rfl⟩ := exists_read h
  have hstart : ({} : Progress).Ordered 1 := ⟨List.Pairwise.nil, by simp [instructions]⟩
  exact (hstart.read hp).increasing

/-- An instruction of a source, and the line of the text that it is written on. -/
theorem exists_textLine (h : parse text = .ok source) {i : Instruction}
    (hi : i ∈ instructions source.code) :
    ∃ k line, (textLines text)[k]? = some line ∧ i.line = k + 1 ∧
      Instruction.parse (k + 1) (lineTokens line) = .ok i := by
  obtain ⟨lines, hlines, -⟩ := (Except.bind_eq_ok_iff _ _ _).mp h
  obtain ⟨l, hl, hparse⟩ := exists_line hlines h hi
  obtain ⟨-, rfl⟩ := (tokenize_eq_ok_iff text lines).mp hlines
  obtain ⟨k, hk, hnumber, -⟩ := (mem_numbered_iff _ _ l).mp hl
  obtain ⟨line, hline, htokens⟩ := by simpa only [List.getElem?_map, Option.map_eq_some_iff] using hk
  rw [hnumber, Nat.add_comm, ← htokens] at hparse
  exact ⟨k, line, hline, Instruction.line_of_parse hparse, hparse⟩

end Source

namespace Instruction

variable {i : Instruction} {labels : Labels}

theorem resolve_eq_error {e : Error} (h : i.resolve labels = .error e) :
    ∃ name, i.target = some (.label name) ∧ labels.find? name = none ∧
      e = .undefinedLabel i.line name := by
  unfold resolve at h
  split at h
  next => cases h
  next name _ htarget =>
    split at h
    next => cases h
    next hnone => exact ⟨name, htarget, hnone, (Except.error.inj h).symm⟩
  next => cases h

end Instruction

/-- Encoding fails on the first instruction whose label is not defined. -/
theorem encode_eq_error {items : List Item} {e : Error} (h : encode items = .error e) :
    ∃ before i after, instructions items = before ++ i :: after ∧
      (∀ j ∈ before, ∃ address, j.resolve (Labels.ofItems 0 items) = .ok address) ∧
      i.resolve (Labels.ofItems 0 items) = .error e := by
  unfold encode at h
  rcases (Except.bind_eq_error_iff _ _ _).mp h with h | ⟨w, -, h⟩
  · obtain ⟨before, item, after, w, hitems, hbefore, hitem⟩ := foldlM_eq_error h
    obtain ⟨hresolved, -⟩ := (writeItems_eq_ok_iff _ _ _ _).mp hbefore
    cases item with
    | label line name => cases hitem
    | instruction i =>
      refine ⟨instructions before, i, instructions after, ?_, hresolved, ?_⟩
      · rw [hitems, instructions_append, instructions_instruction]
      · rcases (Except.bind_eq_error_iff _ _ _).mp hitem with hitem | ⟨address, -, hitem⟩
        · exact hitem
        · cases hitem
  · cases h

/-- If a source cannot be encoded, then the first instruction with a label that is not defined shows it. -/
theorem Source.encode_eq_error {text : String} {source : Source} {e : Error}
    (hsource : parse text = .ok source) (h : encode source.code = .error e) :
    ∃ i ∈ instructions source.code, ∃ name, i.target = some (.label name) ∧
      e = .undefinedLabel i.line name ∧ ¬ DefinesLabel text name ∧
      ∀ j ∈ instructions source.code, j.line < i.line →
        ∀ other, j.target = some (.label other) → DefinesLabel text other := by
  obtain ⟨before, i, after, hsplit, hresolved, hi⟩ := Asm.encode_eq_error h
  obtain ⟨name, htarget, hnone, he⟩ := Instruction.resolve_eq_error hi
  refine ⟨i, by simp [hsplit], name, htarget, he, ?_, ?_⟩
  · rw [definesLabel_iff hsource]
    exact Labels.not_mem_labelNames hnone
  · intro j hj hline other hother
    -- lines increase, so that `j` has been encoded already
    have hbefore : j ∈ before := by
      have hincreasing := increasing_lines hsource
      rw [hsplit, List.pairwise_append, List.pairwise_cons] at hincreasing
      obtain ⟨-, ⟨hafter, -⟩, -⟩ := hincreasing
      rw [hsplit, List.mem_append, List.mem_cons] at hj
      rcases hj with hj | rfl | hj
      · exact hj
      · exact absurd hline (Nat.lt_irrefl _)
      · exact absurd hline (Nat.lt_asymm (hafter j hj))
    have hop : j.opcode.hasAddress = true := by
      rw [← ((parse_wellFormed hsource).instructions j hj).target, hother]
      rfl
    obtain ⟨address, haddress⟩ := hresolved j hbefore
    have hfound := Instruction.find?_of_resolve hop hother haddress
    rw [definesLabel_iff hsource]
    by_contra hundefined
    rw [Labels.find?_ofItems_eq_none hundefined] at hfound
    cases hfound

end Resolving

/-- What an error says of the line that it names, which is line `n` of the text. -/
inductive Explains (text : String) (n : Nat) (line : List Char) : Error → Prop
  /-- The lines above can be scanned, and a character of this one starts no token. -/
  | scanning (c : Char) (hc : c ∈ line) (habove : ∃ lines, tokenize (firstLines text (n - 1)) = .ok lines)
    (hfails : tokenize (firstLines text n) = .error (.unexpected n c.toString)) :
    Explains text n line (.unexpected n c.toString)
  /-- All lines can be scanned and those above can be read, and this one, which is not blank, cannot. -/
  | reading {e : Error} (hnamed : e.line? = some n) (hreading : e.isReading = true)
    (hscanned : ∃ lines, tokenize text = .ok lines)
    (habove : ∃ source, Source.parse (firstLines text (n - 1)) = .ok source)
    (hfails : Source.parse (firstLines text n) = .error e) (hnotBlank : lineTokens line ≠ []) :
    Explains text n line e
  /-- All lines can be read, and the instruction on this one is the first that refers to a label which no
  line of the code section defines. -/
  | resolving {source : Source} {i : Instruction} {name : String}
    (hread : Source.parse text = .ok source) (hi : i ∈ instructions source.code)
    (hwritten : Instruction.parse n (lineTokens line) = .ok i) (htarget : i.target = some (.label name))
    (hundefined : ¬ DefinesLabel text name)
    (habove : ∀ j ∈ instructions source.code, j.line < n →
      ∀ other, j.target = some (.label other) → DefinesLabel text other) :
    Explains text n line (.undefinedLabel n name)

theorem assemble_eq_error {text : String} {e : Error} (h : assemble text = .error e) :
    Source.parse text = .error e ∨
      ∃ source, Source.parse text = .ok source ∧ encode source.code = .error e := by
  unfold assemble at h
  rcases (Except.bind_eq_error_iff _ _ _).mp h with h | ⟨source, hsource, h⟩
  · exact .inl h
  · rcases (Except.bind_eq_error_iff _ _ _).mp h with h | ⟨code, -, h⟩
    · exact .inr ⟨source, hsource, h⟩
    · -- with its code, an image can always be made
      dsimp only at h
      split at h
      next => split at h <;> cases h
      next => cases h

theorem Source.parse_eq_error {text : String} {e : Error} (h : parse text = .error e) :
    tokenize text = .error e ∨
      ∃ lines, tokenize text = .ok lines ∧ lines.foldlM Progress.line {} = .error e := by
  rcases (Except.bind_eq_error_iff _ _ _).mp h with h | ⟨lines, hlines, h⟩
  · exact .inl h
  · rcases (Except.bind_eq_error_iff _ _ _).mp h with h | ⟨p, -, h⟩
    · exact .inr ⟨lines, hlines, h⟩
    · cases h

/-- An error of the assembler names a line of the text, which is the first one that the failing pass cannot
take. -/
theorem explains_of_assemble_eq_error {text : String} {e : Error} (h : assemble text = .error e) :
    ∃ n line, e.line? = some n ∧ 1 ≤ n ∧ n ≤ (textLines text).length ∧
      (textLines text)[n - 1]? = some line ∧ Explains text n line e := by
  have hplace {k : Nat} {line : List Char} (hk : (textLines text)[k]? = some line) :
      1 ≤ k + 1 ∧ k + 1 ≤ (textLines text).length :=
    ⟨Nat.le_add_left 1 k, (List.getElem?_eq_some_iff.mp hk).1⟩
  rcases assemble_eq_error h with h | ⟨source, hsource, h⟩
  · rcases Source.parse_eq_error h with h | ⟨lines, hlines, h⟩
    · obtain ⟨k, line, c, hk, hc, rfl, habove, hfails⟩ := tokenize_eq_error h
      exact ⟨k + 1, line, rfl, (hplace hk).1, (hplace hk).2, hk, .scanning c hc habove hfails⟩
    · obtain ⟨k, line, hk, hnotBlank, hnamed, hreading, habove, hfails⟩ := foldlM_line_eq_error hlines h
      exact ⟨k + 1, line, hnamed, (hplace hk).1, (hplace hk).2, hk,
        .reading hnamed hreading ⟨lines, hlines⟩ habove hfails hnotBlank⟩
  · obtain ⟨i, hi, name, htarget, rfl, hundefined, habove⟩ := Source.encode_eq_error hsource h
    obtain ⟨k, line, hk, hline, hwritten⟩ := Source.exists_textLine hsource hi
    rw [hline] at habove ⊢
    exact ⟨k + 1, line, rfl, (hplace hk).1, (hplace hk).2, hk,
      .resolving hsource hi hwritten htarget hundefined habove⟩

/-- A source in which a label of the data section has the name of a reference. -/
def dataLabel : String :=
  "start:\n.data\nend: # not in the code\n.code\njump start\njump end\njump elsewhere"

theorem explains_of_assemble_eq_error_dataLabel :
    assemble dataLabel = .error (.undefinedLabel 6 "end") ∧
      (textLines dataLabel)[5]? = some "jump end".toList ∧
      Explains dataLabel 6 "jump end".toList (.undefinedLabel 6 "end") := by
  have h : assemble dataLabel = .error (.undefinedLabel 6 "end") := by
    cbv
  have hline : (textLines dataLabel)[5]? = some "jump end".toList := by
    cbv
  obtain ⟨n, line, hn, -, -, hn', hexplains⟩ := explains_of_assemble_eq_error h
  obtain rfl : 6 = n := Option.some.inj hn
  obtain rfl : "jump end".toList = line := Option.some.inj (hline.symm.trans hn')
  exact ⟨h, hline, hexplains⟩

end Asm

end PrefixVM
