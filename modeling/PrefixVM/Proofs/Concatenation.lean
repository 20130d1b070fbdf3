import Mathlib
import PrefixVM.Proofs.LongestMatch

/-!
Texts put together. Two texts with a line feed between them have the lines of both, and the second one only
moves down; if one of them cannot be scanned, the first error is that of the whole. Blanks and comments at the
end of a line change nothing, and tokens that are written with blanks between them are scanned as they are.
-/
namespace PrefixVM.Asm

/-- The same error `k` lines further down. -/
def Error.later (k : Nat) : Error → Error
  | .unexpected line text => .unexpected (line + k) text
  | .malformed line message => .malformed (line + k) message
  | .unknownInstruction line mnemonic => .unknownInstruction (line + k) mnemonic
  | .operandCount line mnemonic expected found => .operandCount (line + k) mnemonic expected found
  | .invalidRegister line operand => .invalidRegister (line + k) operand
  | .invalidConstant line text => .invalidConstant (line + k) text
  | .undefinedLabel line label => .undefinedLabel (line + k) label
  | .duplicateLabel line label => .duplicateLabel (line + k) label
  | .invalidDataByte line text => .invalidDataByte (line + k) text
  | .invalidDirective line directive => .invalidDirective (line + k) directive
  | .io reason => .io reason

namespace Line

def later (k : Nat) (l : Line) : Line :=
  { l with number := l.number + k }

/-- The outcome of scanning a text that stands `k` lines further down. -/
def laterAll (k : Nat) : Except Error (List Line) → Except Error (List Line)
  | .ok lines => .ok (lines.map (later k))
  | .error e => .error (e.later k)

theorem map_later_nonempty (k number : Nat) (tokens : List Token) :
    (nonempty number tokens).map (later k) = nonempty (number + k) tokens := by
  cases tokens <;> rfl

/-- Where a text stands shows in the numbers only. -/
theorem scan_add (k number : Nat) (begun : List Token) (text : List Char) :
    scan (number + k) begun text = laterAll k (scan number begun text) := by
  fun_induction scan number begun text with
  | case1 number begun => rw [scan, laterAll, map_later_nonempty]
  | case2 number begun c text hfirst =>
    rw [scan_stray _ begun hfirst]
    rfl
  | case3 number begun c text rest hfirst ih => rw [scan_skipped _ begun hfirst, ih]
  | case4 number begun c text rest hfirst ih =>
    obtain rfl := Lexeme.eq_newline_of_first hfirst
    cases hfirst
    rw [scan_newline, Nat.add_right_comm, ih]
    cases scan (number + 1) [] text with
    | error e => rfl
    | ok lines =>
      have hmap : nonempty (number + k) begun.reverse ++ lines.map (later k) =
          (nonempty number begun.reverse ++ lines).map (later k) := by
        rw [List.map_append, map_later_nonempty]
      exact congrArg Except.ok hmap
  | case5 number begun c text t rest ht hfirst ih => rw [scan_token _ begun hfirst ht, ih]

end Line

/-- What may stand behind the tokens of a line: blanks, tabs and carriage returns, or a comment. -/
inductive Trailing : List Char → Prop
  | gaps {text : List Char} (h : ∀ c ∈ text, isGap c = true) : Trailing text
  | comment {text : List Char} (h : '\n' ∉ text) : Trailing ('#' :: text)

namespace Trailing

variable {tail : List Char}

theorem newline_not_mem (h : Trailing tail) : '\n' ∉ tail := by
  cases h with
  | gaps h => exact fun hmem => absurd (h '\n' hmem) (by decide)
  | comment h => exact List.not_mem_cons_of_ne_of_not_mem (by decide) h

theorem apart (h : Trailing tail) : Apart tail := by
  cases h with
  | comment h => exact show isWordChar '#' = false by decide
  | gaps h =>
    cases tail with
    | nil => trivial
    | cons c rest =>
      have hc : isGap c = true := h c List.mem_cons_self
      rw [isGap, Bool.or_eq_true, Bool.or_eq_true, beq_iff_eq, beq_iff_eq, beq_iff_eq] at hc
      change isWordChar c = false
      rcases hc with (rfl | rfl) | rfl
      · decide
      · decide
      · decide

theorem scan_eq (h : Trailing tail) (number : Nat) (begun : List Token) :
    Line.scan number begun tail = Line.scan number begun [] := by
  cases h with
  | gaps h =>
    have hscan := Line.scan_gaps number begun h []
    rwa [List.append_nil] at hscan
  | @comment text h =>
    have hscan := @Line.scan_comment number begun text [] h (by simp)
    rwa [List.append_nil] at hscan

/-- Scanning ends alike with and without what trails behind a text. -/
theorem scan_append (h : Trailing tail) (number : Nat) (begun : List Token) (text : List Char) :
    Line.scan number begun (text ++ tail) = Line.scan number begun text := by
  fun_induction Line.scan number begun text with
  | case1 number begun =>
    rw [List.nil_append, h.scan_eq, Line.scan]
  | case2 number begun c text hfirst =>
    have hc : c ≠ '#' := by
      rintro rfl
      cases hfirst
    have hstray := Lexeme.first_append c text h.apart fun heq => absurd heq hc
    rw [hfirst] at hstray
    exact Line.scan_stray number begun hstray
  | case3 number begun c text rest hfirst ih =>
    by_cases hc : c = '#'
    · -- the comment takes all of the line, and what trails behind it if this is the last line
      subst hc
      cases hfirst
      have htail : tail.dropWhile (· != '\n') = [] := by
        rw [List.dropWhile_eq_nil_iff]
        intro x hx
        rw [bne_iff_ne]
        rintro rfl
        exact h.newline_not_mem hx
      rw [List.cons_append, Line.scan_skipped number begun rfl, List.dropWhile_append]
      split
      next hlast => rw [htail, List.isEmpty_iff.mp hlast]
      next => exact ih
    · have hskipped := Lexeme.first_append c text h.apart fun heq => absurd heq hc
      rw [hfirst] at hskipped
      rw [List.cons_append, Line.scan_skipped number begun hskipped]
      exact ih
  | case4 number begun c text rest hfirst ih =>
    obtain rfl := Lexeme.eq_newline_of_first hfirst
    cases hfirst
    rw [List.cons_append, Line.scan_newline, ih]
  | case5 number begun c text t rest ht hfirst ih =>
    have hc : c ≠ '#' := by
      rintro rfl
      cases hfirst
    have htoken := Lexeme.first_append c text h.apart fun heq => absurd heq hc
    rw [hfirst] at htoken
    rw [List.cons_append, Line.scan_token number begun htoken ht]
    exact ih

end Trailing

/-- The number of lines that a text in front of another one takes. -/
def lineCount (text : String) : Nat :=
  text.toList.count '\n' + 1

theorem tokenize_append_newline (a b : String) :
    tokenize (a ++ "\n" ++ b) = do
      let first ← tokenize a
      let rest ← Line.laterAll (lineCount a) (tokenize b)
      return first ++ rest := by
  have htext : (a ++ "\n" ++ b).toList = a.toList ++ '\n' :: b.toList := by simp
  rw [tokenize, htext, Line.scan_append_newline, Nat.add_assoc, Line.scan_add]
  rfl

theorem tokenize_append_trailing (before tail after : String) (htail : Trailing tail.toList)
    (hafter : ∀ c ∈ after.toList.head?, c = '\n') :
    tokenize (before ++ tail ++ after) = tokenize (before ++ after) := by
  have hcount : (before.toList ++ tail.toList).count '\n' = before.toList.count '\n' := by
    rw [List.count_append, List.count_eq_zero_of_not_mem htail.newline_not_mem, Nat.add_zero]
  rw [tokenize, tokenize, String.toList_append, String.toList_append, String.toList_append]
  cases hlist : after.toList with
  | nil => rw [List.append_nil, List.append_nil, htail.scan_append]
  | cons c more =>
    rw [hlist] at hafter
    obtain rfl : c = '\n' := hafter c rfl
    rw [Line.scan_append_newline, Line.scan_append_newline, htail.scan_append, hcount]

theorem spells_tokens {tokens : List Token} (h : ∀ t ∈ tokens, t.Valid) :
    Spells ([' '].intercalate (tokens.map fun t => t.text.toList)) tokens := by
  induction tokens with
  | nil => exact .nil
  | cons t rest ih =>
    obtain ⟨⟨hne, hmatch⟩, hrest⟩ := List.forall_mem_cons.mp h
    have ht : Spells t.text.toList [t] := hmatch.spells hne
    cases rest with
    | nil => simpa using ht
    | cons next rest =>
      have hlater := (ih hrest).blank
      rw [List.map_cons, List.map_cons, List.intercalate_cons_cons, List.append_assoc]
      rw [List.map_cons] at hlater
      exact .append (by decide) ht hlater

theorem tokenize_tokens {tokens : List Token} (h : ∀ t ∈ tokens, t.Valid) :
    tokenize (" ".intercalate (tokens.map Token.text)) = .ok (Line.nonempty 1 tokens) := by
  have htext : (" ".intercalate (tokens.map Token.text)).toList =
      [' '].intercalate (tokens.map fun t => t.text.toList) := by
    simp [Function.comp_def]
  have hscan := spells_tokens h 1 [] [] trivial
  rw [List.append_nil, List.append_nil] at hscan
  rw [tokenize, htext, hscan, Line.scan, List.reverse_reverse]

/-- Scanning goes by lines. A text is cut into the longest pieces that the rules take, up to the first
character that starts none. A line feed separates what is scanned in front of it from what is scanned behind
it, what trails behind the tokens of a line does not matter, and tokens with blanks between them are scanned
as one line. -/
theorem tokenize_by_line :
    (∀ (text : String) (lines : List Line), tokenize text = .ok lines ↔
      ∃ tokens, Lexed text.toList tokens [] ∧ lines = numbered 1 (tokens.splitOn .newline)) ∧
    (∀ (text : String) (e : Error), tokenize text = .error e ↔
      ∃ tokens c left, Lexed text.toList tokens (c :: left) ∧
        e = .unexpected (1 + tokens.count .newline) c.toString) ∧
    (∀ a b : String, tokenize (a ++ "\n" ++ b) =
      match tokenize a, tokenize b with
      | .error e, _ => .error e
      | .ok _, .error e => .error (e.later (lineCount a))
      | .ok first, .ok rest => .ok (first ++ rest.map (Line.later (lineCount a)))) ∧
    (∀ before tail after : String, Trailing tail.toList → (∀ c ∈ after.toList.head?, c = '\n') →
      tokenize (before ++ tail ++ after) = tokenize (before ++ after)) ∧
    ∀ tokens : List Token, (∀ t ∈ tokens, t.Valid) →
      tokenize (" ".intercalate (tokens.map Token.text)) = .ok (Line.nonempty 1 tokens) := by
  refine ⟨tokenize_eq_ok_iff_lexed, tokenize_eq_error_iff_lexed, ?_, tokenize_append_trailing,
    fun _ => tokenize_tokens⟩
  intro a b
  rw [tokenize_append_newline]
  cases tokenize a with
  | error e => rfl
  | ok first =>
    cases tokenize b with
    | error e => rfl
    | ok rest => rfl

/-- A text that ends in a comment, and one whose second line ends in a minus sign. -/
theorem tokenize_by_line_danglingSign :
    lineCount "ret\nadd -1 # sum" = 2 ∧ tokenize "hlt\n5 -" = .error (.unexpected 2 "-") ∧
      tokenize ("ret\nadd -1 # sum" ++ "\n" ++ "hlt\n5 -") = .error (.unexpected 4 "-") ∧
      tokenize ("hlt\n5 -" ++ "# -" ++ "") = .error (.unexpected 2 "-") ∧
      tokenize ".data -1 ," = .ok [⟨1, [.directive "data", .word "-1", .comma]⟩] := by
  obtain ⟨-, -, hfeed, htrailing, htokens⟩ := tokenize_by_line
  have hfirst : tokenize "ret\nadd -1 # sum" = .ok [⟨1, [.word "ret"]⟩, ⟨2, [.word "add", .word "-1"]⟩] := by
    cbv
  have hsecond : tokenize "hlt\n5 -" = .error (.unexpected 2 "-") := by
    cbv
  refine ⟨by decide, hsecond, ?_, ?_, ?_⟩
  · rw [hfeed, hfirst, hsecond]
    rfl
  · have htail : Trailing "# -".toList := @Trailing.comment " -".toList (by decide)
    rw [htrailing "hlt\n5 -" "# -" "" htail (by simp)]
    exact hsecond
  · have hdata : Token.Valid (.directive "data") :=
      (@Matches.directive 'd' "ata".toList rfl (List.all_eq_true.mp rfl)).valid (by decide)
    have hword : Token.Valid (.word "-1") :=
      (Matches.word (.negative '1' [] (List.all_eq_true.mp rfl))).valid (by decide)
    have hcomma : Token.Valid .comma := Matches.comma.valid (by decide)
    exact htokens [.directive "data", .word "-1", .comma] (by simp [hdata, hword, hcomma])

end PrefixVM.Asm
