import Mathlib.Data.List.Forall2
import PrefixVM.Asm.Token

/-!
Scanning of written tokens. A text spells some tokens if scanning it, in front of anything that does not go
on with a word, adds these tokens to the line. Spellings are put together piece by piece, so that what is
printed can be followed through the scanner.
-/
namespace PrefixVM.Asm

/-- A text that does not start with a character of a word. -/
def Apart : List Char → Prop
  | [] => True
  | c :: _ => isWordChar c = false

/-- A non-empty sequence of word characters, with or without a minus sign. -/
inductive IsWord : List Char → Prop
  | plain (c : Char) (rest : List Char) (h : ∀ x ∈ c :: rest, isWordChar x = true) : IsWord (c :: rest)
  | negative (c : Char) (rest : List Char) (h : ∀ x ∈ c :: rest, isWordChar x = true) :
    IsWord ('-' :: c :: rest)

namespace Lexeme

theorem first_of_isWordChar {c : Char} (hc : isWordChar c = true) (rest : List Char) :
    first c rest = word [c] rest := by
  -- `c` is none of the characters that are asked for first
  have hne (d : Char) (hd : isWordChar d = false) : c ≠ d := by
    rintro rfl
    rw [hc] at hd
    cases hd
  have hgap : isGap c = false := by
    simp only [isGap, Bool.or_eq_false_iff, beq_eq_false_iff_ne]
    exact ⟨⟨hne _ (by decide), hne _ (by decide)⟩, hne _ (by decide)⟩
  rw [first, if_neg (by rw [hgap]; decide), if_neg (hne _ (by decide)), if_neg (hne _ (by decide)),
    if_neg (hne _ (by decide)), if_neg (hne _ (by decide)), if_neg (hne _ (by decide)),
    if_neg (hne _ (by decide)), if_pos hc]

theorem word_append (start : List Char) {text rest : List Char}
    (htext : ∀ x ∈ text, isWordChar x = true) (hrest : Apart rest) :
    word start (text ++ rest) = .token (.word (String.ofList (start ++ text))) rest := by
  have hstop : rest.takeWhile isWordChar = [] ∧ rest.dropWhile isWordChar = rest := by
    cases rest with
    | nil => exact ⟨rfl, rfl⟩
    | cons c rest =>
      have hc : ¬ isWordChar c = true := by
        rw [show isWordChar c = false from hrest]
        decide
      exact ⟨List.takeWhile_cons_of_neg hc, List.dropWhile_cons_of_neg hc⟩
  rw [word, List.takeWhile_append_of_pos htext, List.dropWhile_append_of_pos htext, hstop.1, hstop.2,
    List.append_nil]

theorem first_of_isWord {c : Char} {text rest : List Char} (h : IsWord (c :: text)) (hrest : Apart rest) :
    first c (text ++ rest) = .token (.word (String.ofList (c :: text))) rest := by
  cases h with
  | plain _ _ h =>
    obtain ⟨hc, htext⟩ := List.forall_mem_cons.mp h
    rw [first_of_isWordChar hc, word_append _ htext hrest]
    rfl
  | negative d text h =>
    obtain ⟨hd, htext⟩ := List.forall_mem_cons.mp h
    change marked '-' (d :: (text ++ rest)) = _
    rw [marked, if_pos ⟨rfl, hd⟩, word_append _ htext hrest]
    rfl

end Lexeme

namespace Line

theorem scan_token {c : Char} {text rest : List Char} {t : Token} (number : Nat) (begun : List Token)
    (h : Lexeme.first c text = .token t rest) (ht : t ≠ .newline) :
    scan number begun (c :: text) = scan number (t :: begun) rest := by
  rw [scan]
  split
  next heq => rw [h] at heq; cases heq
  next heq => rw [h] at heq; cases heq
  next heq =>
    rw [h] at heq
    exact absurd (Lexeme.token.inj heq).1 ht
  next heq =>
    rw [h] at heq
    obtain ⟨rfl, rfl⟩ := Lexeme.token.inj heq
    rfl

theorem scan_skipped {c : Char} {text rest : List Char} (number : Nat) (begun : List Token)
    (h : Lexeme.first c text = .skipped rest) :
    scan number begun (c :: text) = scan number begun rest := by
  rw [scan]
  split <;> rename_i heq <;> rw [h] at heq <;> cases heq
  rfl

theorem scan_newline (number : Nat) (begun : List Token) (text : List Char) :
    scan number begun ('\n' :: text) = do
      let lines ← scan (number + 1) [] text
      return nonempty number begun.reverse ++ lines := by
  have h : Lexeme.first '\n' text = .token .newline text := rfl
  rw [scan]
  split <;> rename_i heq <;> rw [h] at heq <;> cases heq
  · rfl
  · simp_all

theorem nonempty_of_ne_nil (number : Nat) {tokens : List Token} (h : tokens ≠ []) :
    nonempty number tokens = [⟨number, tokens⟩] := by
  cases tokens with
  | nil => exact absurd rfl h
  | cons t ts => rfl

end Line

/-- Scanning the text adds the tokens to a line, in front of anything that does not go on with a word. -/
def Spells (text : List Char) (tokens : List Token) : Prop :=
  ∀ number begun rest, Apart rest →
    Line.scan number begun (text ++ rest) = Line.scan number (tokens.reverse ++ begun) rest

namespace Spells

theorem nil : Spells [] [] := fun _ _ _ _ => rfl

theorem word {text : List Char} (h : IsWord text) : Spells text [.word (String.ofList text)] := by
  intro number begun rest hrest
  obtain ⟨c, text, rfl⟩ : ∃ c more, text = c :: more := by cases h <;> exact ⟨_, _, rfl⟩
  exact Line.scan_token number begun (Lexeme.first_of_isWord h hrest) (by simp)

theorem cons {text : List Char} {tokens : List Token} (c : Char) (t : Token)
    (h : ∀ rest, Lexeme.first c rest = .token t rest) (ht : t ≠ .newline) (htext : Spells text tokens) :
    Spells (c :: text) (t :: tokens) := by
  intro number begun rest hrest
  rw [List.cons_append, Line.scan_token number begun (h _) ht, htext number _ rest hrest,
    List.reverse_cons, List.append_assoc]
  rfl

theorem blank {text : List Char} {tokens : List Token} (htext : Spells text tokens) :
    Spells (' ' :: text) tokens := by
  intro number begun rest hrest
  rw [List.cons_append, Line.scan_skipped number begun rfl, htext number begun rest hrest]

theorem append {a b : List Char} {s t : List Token} {c : Char} (hc : isWordChar c = false)
    (ha : Spells a s) (hb : Spells (c :: b) t) : Spells (a ++ c :: b) (s ++ t) := by
  intro number begun rest hrest
  have hapart : Apart (c :: b ++ rest) := hc
  rw [List.append_assoc, ha number begun _ hapart, hb number _ rest hrest, List.reverse_append,
    List.append_assoc]

theorem intercalate {texts : List (List Char)} {parts : List (List Token)}
    (h : List.Forall₂ Spells texts parts) :
    Spells ([',', ' '].intercalate texts) ([Token.comma].intercalate parts) := by
  induction h with
  | nil => exact nil
  | @cons text part texts parts hhead htail ih =>
    cases htail with
    | nil => simpa only [List.intercalate_singleton] using hhead
    | cons =>
      rw [List.intercalate_cons_cons, List.intercalate_cons_cons, List.append_assoc, List.append_assoc]
      exact append (by decide) hhead (cons ',' .comma (fun _ => rfl) (by decide) ih.blank)

end Spells

def linesFrom : (number : Nat) → List (List Token) → List Line
  | _, [] => []
  | number, tokens :: rest => ⟨number, tokens⟩ :: linesFrom (number + 1) rest

/-- A text is scanned line by line. -/
theorem scan_intercalate (number : Nat) {texts : List (List Char)} {lines : List (List Token)}
    (h : List.Forall₂ Spells texts lines) (hlines : ∀ tokens ∈ lines, tokens ≠ []) :
    Line.scan number [] (['\n'].intercalate texts) = .ok (linesFrom number lines) := by
  induction h generalizing number with
  | nil =>
    rw [List.intercalate_nil, Line.scan]
    rfl
  | @cons text tokens texts lines hhead htail ih =>
    obtain ⟨htokens, hrest⟩ := List.forall_mem_cons.mp hlines
    have hline := Line.nonempty_of_ne_nil number htokens
    cases htail with
    | nil =>
      have hscan := hhead number [] [] trivial
      rw [List.append_nil, List.append_nil] at hscan
      rw [List.intercalate_singleton, hscan, Line.scan, List.reverse_reverse, hline]
      rfl
    | @cons text' _ texts _ =>
      have hapart : Apart ('\n' :: ['\n'].intercalate (text' :: texts)) :=
        show isWordChar '\n' = false by decide
      rw [List.intercalate_cons_cons, List.append_assoc]
      change Line.scan number [] (text ++ '\n' :: ['\n'].intercalate (text' :: texts)) = _
      rw [hhead number [] _ hapart, Line.scan_newline, ih _ hrest, List.append_nil,
        List.reverse_reverse, hline]
      rfl

end PrefixVM.Asm
