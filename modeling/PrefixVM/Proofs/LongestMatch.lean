import Mathlib.Data.List.TakeWhile
import PrefixVM.Proofs.Lines

/-!
Scanning takes the longest match. The rules say which texts are tokens and which are passed over, without
saying where a piece of a text ends: it ends where no rule takes a longer one. A text is cut into such pieces
from its start, until nothing is left or the next character starts no piece. The tokens of these pieces, cut
at the line feeds, are the lines of the text, and a character that starts no piece is the one reported.
-/
namespace PrefixVM.Asm

/-- The rules of scanning: a text is one token, or one piece that is passed over (`none`). -/
inductive Matches : List Char → Option Token → Prop
  | gap {text : List Char} (hne : text ≠ []) (h : ∀ c ∈ text, isGap c = true) : Matches text none
  | comment {text : List Char} (h : '\n' ∉ text) : Matches ('#' :: text) none
  | word {text : List Char} (h : IsWord text) : Matches text (some (.word (String.ofList text)))
  | directive {c : Char} {rest : List Char} (hc : isNameStart c = true)
    (h : ∀ x ∈ rest, isWordChar x = true) :
    Matches ('.' :: c :: rest) (some (.directive (String.ofList (c :: rest))))
  | comma : Matches [','] (some .comma)
  | colon : Matches [':'] (some .colon)
  | openBracket : Matches ['['] (some .openBracket)
  | closeBracket : Matches [']'] (some .closeBracket)
  | newline : Matches ['\n'] (some .newline)

/-- `piece` is taken from the start of `text`, and no rule takes a longer piece. -/
structure Longest (text piece : List Char) (t : Option Token) : Prop where
  matched : Matches piece t
  start : piece <+: text
  longest : ∀ other u, Matches other u → other <+: text → other.length ≤ piece.length

/-- Cutting `text` into longest pieces gives `tokens`, and ends in front of `left`, which starts no piece. -/
inductive Lexed : (text : List Char) → (tokens : List Token) → (left : List Char) → Prop
  | done : Lexed [] [] []
  | stray (c : Char) (text : List Char) (h : ∀ piece t, Matches piece t → ¬ piece <+: c :: text) :
    Lexed (c :: text) [] (c :: text)
  | skip {piece rest : List Char} {tokens : List Token} {left : List Char}
    (h : Longest (piece ++ rest) piece none) (hrest : Lexed rest tokens left) :
    Lexed (piece ++ rest) tokens left
  | token {piece rest : List Char} {t : Token} {tokens : List Token} {left : List Char}
    (h : Longest (piece ++ rest) piece (some t)) (hrest : Lexed rest tokens left) :
    Lexed (piece ++ rest) (t :: tokens) left

theorem Matches.ne_nil {piece : List Char} {t : Option Token} (h : Matches piece t) : piece ≠ [] := by
  cases h with
  | gap hne => exact hne
  | word h => cases h <;> exact List.cons_ne_nil _ _
  | comment | directive | comma | colon | openBracket | closeBracket | newline =>
    exact List.cons_ne_nil _ _

theorem IsWord.concat {text : List Char} (h : IsWord text) {d : Char} (hd : isWordChar d = true) :
    IsWord (text ++ [d]) := by
  have hall {word : List Char} (hword : ∀ x ∈ word, isWordChar x = true) :
      ∀ x ∈ word ++ [d], isWordChar x = true := by
    intro x hx
    rcases List.mem_append.mp hx with hx | hx
    · exact hword x hx
    · rwa [List.mem_singleton.mp hx]
  cases h with
  | plain c rest h => exact .plain c (rest ++ [d]) (hall h)
  | negative c rest h => exact .negative c (rest ++ [d]) (hall h)

namespace Longest

variable {piece rest : List Char} {t : Option Token}

/-- What follows a longest piece does not make a rule take more. -/
theorem not_matches (h : Longest (piece ++ rest) piece t) {d : Char} (hd : d ∈ rest.head?)
    (u : Option Token) : ¬ Matches (piece ++ [d]) u := by
  intro hlonger
  obtain ⟨more, rfl⟩ : ∃ more, rest = d :: more := by
    cases rest with
    | nil => cases hd
    | cons c more =>
      obtain rfl := Option.some.inj hd
      exact ⟨more, rfl⟩
  have hstart : piece ++ [d] <+: piece ++ d :: more := ⟨more, by simp⟩
  have hle := h.longest _ u hlonger hstart
  rw [List.length_append, List.length_singleton] at hle
  omega

theorem apart (h : Longest (piece ++ rest) piece t)
    (hlonger : ∀ d, isWordChar d = true → ∃ u, Matches (piece ++ [d]) u) : Apart rest := by
  cases rest with
  | nil => trivial
  | cons d more =>
    apply Bool.eq_false_iff.mpr
    intro hd
    obtain ⟨u, hu⟩ := hlonger d hd
    exact h.not_matches rfl u hu

end Longest

theorem Lexeme.first_of_directive {c : Char} {text rest : List Char} (hc : isNameStart c = true)
    (htext : ∀ x ∈ text, isWordChar x = true) (hrest : Apart rest) :
    first '.' (c :: text ++ rest) = .token (.directive (String.ofList (c :: text))) rest := by
  obtain ⟨htake, hdrop⟩ := takeWhile_append_of_stop isWordChar text (head?_of_apart hrest)
  rw [List.takeWhile_eq_self_iff.mpr htext] at htake
  rw [List.dropWhile_eq_nil_iff.mpr htext, List.nil_append] at hdrop
  change marked '.' (c :: (text ++ rest)) = _
  rw [marked, if_neg (by simp), if_pos ⟨rfl, hc⟩, htake, hdrop]

theorem Matches.spells {piece : List Char} {t : Token} (h : Matches piece (some t)) (ht : t ≠ .newline) :
    Spells piece [t] := by
  cases h with
  | word h => exact Spells.word h
  | directive hc h =>
    intro number begun rest hrest
    exact Line.scan_token number begun (Lexeme.first_of_directive hc h hrest) ht
  | comma => exact .cons ',' _ (fun _ => rfl) ht .nil
  | colon => exact .cons ':' _ (fun _ => rfl) ht .nil
  | openBracket => exact .cons '[' _ (fun _ => rfl) ht .nil
  | closeBracket => exact .cons ']' _ (fun _ => rfl) ht .nil
  | newline => exact absurd rfl ht

namespace Line

theorem scan_gaps (number : Nat) (begun : List Token) {gaps : List Char}
    (h : ∀ c ∈ gaps, isGap c = true) (rest : List Char) :
    scan number begun (gaps ++ rest) = scan number begun rest := by
  induction gaps with
  | nil => rfl
  | cons c gaps ih =>
    obtain ⟨hc, hgaps⟩ := List.forall_mem_cons.mp h
    have hfirst : Lexeme.first c (gaps ++ rest) = .skipped (gaps ++ rest) := by
      rw [Lexeme.first, if_pos hc]
    rw [List.cons_append, scan_skipped number begun hfirst, ih hgaps]

theorem scan_comment (number : Nat) (begun : List Token) {text rest : List Char} (htext : '\n' ∉ text)
    (hrest : ∀ d ∈ rest.head?, d = '\n') :
    scan number begun ('#' :: text ++ rest) = scan number begun rest := by
  have hstop : ∀ d ∈ rest.head?, (d != '\n') = false := by
    intro d hd
    rw [hrest d hd]
    rfl
  have hall : ∀ x ∈ text, (x != '\n') = true := by
    intro x hx
    rw [bne_iff_ne]
    rintro rfl
    exact htext hx
  have hfirst : Lexeme.first '#' (text ++ rest) = .skipped rest := by
    change Lexeme.skipped ((text ++ rest).dropWhile (· != '\n')) = _
    rw [(Lexeme.takeWhile_append_of_stop (· != '\n') text hstop).2, List.dropWhile_eq_nil_iff.mpr hall,
      List.nil_append]
  exact scan_skipped number begun hfirst

end Line

namespace Longest

variable {piece rest : List Char}

theorem scan_skip (h : Longest (piece ++ rest) piece none) (number : Nat) (begun : List Token) :
    Line.scan number begun (piece ++ rest) = Line.scan number begun rest := by
  cases h.matched with
  | gap hne hgaps => exact Line.scan_gaps number begun hgaps rest
  | @comment text htext =>
    -- only a line feed keeps the comment from going on
    apply Line.scan_comment number begun htext
    intro d hd
    by_contra hne
    apply h.not_matches hd none
    exact @Matches.comment (text ++ [d]) (by simp [htext, Ne.symm hne])

theorem scan_token {t : Token} (h : Longest (piece ++ rest) piece (some t)) (ht : t ≠ .newline)
    (number : Nat) (begun : List Token) :
    Line.scan number begun (piece ++ rest) = Line.scan number (t :: begun) rest := by
  have hspells := h.matched.spells ht
  cases h.matched with
  | word hword =>
    have hrest : Apart rest := h.apart fun d hd => ⟨_, .word (hword.concat hd)⟩
    exact hspells number begun rest hrest
  | @directive c text hc hall =>
    have hrest : Apart rest := by
      apply h.apart
      intro d hd
      refine ⟨_, @Matches.directive c (text ++ [d]) hc ?_⟩
      simpa [or_imp, forall_and, hd] using hall
    exact hspells number begun rest hrest
  | comma => exact Line.scan_token number begun rfl ht
  | colon => exact Line.scan_token number begun rfl ht
  | openBracket => exact Line.scan_token number begun rfl ht
  | closeBracket => exact Line.scan_token number begun rfl ht
  | newline => exact absurd rfl ht

end Longest

theorem Lexeme.first_eq_stray {c : Char} {text : List Char}
    (h : ∀ piece t, Matches piece t → ¬ piece <+: c :: text) : first c text = .stray := by
  have hone {t : Option Token} (hc : Matches [c] t) : False := h _ t hc ⟨text, rfl⟩
  unfold first
  split_ifs with hgap hhash hfeed hcomma hcolon hopen hclose hword
  · exact (hone (.gap (List.cons_ne_nil _ _) (by simpa using hgap))).elim
  · subst hhash
    exact (hone (.comment List.not_mem_nil)).elim
  · subst hfeed
    exact (hone .newline).elim
  · subst hcomma
    exact (hone .comma).elim
  · subst hcolon
    exact (hone .colon).elim
  · subst hopen
    exact (hone .openBracket).elim
  · subst hclose
    exact (hone .closeBracket).elim
  · exact (hone (.word (.plain c [] (by simpa using hword)))).elim
  · -- a minus sign or a dot needs a second character
    cases text with
    | nil => rfl
    | cons d text =>
      have htwo {t : Option Token} (hcd : Matches [c, d] t) : False := h _ t hcd ⟨text, rfl⟩
      rw [marked]
      split_ifs with hminus hdot
      · obtain ⟨rfl, hd⟩ := hminus
        exact (htwo (.word (.negative d [] (by simpa using hd)))).elim
      · obtain ⟨rfl, hd⟩ := hdot
        exact (htwo (.directive hd (by simp))).elim
      · rfl

/-- Where a rule takes a piece, there is a longest piece. -/
theorem exists_longest {text piece : List Char} {t : Option Token} (h : Matches piece t)
    (hstart : piece <+: text) : ∃ longest u, Longest text longest u := by
  induction hroom : text.length - piece.length using Nat.strongRecOn generalizing piece t with
  | _ room ih =>
    by_cases hlonger : ∃ other u, Matches other u ∧ other <+: text ∧ piece.length < other.length
    · obtain ⟨other, u, hother, hbegins, hlt⟩ := hlonger
      have hle := hbegins.length_le
      exact ih _ (by omega) hother hbegins rfl
    · refine ⟨piece, t, h, hstart, ?_⟩
      intro other u hother hbegins
      by_contra hlt
      exact hlonger ⟨other, u, hother, hbegins, by omega⟩

/-- Every text can be cut into longest pieces, up to the first character that starts none. -/
theorem exists_lexed (text : List Char) : ∃ tokens left, Lexed text tokens left := by
  induction hlength : text.length using Nat.strongRecOn generalizing text with
  | _ length ih =>
    cases text with
    | nil => exact ⟨[], [], .done⟩
    | cons c text =>
      by_cases hstray : ∀ piece t, Matches piece t → ¬ piece <+: c :: text
      · exact ⟨[], c :: text, .stray c text hstray⟩
      · push Not at hstray
        obtain ⟨start, u, hstart, hbegins⟩ := hstray
        obtain ⟨piece, t, hpiece⟩ := exists_longest hstart hbegins
        obtain ⟨rest, hrest⟩ := hpiece.start
        have hpos := List.length_pos_iff.mpr hpiece.matched.ne_nil
        have htotal := congrArg List.length hrest
        rw [List.length_append, hlength] at htotal
        obtain ⟨tokens, left, hlexed⟩ := ih rest.length (by omega) rest rfl
        rw [← hrest] at hpiece ⊢
        cases t with
        | none => exact ⟨tokens, left, .skip hpiece hlexed⟩
        | some t => exact ⟨t :: tokens, left, .token hpiece hlexed⟩

/-- The lines of a text from its tokens and what is left of it, where the first line has the given number
and already starts with `begun`, which lists tokens in reverse. -/
def lexedLines (number : Nat) (begun tokens : List Token) : (left : List Char) → Except Error (List Line)
  | [] => .ok (numbered number ((tokens.splitOn .newline).modifyHead (begun.reverse ++ ·)))
  | c :: _ => .error (.unexpected (number + tokens.count .newline) c.toString)

theorem splitOn_newline_cons (t : Token) (tokens : List Token) :
    (t :: tokens).splitOn .newline =
      if t = .newline then [] :: tokens.splitOn .newline
      else (tokens.splitOn .newline).modifyHead (t :: ·) := by
  rw [List.splitOn_eq_splitOnP, List.splitOnP_cons_eq_if_modifyHead, ← List.splitOn_eq_splitOnP]
  simp only [beq_iff_eq]

theorem lexedLines_cons {t : Token} (ht : t ≠ .newline) (number : Nat) (begun tokens : List Token)
    (left : List Char) :
    lexedLines number begun (t :: tokens) left = lexedLines number (t :: begun) tokens left := by
  cases left with
  | nil =>
    rw [lexedLines, lexedLines, splitOn_newline_cons, if_neg ht, List.modifyHead_modifyHead]
    simp [Function.comp_def]
  | cons c left => rw [lexedLines, lexedLines, List.count_cons_of_ne ht]

theorem lexedLines_nil (number : Nat) (tokens : List Token) :
    lexedLines number [] tokens [] = .ok (numbered number (tokens.splitOn .newline)) := by
  have hfirst (parts : List (List Token)) : parts.modifyHead ([].reverse ++ ·) = parts := by
    cases parts <;> rfl
  rw [lexedLines, hfirst]

theorem lexedLines_newline (number : Nat) (begun tokens : List Token) (left : List Char) :
    lexedLines number begun (.newline :: tokens) left = do
      let lines ← lexedLines (number + 1) [] tokens left
      return Line.nonempty number begun.reverse ++ lines := by
  cases left with
  | nil =>
    rw [lexedLines, lexedLines_nil, splitOn_newline_cons, if_pos rfl, List.modifyHead_cons, numbered,
      List.append_nil]
    rfl
  | cons c left =>
    rw [lexedLines, lexedLines, List.count_cons_self, Nat.add_comm (tokens.count _), ← Nat.add_assoc]
    rfl

/-- Scanning gives the tokens of the longest pieces, line by line. -/
theorem scan_of_lexed {text left : List Char} {tokens : List Token} (h : Lexed text tokens left)
    (number : Nat) (begun : List Token) :
    Line.scan number begun text = lexedLines number begun tokens left := by
  induction h generalizing number begun with
  | done =>
    rw [Line.scan, lexedLines, List.splitOn_nil, List.modifyHead_cons, numbered, numbered,
      List.append_nil, List.append_nil]
  | stray c text hstray => exact Line.scan_stray number begun (Lexeme.first_eq_stray hstray)
  | skip hpiece _ ih => rw [hpiece.scan_skip number begun, ih]
  | @token piece rest t tokens left hpiece _ ih =>
    by_cases ht : t = .newline
    · subst ht
      cases hpiece.matched
      rw [List.singleton_append, Line.scan_newline, ih, lexedLines_newline]
    · rw [hpiece.scan_token ht number begun, ih, lexedLines_cons ht]

/-- A text has lines if it can be cut into longest pieces to its end. -/
theorem tokenize_eq_ok_iff_lexed (text : String) (lines : List Line) :
    tokenize text = .ok lines ↔
      ∃ tokens, Lexed text.toList tokens [] ∧ lines = numbered 1 (tokens.splitOn .newline) := by
  constructor
  · intro h
    obtain ⟨tokens, left, hlexed⟩ := exists_lexed text.toList
    rw [tokenize, scan_of_lexed hlexed] at h
    cases left with
    | nil =>
      rw [lexedLines_nil] at h
      exact ⟨tokens, hlexed, (Except.ok.inj h).symm⟩
    | cons c left => cases h
  · rintro ⟨tokens, hlexed, rfl⟩
    rw [tokenize, scan_of_lexed hlexed, lexedLines_nil]

/-- Otherwise the first character that starts no piece is reported, on its line. -/
theorem tokenize_eq_error_iff_lexed (text : String) (e : Error) :
    tokenize text = .error e ↔
      ∃ tokens c left, Lexed text.toList tokens (c :: left) ∧
        e = .unexpected (1 + tokens.count .newline) c.toString := by
  constructor
  · intro h
    obtain ⟨tokens, left, hlexed⟩ := exists_lexed text.toList
    rw [tokenize, scan_of_lexed hlexed] at h
    cases left with
    | nil => cases h
    | cons c left => exact ⟨tokens, c, left, hlexed, (Except.error.inj h).symm⟩
  · rintro ⟨tokens, c, left, hlexed, rfl⟩
    rw [tokenize, scan_of_lexed hlexed, lexedLines]

/-- A token within a line that can be written: its own text is taken as that token. -/
def Token.Valid (t : Token) : Prop :=
  t ≠ .newline ∧ Matches t.text.toList (some t)

theorem Matches.valid {piece : List Char} {t : Token} (h : Matches piece (some t)) (ht : t ≠ .newline) :
    t.Valid := by
  refine ⟨ht, ?_⟩
  cases h with
  | word h =>
    change Matches (String.ofList piece).toList _
    rw [String.toList_ofList]
    exact .word h
  | @directive c rest hc h =>
    have htext : (Token.directive (String.ofList (c :: rest))).text.toList = '.' :: c :: rest := by
      simp [Token.text]
    rw [htext]
    exact .directive hc h
  | comma => exact .comma
  | colon => exact .colon
  | openBracket => exact .openBracket
  | closeBracket => exact .closeBracket
  | newline => exact absurd rfl ht

theorem Lexed.valid {text left : List Char} {tokens : List Token} (h : Lexed text tokens left) {t : Token}
    (ht : t ∈ tokens) (hne : t ≠ .newline) : t.Valid := by
  induction h with
  | done => cases ht
  | stray => cases ht
  | skip _ _ ih => exact ih ht
  | token hpiece _ ih =>
    rcases List.mem_cons.mp ht with rfl | ht
    · exact hpiece.matched.valid hne
    · exact ih ht

/-- The tokens of a scanned line are valid. -/
theorem valid_of_mem_lines {text : String} {lines : List Line} (h : tokenize text = .ok lines) {l : Line}
    (hl : l ∈ lines) {t : Token} (ht : t ∈ l.tokens) : t.Valid := by
  obtain ⟨tokens, hlexed, rfl⟩ := (tokenize_eq_ok_iff_lexed text lines).mp h
  obtain ⟨k, hk, -, -⟩ := (mem_numbered_iff _ _ l).mp hl
  obtain ⟨hmem, hne⟩ := mem_of_mem_splitOn _ _ l.tokens (List.mem_of_getElem? hk) t ht
  exact hlexed.valid hmem hne

end PrefixVM.Asm
