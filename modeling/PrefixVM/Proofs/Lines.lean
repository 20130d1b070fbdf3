import PrefixVM.Proofs.Grammar
import PrefixVM.Proofs.Scanning

/-!
Scanning line by line. No token and no comment reaches over a line feed, so the lines of a text are scanned
independently of each other: a text has tokens exactly if each of its lines has, and they are the tokens of
these lines, numbered from the first line on.
-/
namespace PrefixVM.Asm

namespace Lexeme

/-- The lexeme at the start of a text that goes on behind it. -/
def followedBy (more : List Char) : Lexeme → Lexeme
  | skipped rest => .skipped (rest ++ more)
  | token t rest => .token t (rest ++ more)
  | stray => .stray

theorem takeWhile_append_of_stop (p : Char → Bool) (text : List Char) {more : List Char}
    (hmore : ∀ c ∈ more.head?, p c = false) :
    (text ++ more).takeWhile p = text.takeWhile p ∧
      (text ++ more).dropWhile p = text.dropWhile p ++ more := by
  induction text with
  | nil =>
    cases more with
    | nil => simp
    | cons c more => simp [hmore c rfl]
  | cons d text ih =>
    cases hd : p d with
    | true => simp [hd, ih]
    | false => simp [hd]

theorem head?_of_apart {more : List Char} (h : Apart more) : ∀ c ∈ more.head?, isWordChar c = false := by
  cases more with
  | nil => simp
  | cons c more =>
    intro d hd
    obtain rfl := Option.some.inj hd
    exact h

theorem word_append_apart (start text : List Char) {more : List Char} (hmore : Apart more) :
    word start (text ++ more) = (word start text).followedBy more := by
  obtain ⟨htake, hdrop⟩ := takeWhile_append_of_stop isWordChar text (head?_of_apart hmore)
  rw [word, htake, hdrop, word, followedBy]

theorem marked_append_apart (c : Char) (text : List Char) {more : List Char} (hmore : Apart more) :
    marked c (text ++ more) = (marked c text).followedBy more := by
  cases text with
  | nil =>
    cases more with
    | nil => rfl
    | cons d more =>
      have hword : isWordChar d = false := hmore
      have hname : isNameStart d = false := (Bool.or_eq_false_iff.mp hword).1
      simp [marked, followedBy, hword, hname]
  | cons d text =>
    obtain ⟨htake, hdrop⟩ := takeWhile_append_of_stop isWordChar text (head?_of_apart hmore)
    rw [List.cons_append, marked, marked]
    split
    next => exact word_append_apart _ _ hmore
    next =>
      split
      next => rw [htake, hdrop, followedBy]
      next => rfl

/-- What stands at the start of a text does not depend on what follows, if this does not go on with a word
and, behind a comment, is a new line. -/
theorem first_append (c : Char) (text : List Char) {more : List Char} (hmore : Apart more)
    (hcomment : c = '#' → ∀ d ∈ more.head?, d = '\n') :
    first c (text ++ more) = (first c text).followedBy more := by
  unfold first
  split
  · rfl
  split
  next hc =>
    have hstop : ∀ d ∈ more.head?, (d != '\n') = false := by
      intro d hd
      rw [hcomment hc d hd]
      rfl
    rw [(takeWhile_append_of_stop (· != '\n') text hstop).2, followedBy]
  iterate 5 (split; · rfl)
  split
  · exact word_append_apart [c] text hmore
  · exact marked_append_apart c text hmore

theorem first_append_newline (c : Char) (text more : List Char) :
    first c (text ++ '\n' :: more) = (first c text).followedBy ('\n' :: more) := by
  have hmore : Apart ('\n' :: more) := show isWordChar '\n' = false by decide
  exact first_append c text hmore fun _ d hd => (Option.some.inj hd).symm

theorem count_dropWhile (p : Char → Bool) {c : Char} (hc : p c = false) (text : List Char) :
    (text.dropWhile p).count c = text.count c := by
  induction text with
  | nil => rfl
  | cons d text ih =>
    cases hd : p d with
    | false => rw [List.dropWhile_cons_of_neg (by simp [hd])]
    | true =>
      have hne : d ≠ c := by
        rintro rfl
        rw [hc] at hd
        cases hd
      rw [List.dropWhile_cons_of_pos hd, ih, List.count_cons_of_ne hne]

theorem count_rest_marked {c : Char} {text : List Char} (h : marked c text ≠ .stray) :
    (marked c text).rest.count '\n' = text.count '\n' := by
  match text with
  | [] => exact absurd rfl h
  | d :: more =>
    have hdrop := count_dropWhile isWordChar (c := '\n') (by decide) more
    have hne (hd : isWordChar d = true) : d ≠ '\n' := by
      rintro rfl
      exact absurd hd (by decide)
    simp only [marked] at h ⊢
    split at h
    next hword =>
      rw [if_pos hword, List.count_cons_of_ne (hne hword.2)]
      exact hdrop
    next hword =>
      rw [if_neg hword]
      split at h
      next hname =>
        have hd : isWordChar d = true := by rw [isWordChar, hname.2, Bool.true_or]
        rw [if_pos hname, List.count_cons_of_ne (hne hd)]
        exact hdrop
      next => exact absurd rfl h

/-- No token but the line feed itself takes a line feed, and neither does a comment. -/
theorem count_rest_first {c : Char} (hc : c ≠ '\n') {text : List Char} (h : first c text ≠ .stray) :
    (first c text).rest.count '\n' = (c :: text).count '\n' := by
  rw [List.count_cons_of_ne hc]
  unfold first at h ⊢
  have hcomment := count_dropWhile (· != '\n') (c := '\n') (by decide) text
  have hword := count_dropWhile isWordChar (c := '\n') (by decide) text
  split_ifs at h ⊢
  · rfl
  · exact hcomment
  iterate 4 (· rfl)
  · exact hword
  · exact count_rest_marked h

theorem rest_word_suffix (start text : List Char) : (word start text).rest <:+ text :=
  List.dropWhile_suffix isWordChar

theorem rest_marked_suffix (c : Char) (text : List Char) : (marked c text).rest <:+ text := by
  match text with
  | [] => exact List.suffix_refl _
  | d :: more =>
    have hdrop : more.dropWhile isWordChar <:+ d :: more :=
      (List.dropWhile_suffix isWordChar).trans (List.suffix_cons d more)
    simp only [marked]
    split
    · exact hdrop
    · split
      · exact hdrop
      · exact List.nil_suffix

theorem rest_first_suffix (c : Char) (text : List Char) : (first c text).rest <:+ text := by
  have hcomment : text.dropWhile (· != '\n') <:+ text := List.dropWhile_suffix _
  unfold first
  iterate 7 (split; · first | exact List.suffix_refl _ | exact hcomment)
  split
  · exact rest_word_suffix [c] text
  · exact rest_marked_suffix c text

theorem eq_newline_of_first {c : Char} {text rest : List Char} (h : first c text = .token .newline rest) :
    c = '\n' := by
  by_contra hc
  unfold first word at h
  rw [if_neg hc] at h
  iterate 7 (split at h; · simp at h)
  unfold marked word at h
  split at h
  · cases h
  · split at h
    · simp at h
    · split at h <;> simp at h

end Lexeme

namespace Line

theorem newline_notMem_rest {c : Char} {text : List Char} (h : '\n' ∉ c :: text) :
    '\n' ∉ (Lexeme.first c text).rest := fun hmem =>
  h (List.mem_cons_of_mem c ((Lexeme.rest_first_suffix c text).subset hmem))

theorem scan_stray {c : Char} {text : List Char} (number : Nat) (begun : List Token)
    (h : Lexeme.first c text = .stray) :
    scan number begun (c :: text) = .error (.unexpected number c.toString) := by
  rw [scan]
  split <;> rename_i heq <;> rw [h] at heq <;> cases heq

/-- Scanning a line: its tokens do not depend on its number. -/
theorem scan_line {number : Nat} {begun : List Token} {text : List Char} {lines : List Line}
    (htext : '\n' ∉ text) (h : scan number begun text = .ok lines) :
    ∃ tokens, lines = nonempty number tokens ∧
      ∀ m, scan m begun text = .ok (nonempty m tokens) := by
  fun_induction scan number begun text generalizing lines with
  | case1 number begun =>
    refine ⟨begun.reverse, (Except.ok.inj h).symm, ?_⟩
    intro m
    rw [scan]
  | case2 => cases h
  | case3 number begun c text rest hfirst ih =>
    have hrest := newline_notMem_rest htext
    rw [hfirst] at hrest
    obtain ⟨tokens, hlines, hscan⟩ := ih hrest h
    refine ⟨tokens, hlines, ?_⟩
    intro m
    rw [scan_skipped m begun hfirst, hscan]
  | case4 number begun c text rest hfirst =>
    rw [Lexeme.eq_newline_of_first hfirst] at htext
    exact absurd List.mem_cons_self htext
  | case5 number begun c text t rest ht hfirst ih =>
    have hrest := newline_notMem_rest htext
    rw [hfirst] at hrest
    obtain ⟨tokens, hlines, hscan⟩ := ih hrest h
    refine ⟨tokens, hlines, ?_⟩
    intro m
    rw [scan_token m begun hfirst ht, hscan]

/-- A line feed ends a line, and what follows is scanned on its own, from the next number on. -/
theorem scan_append_newline (number : Nat) (begun : List Token) (text more : List Char) :
    scan number begun (text ++ '\n' :: more) = do
      let first ← scan number begun text
      let rest ← scan (number + text.count '\n' + 1) [] more
      return first ++ rest := by
  fun_induction scan number begun text with
  | case1 number begun => exact scan_newline number begun more
  | case2 number begun c text hfirst =>
    have hstray := Lexeme.first_append_newline c text more
    rw [hfirst] at hstray
    exact scan_stray number begun hstray
  | case3 number begun c text rest hfirst ih =>
    have hskipped := Lexeme.first_append_newline c text more
    have hc : c ≠ '\n' := by
      rintro rfl
      cases hfirst
    have hcount := Lexeme.count_rest_first hc (by rw [hfirst]; simp)
    rw [hfirst] at hskipped hcount
    rw [List.cons_append, scan_skipped number begun hskipped, ← hcount]
    exact ih
  | case4 number begun c text rest hfirst ih =>
    obtain rfl := Lexeme.eq_newline_of_first hfirst
    cases hfirst
    have hnumber : number + 1 + text.count '\n' + 1 = number + (text.count '\n' + 1) + 1 := by omega
    rw [List.cons_append, scan_newline, ih, List.count_cons_self, hnumber]
    simp only [bind_assoc, pure_bind, List.append_assoc]
  | case5 number begun c text t rest ht hfirst ih =>
    have htoken := Lexeme.first_append_newline c text more
    have hc : c ≠ '\n' := by
      rintro rfl
      cases hfirst
      exact ht rfl
    have hcount := Lexeme.count_rest_first hc (by rw [hfirst]; simp)
    rw [hfirst] at htoken hcount
    rw [List.cons_append, scan_token number begun htoken ht, ← hcount]
    exact ih

end Line

/-- A line whose characters all belong to tokens, gaps or a comment. -/
def Scans (line : List Char) : Prop :=
  ∃ lines, Line.scan 0 [] line = .ok lines

def lineTokens (line : List Char) : List Token :=
  match Line.scan 0 [] line with
  | .ok lines => lines.flatMap Line.tokens
  | .error _ => []

/-- The lines with the given tokens that are not blank, numbered from the first one on. -/
def numbered : (number : Nat) → List (List Token) → List Line
  | _, [] => []
  | number, tokens :: rest => Line.nonempty number tokens ++ numbered (number + 1) rest

theorem mem_nonempty_iff (number : Nat) (tokens : List Token) (l : Line) :
    l ∈ Line.nonempty number tokens ↔ tokens ≠ [] ∧ l = ⟨number, tokens⟩ := by
  cases tokens <;> simp [Line.nonempty]

theorem mem_numbered_iff (number : Nat) (lines : List (List Token)) (l : Line) :
    l ∈ numbered number lines ↔
      ∃ k, lines[k]? = some l.tokens ∧ l.number = number + k ∧ l.tokens ≠ [] := by
  induction lines generalizing number with
  | nil => simp [numbered]
  | cons tokens rest ih =>
    rw [numbered, List.mem_append, mem_nonempty_iff, ih]
    constructor
    · rintro (⟨htokens, rfl⟩ | ⟨k, hk, hnumber, htokens⟩)
      · exact ⟨0, rfl, rfl, htokens⟩
      · exact ⟨k + 1, hk, by omega, htokens⟩
    · rintro ⟨k, hk, hnumber, htokens⟩
      cases k with
      | zero =>
        obtain rfl : tokens = l.tokens := Option.some.inj hk
        left
        exact ⟨htokens, congrArg (Line.mk · l.tokens) hnumber⟩
      | succ k =>
        right
        exact ⟨k, hk, by omega, htokens⟩

theorem flatMap_tokens_nonempty (number : Nat) (tokens : List Token) :
    (Line.nonempty number tokens).flatMap Line.tokens = tokens := by
  cases tokens <;> simp [Line.nonempty]

theorem scan_line_eq_ok_iff {line : List Char} (hline : '\n' ∉ line) (number : Nat)
    (lines : List Line) :
    Line.scan number [] line = .ok lines ↔
      Scans line ∧ lines = Line.nonempty number (lineTokens line) := by
  constructor
  · intro h
    obtain ⟨tokens, rfl, hscan⟩ := Line.scan_line hline h
    refine ⟨⟨_, hscan 0⟩, ?_⟩
    rw [lineTokens, hscan 0]
    exact congrArg _ (flatMap_tokens_nonempty 0 tokens).symm
  · rintro ⟨⟨lines₀, h⟩, rfl⟩
    obtain ⟨tokens, rfl, hscan⟩ := Line.scan_line hline h
    rw [lineTokens, h, hscan number]
    exact congrArg (fun ts => Except.ok (Line.nonempty number ts)) (flatMap_tokens_nonempty 0 tokens).symm

/-- A text is scanned line by line: it has tokens exactly if each of its lines has. -/
theorem scan_lines_eq_ok_iff (number : Nat) (texts : List (List Char))
    (htexts : ∀ line ∈ texts, '\n' ∉ line) (lines : List Line) :
    Line.scan number [] (['\n'].intercalate texts) = .ok lines ↔
      (∀ line ∈ texts, Scans line) ∧ lines = numbered number (texts.map lineTokens) := by
  induction texts generalizing number lines with
  | nil =>
    rw [List.intercalate_nil, Line.scan]
    simp [Line.nonempty, numbered, eq_comm]
  | cons line rest ih =>
    obtain ⟨hline, hrest⟩ := List.forall_mem_cons.mp htexts
    rw [List.forall_mem_cons, List.map_cons, numbered]
    cases rest with
    | nil =>
      rw [List.intercalate_singleton, scan_line_eq_ok_iff hline]
      simp [numbered]
    | cons next rest =>
      rw [List.intercalate_cons_cons, List.append_assoc, List.singleton_append,
        Line.scan_append_newline, List.count_eq_zero_of_not_mem hline, Nat.add_zero]
      simp only [Except.bind_eq_ok_iff, Except.pure_eq_ok_iff, scan_line_eq_ok_iff hline,
        ih (number + 1) hrest]
      constructor
      · rintro ⟨_, ⟨hscans, rfl⟩, _, ⟨hall, rfl⟩, rfl⟩
        exact ⟨⟨hscans, hall⟩, rfl⟩
      · rintro ⟨⟨hscans, hall⟩, rfl⟩
        exact ⟨_, ⟨hscans, rfl⟩, _, ⟨hall, rfl⟩, rfl⟩

/-- The lines of a text, without the line feeds between them. -/
def textLines (text : String) : List (List Char) :=
  text.toList.splitOn '\n'

theorem mem_of_mem_splitOn {α : Type} [DecidableEq α] (x : α) (xs : List α) :
    ∀ part ∈ xs.splitOn x, ∀ a ∈ part, a ∈ xs ∧ a ≠ x := by
  induction xs with
  | nil => simp
  | cons b xs ih =>
    have hlater : ∀ part ∈ xs.splitOn x, ∀ a ∈ part, a ∈ b :: xs ∧ a ≠ x := by
      intro part hpart a ha
      obtain ⟨hmem, hne⟩ := ih part hpart a ha
      exact ⟨List.mem_cons_of_mem b hmem, hne⟩
    rw [List.splitOn_eq_splitOnP, List.splitOnP_cons_eq_if_modifyHead, ← List.splitOn_eq_splitOnP]
    split
    next => exact List.forall_mem_cons.mpr ⟨by simp, hlater⟩
    next hb =>
      obtain ⟨first, rest, hsplit⟩ := List.exists_cons_of_ne_nil (List.splitOn_ne_nil x xs)
      rw [hsplit] at hlater ⊢
      obtain ⟨hfirst, hrest⟩ := List.forall_mem_cons.mp hlater
      have hne : b ≠ x := fun heq => hb (beq_iff_eq.mpr heq)
      exact List.forall_mem_cons.mpr
        ⟨List.forall_mem_cons.mpr ⟨⟨List.mem_cons_self, hne⟩, hfirst⟩, hrest⟩

theorem notMem_of_mem_splitOn (c : Char) (chars : List Char) :
    ∀ line ∈ chars.splitOn c, c ∉ line := fun line hline hmem =>
  (mem_of_mem_splitOn c chars line hline c hmem).2 rfl

theorem tokenize_eq_ok_iff (text : String) (lines : List Line) :
    tokenize text = .ok lines ↔
      (∀ line ∈ textLines text, Scans line) ∧
        lines = numbered 1 ((textLines text).map lineTokens) := by
  have htext : ['\n'].intercalate (textLines text) = text.toList := List.intercalate_splitOn '\n'
  rw [tokenize, ← htext]
  exact scan_lines_eq_ok_iff 1 _ (notMem_of_mem_splitOn _ _) lines

end PrefixVM.Asm
