import PrefixVM.Asm.Error

/-!
Tokens of assembly text. At every place the longest token is taken; blanks, tabs and carriage returns
separate tokens, and a number sign starts a comment that ends before the next line feed. Tokens are
grouped into numbered lines, and lines without tokens are dropped.
-/
namespace PrefixVM.Asm

inductive Token where
  /-- A name or a number: letters, digits and underscores behind an optional minus sign. -/
  | word (text : String)
  /-- A directive, without the dot in front of its name. -/
  | directive (name : String)
  | comma
  | colon
  | openBracket
  | closeBracket
  | newline
  deriving DecidableEq, Repr, Inhabited

structure Line where
  number : Nat
  tokens : List Token
  deriving DecidableEq, Repr

def isLetter (c : Char) : Bool :=
  ('a' ≤ c && c ≤ 'z') || ('A' ≤ c && c ≤ 'Z')

def isNameStart (c : Char) : Bool :=
  isLetter c || c == '_'

def isWordChar (c : Char) : Bool :=
  isNameStart c || ('0' ≤ c && c ≤ '9')

def isGap (c : Char) : Bool :=
  c == ' ' || c == '\t' || c == '\r'

/-- What stands at the start of a text, and the text behind it. -/
inductive Lexeme where
  | skipped (rest : List Char)
  | token (t : Token) (rest : List Char)
  | stray
  deriving DecidableEq, Repr

namespace Lexeme

def word (start : List Char) (text : List Char) : Lexeme :=
  .token (.word (String.ofList (start ++ text.takeWhile isWordChar))) (text.dropWhile isWordChar)

/-- The lexeme at the start of `c :: rest`, where `c` can only be the sign of a word or the dot of a
directive. -/
def marked (c : Char) : (rest : List Char) → Lexeme
  | [] => .stray
  | d :: rest =>
    if c = '-' ∧ isWordChar d then word [c, d] rest
    else if c = '.' ∧ isNameStart d then
      .token (.directive (String.ofList (d :: rest.takeWhile isWordChar))) (rest.dropWhile isWordChar)
    else .stray

def first (c : Char) (rest : List Char) : Lexeme :=
  if isGap c then .skipped rest
  else if c = '#' then .skipped (rest.dropWhile (· != '\n'))
  else if c = '\n' then .token .newline rest
  else if c = ',' then .token .comma rest
  else if c = ':' then .token .colon rest
  else if c = '[' then .token .openBracket rest
  else if c = ']' then .token .closeBracket rest
  else if isWordChar c then word [c] rest
  else marked c rest

def rest : Lexeme → List Char
  | skipped r => r
  | token _ r => r
  | stray => []

theorem length_dropWhile_le (p : Char → Bool) (text : List Char) :
    (text.dropWhile p).length ≤ text.length :=
  (List.dropWhile_suffix p).length_le

theorem length_rest_word (start text : List Char) : (word start text).rest.length ≤ text.length :=
  length_dropWhile_le isWordChar text

theorem length_rest_marked (c : Char) (text : List Char) :
    (marked c text).rest.length ≤ text.length := by
  match text with
  | [] => exact Nat.le_refl _
  | d :: more =>
    have hm := length_dropWhile_le isWordChar more
    simp only [marked]
    split
    · exact Nat.le_succ_of_le hm
    · split
      · exact Nat.le_succ_of_le hm
      · exact Nat.zero_le _

theorem length_rest_first (c : Char) (text : List Char) :
    (first c text).rest.length ≤ text.length := by
  have hc := length_dropWhile_le (· != '\n') text
  unfold first
  iterate 7 (split; · first | exact Nat.le_refl _ | exact hc)
  split
  · exact length_rest_word [c] text
  · exact length_rest_marked c text

end Lexeme

namespace Line

def nonempty (number : Nat) : (tokens : List Token) → List Line
  | [] => []
  | t :: ts => [{ number, tokens := t :: ts }]

/-- The lines of a text whose first line has the given number and already starts with `begun`, which
lists tokens in reverse. -/
def scan (number : Nat) (begun : List Token) : (text : List Char) → Except Error (List Line)
  | [] => .ok (nonempty number begun.reverse)
  | c :: text =>
    match _h : Lexeme.first c text with
    | .stray => .error (.unexpected number c.toString)
    | .skipped rest => scan number begun rest
    | .token .newline rest => do
      let lines ← scan (number + 1) [] rest
      return nonempty number begun.reverse ++ lines
    | .token t rest => scan number (t :: begun) rest
termination_by text => text.length
decreasing_by
  all_goals
    have := Lexeme.length_rest_first c text
    rw [_h] at this
    simp only [Lexeme.rest] at this
    simp only [List.length_cons]
    omega

end Line

def tokenize (source : String) : Except Error (List Line) :=
  Line.scan 1 [] source.toList

namespace Token

def text : Token → String
  | word text => text
  | directive name => "." ++ name
  | comma => ","
  | colon => ":"
  | openBracket => "["
  | closeBracket => "]"
  | newline => "\\n"

end Token

end PrefixVM.Asm
