import PrefixVM.Text.Blank
import PrefixVM.Text.Numeral
import PrefixVM.Text.Utf8

/-!
The console. Values are read as hexadecimal words of the standard input, however they are spread over
lines, and written as lines of sixteen hexadecimal digits; either side can be captured instead, as a
list of values to read and a list of values written. Where nothing can be read, the value is -1.
-/
namespace PrefixVM

structure Console where
  input : Option (List Int64) := none
  output : Option (Array Int64) := none
  /-- Words of the last line that are still to be read. -/
  pending : List String := []

namespace Console

/-- The value of a reading that finds nothing. -/
def noInput : Int64 := -1

def make (input : Option (List Int64)) (capture : Bool) : Console :=
  { input, output := if capture then some #[] else none }

def dropHexMark : List Char → List Char
  | '0' :: 'x' :: digits => digits
  | '0' :: 'X' :: digits => digits
  | digits => digits

/-- The value of a word: hexadecimal, with or without `0x`, in 64 bits, negated behind a minus sign. -/
def parseHex? (text : String) : Option Int64 :=
  let (negative, digits) := match Text.trim text.toList with
    | '-' :: digits => (true, digits)
    | digits => (false, digits)
  -- magnitudes from 2^63 on wrap around
  (Numeral.parse? 16 UInt64.size (dropHexMark digits)).map fun magnitude =>
    Int64.ofInt (if negative then -magnitude else magnitude)

def takeLine : Bytes → Bytes × Bytes
  | [] => ([], [])
  | b :: rest =>
    if b = 10 then ([b], rest)
    else
      let (line, rest) := takeLine rest
      (b :: line, rest)

theorem length_takeLine_snd (bytes : Bytes) : (takeLine bytes).2.length ≤ bytes.length := by
  induction bytes with
  | nil => exact Nat.le_refl _
  | cons b rest ih =>
    simp only [takeLine]
    split
    · exact Nat.le_succ _
    · exact Nat.le_succ_of_le ih

inductive Next where
  | word (text : String)
  | unreadable
  | finished
  deriving DecidableEq, Repr

/-- The next word: the first pending one, or the first of the lines that follow. The answer comes with the
words that are pending behind it and the input that is left. -/
def nextWord (pending : List String) (input : Bytes) : Next × List String × Bytes :=
  match pending, input with
  | w :: ws, input => (.word w, ws, input)
  | [], [] => (.finished, [], [])
  | [], b :: rest =>
    match Utf8.decode? (takeLine (b :: rest)).1 with
    -- a line that is no valid text is passed over as a whole
    | none => (.unreadable, [], (takeLine (b :: rest)).2)
    | some text =>
      nextWord ((Text.words text).map String.ofList) (takeLine (b :: rest)).2
termination_by (input.length, pending.length)
decreasing_by
  have h := length_takeLine_snd rest
  apply Prod.Lex.left
  simp only [takeLine]
  split
  · exact Nat.lt_succ_self _
  · exact Nat.lt_succ_of_le h

inductive Trouble where
  | malformed (word : String)
  | unreadable
  deriving DecidableEq, Repr

structure Answer where
  value : Int64
  trouble : Option Trouble := none
  console : Console
  rest : Bytes

def readFrom (c : Console) (input : Bytes) : Answer :=
  match nextWord c.pending input with
  | (.finished, pending, rest) => { value := noInput, console := { c with pending }, rest }
  | (.unreadable, pending, rest) =>
    { value := noInput, trouble := some .unreadable, console := { c with pending }, rest }
  | (.word word, pending, rest) =>
    match parseHex? word with
    | some value => { value, console := { c with pending }, rest }
    | none =>
      { value := noInput, trouble := some (.malformed word), console := { c with pending }, rest }

def read (c : Console) (input : Bytes) : Answer :=
  match c.input with
  | some [] => { value := noInput, console := c, rest := input }
  | some (v :: vs) => { value := v, console := { c with input := some vs }, rest := input }
  | none => c.readFrom input

def line (value : Int64) : String :=
  Numeral.hexPadded 16 value.toUInt64.toNat ++ "\n"

/-- Writes a value. The answer holds the text that is printed. -/
def write (c : Console) (value : Int64) : Console × String :=
  match c.output with
  | some output => ({ c with output := some (output.push value) }, "")
  | none => (c, line value)

end Console

end PrefixVM
