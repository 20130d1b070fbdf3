import PrefixVM.Bytes

/-!
Reading UTF-8. The input is cut into scalar values and ill-formed pieces, each ill-formed piece being
the longest start of a well-formed sequence (or a single byte); so text that is partly broken still has
one reading, and a text is valid when no piece is broken.
-/
namespace PrefixVM.Utf8

def isTail (b : UInt8) : Bool :=
  0x80 ≤ b && b ≤ 0xBF

def isSecondOfThree (lead b : UInt8) : Bool :=
  if lead = 0xE0 then 0xA0 ≤ b && b ≤ 0xBF
  else if lead = 0xED then 0x80 ≤ b && b ≤ 0x9F
  else isTail b

def isSecondOfFour (lead b : UInt8) : Bool :=
  if lead = 0xF0 then 0x90 ≤ b && b ≤ 0xBF
  else if lead = 0xF4 then 0x80 ≤ b && b ≤ 0x8F
  else isTail b

def payload (b : UInt8) : Nat :=
  b.toNat % 64

/-- The first piece of a byte string that starts with `lead`: a character, or `none` for an ill-formed
piece, and how many bytes behind the lead byte belong to it. -/
def piece (lead : UInt8) (rest : Bytes) : Option Char × Nat :=
  if lead < 0x80 then (some (Char.ofNat lead.toNat), 0)
  else if 0xC2 ≤ lead && lead ≤ 0xDF then
    match rest with
    | a :: _ =>
      if isTail a then (some (Char.ofNat (lead.toNat % 32 * 64 + payload a)), 1) else (none, 0)
    | [] => (none, 0)
  else if 0xE0 ≤ lead && lead ≤ 0xEF then
    match rest with
    | a :: b :: _ =>
      if !isSecondOfThree lead a then (none, 0)
      else if !isTail b then (none, 1)
      else (some (Char.ofNat ((lead.toNat % 16 * 64 + payload a) * 64 + payload b)), 2)
    | [a] => (none, if isSecondOfThree lead a then 1 else 0)
    | [] => (none, 0)
  else if 0xF0 ≤ lead && lead ≤ 0xF4 then
    match rest with
    | a :: b :: c :: _ =>
      if !isSecondOfFour lead a then (none, 0)
      else if !isTail b then (none, 1)
      else if !isTail c then (none, 2)
      else
        (some (Char.ofNat (((lead.toNat % 8 * 64 + payload a) * 64 + payload b) * 64 + payload c)), 3)
    | [a, b] =>
      (none, if !isSecondOfFour lead a then 0 else if isTail b then 2 else 1)
    | [a] => (none, if isSecondOfFour lead a then 1 else 0)
    | [] => (none, 0)
  else (none, 0)

/-- The characters and ill-formed pieces of a byte string, in order. -/
def pieces : Bytes → List (Option Char)
  | [] => []
  | lead :: rest =>
    let (c, used) := piece lead rest
    c :: pieces (rest.drop used)
termination_by bytes => bytes.length
decreasing_by
  simp only [List.length_drop, List.length_cons]
  omega

def invalid : String := "stream did not contain valid UTF-8"

def decode? (bytes : Bytes) : Option (List Char) :=
  (pieces bytes).mapM id

/-- The text of a byte string, with U+FFFD for each ill-formed piece. -/
def decodeLossy (bytes : Bytes) : String :=
  String.ofList ((pieces bytes).map (·.getD '\uFFFD'))

end PrefixVM.Utf8
