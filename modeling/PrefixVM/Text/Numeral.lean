/-!
Unsigned numerals in a base up to sixteen. A numeral is an optional plus sign followed by at least one
digit; leading zeros are allowed, letters count as digits in either case, and a value at or above the
limit is refused.
-/
namespace PrefixVM.Numeral

def hexValue? (c : Char) : Option Nat :=
  if '0' ≤ c ∧ c ≤ '9' then some (c.toNat - 48)
  else if 'a' ≤ c ∧ c ≤ 'f' then some (c.toNat - 87)
  else if 'A' ≤ c ∧ c ≤ 'F' then some (c.toNat - 55)
  else none

def digit? (radix : Nat) (c : Char) : Option Nat :=
  (hexValue? c).filter (· < radix)

def digits? (radix : Nat) : List Char → Option (List Nat)
  | [] => some []
  | c :: rest => do
    let d ← digit? radix c
    let ds ← digits? radix rest
    return d :: ds

def ofDigits (radix : Nat) (ds : List Nat) : Nat :=
  ds.foldl (fun n d => n * radix + d) 0

def unsigned : List Char → List Char
  | '+' :: rest => rest
  | text => text

/-- The value of a numeral of base `radix` that lies below `limit`. -/
def parse? (radix limit : Nat) (text : List Char) : Option Nat :=
  match unsigned text with
  | [] => none
  | body => do
    let n := ofDigits radix (← digits? radix body)
    if n < limit then some n else none

def hex (n : Nat) : String :=
  String.ofList (Nat.toDigits 16 n)

/-- Hexadecimal digits of `n`, filled with zeros on the left to `width` places. -/
def hexPadded (width n : Nat) : String :=
  let digits := Nat.toDigits 16 n
  String.ofList (List.replicate (width - digits.length) '0' ++ digits)

end PrefixVM.Numeral
