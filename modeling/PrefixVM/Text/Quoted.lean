import PrefixVM.Text.Invisible
import PrefixVM.Text.Numeral

/-!
Quoted text in messages: double quotes around the text, a backslash before a quote or a backslash,
short escapes for NUL, tab, carriage return and line feed, and the code point in braces for every other
character that is invisible.
-/
namespace PrefixVM.Text

def quoteChar (c : Char) : String :=
  if c = '\x00' then "\\0"
  else if c = '\t' then "\\t"
  else if c = '\r' then "\\r"
  else if c = '\n' then "\\n"
  else if c = '"' then "\\\""
  else if c = '\\' then "\\\\"
  else if isInvisible c then "\\u\x7b" ++ Numeral.hex c.toNat ++ "\x7d"
  else c.toString

/-- The text in double quotes with its special characters escaped. -/
def quote (text : String) : String :=
  "\"" ++ String.join (text.toList.map quoteChar) ++ "\""

end PrefixVM.Text
