import StackCode.Text.Hex
import StackCode.Text.Printable

/-!
# Quoted text

A text between double quotes. The quote, the backslash and the common controls have short escapes;
every other character that is not printable is written as its code point in hexadecimal.
-/

namespace StackCode.Text

/-- A code point in hexadecimal between braces, filled with zeros to `width` digits. -/
def codePoint (width n : Nat) : String := "\\u\x7b" ++ Hex.padded width n ++ "\x7d"

/-- How a character is written inside double quotes. -/
def escape (c : Char) : String :=
  if c = '"' then "\\\""
  else if c = '\\' then "\\\\"
  else if c = '\n' then "\\n"
  else if c = '\r' then "\\r"
  else if c = '\t' then "\\t"
  else if c = '\x00' then "\\0"
  else if printable c then String.singleton c
  else codePoint 1 c.toNat

/-- The text between double quotes, with its characters escaped. -/
def quoted (s : String) : String := "\"" ++ String.join (s.toList.map escape) ++ "\""

end StackCode.Text
