/-
String literals of the compiled module.
-/
import Component.Text.Basic

namespace Component.Code

/-- The last four hexadecimal digits of a number, in lower case. -/
def hex4 (n : Nat) : Text :=
  [12, 8, 4, 0].map fun shift => Nat.digitChar (n >>> shift % 16)

/-- A character inside a string literal.  Quotes, backslashes, control characters
and the two Unicode line breaks are escaped. -/
def escape (c : Char) : Text :=
  if c = '\\' then ['\\', '\\']
  else if c = '"' then ['\\', '"']
  else if c = '\n' then ['\\', 'n']
  else if c = '\r' then ['\\', 'r']
  else if c = '\t' then ['\\', 't']
  else if c.toNat < 0x20 || c.toNat = 0x2028 || c.toNat = 0x2029 then
    '\\' :: 'u' :: hex4 c.toNat
  else [c]

/-- A text as a double-quoted string literal. -/
def quote (t : Text) : Text := '"' :: (t.flatMap escape ++ ['"'])

end Component.Code
