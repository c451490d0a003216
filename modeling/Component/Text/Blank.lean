/-
The whitespace characters: those with the Unicode property White_Space.
-/
import Component.Text.Basic

namespace Component

/-- Whitespace: the tabs and line breaks of ASCII, the spaces of every width, and
the line and paragraph separators. -/
def isBlank (c : Char) : Bool :=
  let n := c.toNat
  (9 ≤ n && n ≤ 13) || n == 0x20 || n == 0x85 || n == 0xa0 || n == 0x1680 ||
    (0x2000 ≤ n && n ≤ 0x200a) || n == 0x2028 || n == 0x2029 || n == 0x202f ||
    n == 0x205f || n == 0x3000

namespace Text

/-- Every character is whitespace. -/
def isBlank (t : Text) : Bool := t.all Component.isBlank

def trimStart (t : Text) : Text := t.dropWhile Component.isBlank

def trimEnd (t : Text) : Text := (t.reverse.dropWhile Component.isBlank).reverse

def trim (t : Text) : Text := t.trimStart.trimEnd

end Text

end Component
