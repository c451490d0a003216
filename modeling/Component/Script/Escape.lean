/-
Escape sequences of scripts, in identifiers, strings and templates.

Every reader takes the text after the backslash and gives the characters the
escape stands for with the text after the escape.  A code unit that is no
character by itself stands for the replacement character.
-/
import Component.Script.Input
import Component.Markup.Reference

namespace Component.Script

/-- Why an escape cannot be read. -/
inductive EscapeFault where
  /-- It is not written as escapes are, which a template with a tag allows. -/
  | malformed
  /-- An underscore in it stands before no digit, which nothing allows. -/
  | looseSeparator
deriving Repr, DecidableEq

/-- Whether a text begins with a hexadecimal digit. -/
def beginsHex : Text → Bool
  | c :: _ => (Markup.Reference.digit? 16 c).isSome
  | [] => false

/-- Reads `count` more hexadecimal digits of a number that is `value` so far.  Each
digit may have an underscore before it. -/
def hexDigits (count value : Nat) : Text → Except EscapeFault (Nat × Text)
  | [] => if count = 0 then .ok (value, []) else .error .malformed
  | c :: rest =>
      if count = 0 then .ok (value, c :: rest)
      else if c = '_' then
        if beginsHex rest then hexDigits count value rest else .error .looseSeparator
      else
        match Markup.Reference.digit? 16 c with
        | some digit => hexDigits (count - 1) (16 * value + digit) rest
        | none => .error .malformed

/-- Reads the hexadecimal digits of a code point up to the brace that closes them,
of which `value` has been read. -/
def hexDigitsToBrace (value : Option Nat) : Text → Except EscapeFault (Nat × Text)
  | [] => .error .malformed
  | c :: rest =>
      if c = '_' then
        if beginsHex rest then hexDigitsToBrace value rest else .error .looseSeparator
      else
        match Markup.Reference.digit? 16 c, value with
        | some digit, _ => hexDigitsToBrace (some (16 * value.getD 0 + digit)) rest
        | none, some n => if c = '}' && n ≤ 0x10ffff then .ok (n, rest) else .error .malformed
        | none, none => .error .malformed

/-- The code point after `\u`: four digits, or any number of them in braces. -/
def codePoint : Text → Except EscapeFault (Nat × Text)
  | '{' :: rest => hexDigitsToBrace none rest
  | t => hexDigits 4 0 t

/-- The character of a code point, or the replacement character. -/
def charOfCodePoint (n : Nat) : Char := if n.isValidChar then Char.ofNat n else '�'

/-- The characters of two code units of which the first is a high surrogate. -/
def charsOfUnits (high low : Nat) : Text :=
  if 0xdc00 ≤ low && low ≤ 0xdfff then
    [charOfCodePoint (0x10000 + 0x400 * (high - 0xd800) + (low - 0xdc00))]
  else [charOfCodePoint high, charOfCodePoint low]

/-- The escape after `\u` in a string or a template.  A high surrogate takes an
escape that follows it along, which then has to have four digits. -/
def readUnicodeEscape (t : Text) : Except EscapeFault (Text × Text) := do
  let (n, rest) ← codePoint t
  match rest with
  | '\\' :: 'u' :: following =>
      if t.head? ≠ some '{' && 0xd800 ≤ n && n ≤ 0xdbff then
        let (low, after) ← hexDigits 4 0 following
        return (charsOfUnits n low, after)
      else return ([charOfCodePoint n], rest)
  | _ => return ([charOfCodePoint n], rest)

def beginsOctal : Text → Bool
  | c :: _ => '0' ≤ c && c ≤ '7'
  | [] => false

/-- The character that one behind a backslash stands for: six letters stand for control
characters, any other character for itself. -/
def escapedChar (c : Char) : Char :=
  if c = 'n' then '\n' else if c = 't' then '\t' else if c = 'r' then '\r'
  else if c = 'b' then '\x08' else if c = 'v' then '\x0b' else if c = 'f' then '\x0c'
  else c

/-- The escape after a backslash in a string or a template: the characters it
stands for, of which there are none at the end of a line. -/
def readEscape : Text → Except EscapeFault (Text × Text)
  | [] => .error .malformed
  | '\r' :: '\n' :: rest => .ok ([], rest)
  | 'x' :: rest => (hexDigits 2 0 rest).map fun (n, rest) => ([charOfCodePoint n], rest)
  | 'u' :: rest => readUnicodeEscape rest
  | c :: rest =>
      if isLineBreak c then .ok ([], rest)
      else if c = '0' && !beginsOctal rest then .ok (['\x00'], rest)
      else if '0' ≤ c && c ≤ '7' then .error .malformed
      else .ok ([escapedChar c], rest)

end Component.Script
