/-
Character references in text and attribute values: `&name;`, `&#NN;`, `&#xNN;`.

A reference has at most eight characters between `&` and `;`.  What does not
form a reference stays as written, and the text a reference stands for is not
read again.
-/
import Component.Text.Basic

namespace Component.Markup.Reference

/-- Greatest number of characters between `&` and `;`. -/
def maxLength : Nat := 8

/-- The value of a digit in a base of at most sixteen. -/
def digit? (base : Nat) (c : Char) : Option Nat :=
  let value :=
    if c.isDigit then c.toNat - '0'.toNat
    else if 'a' ≤ c && c ≤ 'f' then c.toNat - 'a'.toNat + 10
    else if 'A' ≤ c && c ≤ 'F' then c.toNat - 'A'.toNat + 10
    else base
  if value < base then some value else none

/-- Continues a number with further digits. -/
def numberFrom (base value : Nat) : Text → Option Nat
  | [] => some value
  | c :: rest =>
      match digit? base c with
      | none => none
      | some d => numberFrom base (value * base + d) rest

/-- The number that digits denote; one plus sign may stand before them. -/
def number? (base : Nat) : Text → Option Nat
  | [] => none
  | ['+'] => none
  | '+' :: digits => numberFrom base 0 digits
  | digits => numberFrom base 0 digits

def scalar? (n : Nat) : Option Char :=
  if n ≠ 0 ∧ n.isValidChar then some (Char.ofNat n) else none

def named : List (Text × Char) :=
  [("amp", '&'), ("lt", '<'), ("gt", '>'), ("quot", '"'), ("apos", '\''), ("nbsp", '\xa0')]

/-- The character that the body of a reference stands for. -/
def decodeBody : Text → Option Char
  | '#' :: 'x' :: digits => (number? 16 digits).bind scalar?
  | '#' :: 'X' :: digits => (number? 16 digits).bind scalar?
  | '#' :: digits => (number? 10 digits).bind scalar?
  | body => named.lookup body

/-- The reference at the front of a text that stands after an `&`: its character
and its length including the `;`. -/
def reference? (t : Text) : Option (Char × Nat) :=
  let window := t.take (maxLength + 1)
  let body := window.takeWhile (· != ';')
  if window[body.length]? = some ';' then (decodeBody body).map fun c => (c, body.length + 1)
  else none

/-- Decodes a text of which the next `skip` characters belong to a reference that
has been read. -/
def decodeFrom : Nat → Text → Text
  | _, [] => []
  | skip + 1, _ :: rest => decodeFrom skip rest
  | 0, c :: rest =>
      if c = '&' then
        match reference? rest with
        | some (decoded, length) => decoded :: decodeFrom length rest
        | none => c :: decodeFrom 0 rest
      else c :: decodeFrom 0 rest

/-- A text with its character references replaced by the characters they stand for. -/
def decode (t : Text) : Text := decodeFrom 0 t

end Component.Markup.Reference
