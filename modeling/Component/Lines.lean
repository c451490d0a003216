/-
Lines and columns of byte offsets.

A line begins at offset 0 and after every line feed.  Lines and columns are
counted from zero, columns in bytes; an offset past the end of the text belongs
to the last line.
-/
import Component.Text.Basic

namespace Component

/-- A line and a byte column, both counted from zero. -/
structure Position where
  line : Nat
  column : Nat
deriving Repr, DecidableEq, Inhabited

/-- Offsets just after the line feeds of a text that begins at `offset`. -/
def lineStartsFrom (offset : Nat) : Text → List Nat
  | [] => []
  | c :: rest =>
      let next := offset + c.utf8Size
      if c = '\n' then next :: lineStartsFrom next rest else lineStartsFrom next rest

def lineStarts (t : Text) : List Nat := 0 :: lineStartsFrom 0 t

def lineCount (t : Text) : Nat := (lineStarts t).length

/-- Advances a position over the line starts up to an offset. -/
def locateFrom (line start offset : Nat) : List Nat → Position
  | [] => ⟨line, offset - start⟩
  | next :: more =>
      if next ≤ offset then locateFrom (line + 1) next offset more
      else ⟨line, offset - start⟩

/-- The position of an offset: the last line that begins at or before it. -/
def locate (t : Text) (offset : Nat) : Position :=
  locateFrom 0 0 offset (lineStartsFrom 0 t)

end Component
