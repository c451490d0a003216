/-
Positions in a script, and what may stand between two tokens.
-/
import Component.Text.Blank

namespace Component.Script

/-- The text of a script from a byte offset on. -/
structure Input where
  rest : Text
  offset : Nat
deriving Repr, DecidableEq, Inhabited

/-- Moves past `text`, after which `rest` follows. -/
def Input.past (i : Input) (text rest : Text) : Input := ⟨rest, i.offset + text.size⟩

/-- The characters that end a line of a script. -/
def isLineBreak (c : Char) : Bool :=
  c == '\n' || c == '\r' || c.toNat == 0x2028 || c.toNat == 0x2029

/-- The characters that separate tokens: whitespace, the byte order mark and the
space of no width. -/
def isSpace (c : Char) : Bool := isBlank c || c.toNat == 0xfeff || c.toNat == 0x200b

/-- Where a position between two tokens is.  The first and the last mark of a block
comment have two characters each, and a state of their own between these. -/
inductive Gap where
  | plain
  | lineComment
  | blockOpening
  | blockComment
  | blockClosing
deriving Repr, DecidableEq

/-- The state after a character `c` that `next` follows, if the gap goes on with it. -/
def Gap.step (gap : Gap) (c : Char) (next : Option Char) : Option Gap :=
  match gap with
  | .lineComment => some (if isLineBreak c then .plain else .lineComment)
  | .blockOpening => some .blockComment
  | .blockComment => some (if c = '*' && next = some '/' then .blockClosing else .blockComment)
  | .blockClosing => some .plain
  | .plain =>
      if isLineBreak c || isSpace c then some .plain
      else if c = '/' && next = some '/' then some .lineComment
      else if c = '/' && next = some '*' then some .blockOpening
      else none

/-- Skips whitespace and comments.  The flag says whether a line ended on the way;
a block comment that is never closed gives nothing. -/
def skipGap (gap : Gap) (newline : Bool) (offset : Nat) : Text → Option (Bool × Input)
  | [] => if gap = .plain || gap = .lineComment then some (newline, ⟨[], offset⟩) else none
  | c :: rest =>
      match gap.step c rest.head? with
      | some gap => skipGap gap (newline || isLineBreak c) (offset + c.utf8Size) rest
      | none => some (newline, ⟨c :: rest, offset⟩)

/-- A script from its first character on; an interpreter line is not part of it. -/
def Input.start (script : Text) : Input :=
  match script with
  | '#' :: '!' :: rest =>
      let line := rest.takeWhile fun c => !isLineBreak c
      ⟨rest.drop line.length, 2 + Text.size line⟩
  | _ => ⟨script, 0⟩

end Component.Script
