/-
Segments of a text: literal pieces and `{name}` bindings.

The scanner is either between braces or outside them.  Its first misplaced
brace ends it with an error.
-/
import Component.Fault

namespace Component

/-- A piece of a text. -/
inductive Segment where
  | literal (text : Text) (span : Span)
  | binding (name : Text) (span : Span)
deriving Repr, DecidableEq

namespace Segment

/-- Where the scanner stands.  In both states `seen` holds the characters since
`start`: those of the pending literal, or those after an opening brace. -/
inductive Scanner where
  | outside (start : Nat) (seen : Text)
  | inside (start : Nat) (seen : Text)
deriving Repr, DecidableEq

/-- The literal that is pending, unless it is empty. -/
def pending (start stop : Nat) (seen : Text) : List Segment :=
  if seen.isEmpty then [] else [.literal seen (.ofOffsets start stop)]

/-- Scans a text that begins at `offset`. -/
def scanFrom (offset : Nat) : Scanner → Text → Except Error (List Segment)
  | .outside start seen, [] => .ok (pending start offset seen)
  | .inside start seen, [] =>
      .error ⟨.unterminatedBinding ('{' :: seen), .ofOffsets start offset⟩
  | .outside start seen, c :: rest =>
      if c = '{' then
        (scanFrom (offset + 1) (.inside offset []) rest).map (pending start offset seen ++ ·)
      else if c = '}' then .error ⟨.unmatchedBrace, .ofOffsets offset (offset + 1)⟩
      else scanFrom (offset + c.utf8Size) (.outside start (seen ++ [c])) rest
  | .inside start seen, c :: rest =>
      if c = '}' then
        (scanFrom (offset + 1) (.outside (offset + 1) []) rest).map
          (.binding seen (.ofOffsets start (offset + 1)) :: ·)
      else if c = '{' then
        .error ⟨.nestedBinding ('{' :: (seen ++ ['{'])), .ofOffsets start (offset + 1)⟩
      else scanFrom (offset + c.utf8Size) (.inside start (seen ++ [c])) rest

/-- Cuts a text that begins at `offset` into segments. -/
def scan (offset : Nat) (t : Text) : Except Error (List Segment) :=
  scanFrom offset (.outside offset []) t

end Segment

end Component
