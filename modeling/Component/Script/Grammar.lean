/-
The grammar of scripts as a whole.

The rules refer to one another through a table of parsers.  The table for a
nesting depth is built from the table for the depth below; at depth zero nothing
can be read.  Each reference from a rule to the table but the one from a
statement to its expression follows a token, so twice the length of a script is
depth enough.
-/
import Component.Script.Item

namespace Component.Script

/-- The rules, with references that go at most `depth` deep. -/
def Grammar.atDepth : Nat → Grammar
  | 0 =>
      { assignment := fun _ => failure
        unary := fun _ => failure
        binary := fun _ _ => failure
        leftHandSide := fun _ => failure
        constructed := fun _ => failure
        pattern := fun _ => failure
        item := fun _ => failure
        statement := fun _ => failure }
  | depth + 1 =>
      { assignment := fun c s => readAssignment (atDepth depth) c s
        unary := fun c s => readUnary (atDepth depth) c s
        binary := fun level c s => readBinary (atDepth depth) level c s
        leftHandSide := fun c s => readLeftHandSide (atDepth depth) c s
        constructed := fun c s => readConstructed (atDepth depth) c s
        pattern := fun c s => readPattern (atDepth depth) c s
        item := fun c s => readItemOrStatement (atDepth depth) c s
        statement := fun c s => readStatement (atDepth depth) c s }

/-- The items of a script that is a well-formed module. -/
def parse (script : Text) : Option (List Item) :=
  match h : readLexeme (.start script) with
  | some next =>
      (readModule (.atDepth (2 * script.length + 4)) ⟨.start script, next, h, none⟩).map (·.1)
  | none => none

/-- What a reader of scripts says of a text that is none. -/
structure SyntaxError where
  span : Span
  message : Text
deriving Repr, DecidableEq

/-- Reads a script.  Of a text that is none it says just that, and points at all of it. -/
def read (script : Text) : Except SyntaxError (List Item) :=
  match parse script with
  | some items => .ok items
  | none => .error ⟨⟨0, script.size⟩, "not a script"⟩

end Component.Script
