/-
Patterns of declarations, and the names they bind.
-/
import Component.Span

namespace Component.Script

/-- The left side of a declarator or a parameter. -/
inductive Pattern where
  | name (text : Text)
  | array (elements : List Pattern)
  | object (elements : List Pattern)
  /-- A pattern with a default value. -/
  | withDefault (pattern : Pattern)
  /-- The pattern for all that is left. -/
  | remaining (pattern : Pattern)
deriving Repr

mutual

/-- The names a pattern binds, from left to right. -/
def Pattern.names : Pattern → List Text
  | .name n => [n]
  | .array elements => Pattern.namesOfAll elements
  | .object elements => Pattern.namesOfAll elements
  | .withDefault pattern => pattern.names
  | .remaining pattern => pattern.names

def Pattern.namesOfAll : List Pattern → List Text
  | [] => []
  | pattern :: more => pattern.names ++ Pattern.namesOfAll more

end

def Pattern.isName : Pattern → Bool
  | .name _ => true
  | _ => false

/-- One variable of a declaration; the span goes from the pattern to the end of
the initializer. -/
structure Declarator where
  pattern : Pattern
  span : Span
  initializer : Option Span
deriving Repr

end Component.Script
