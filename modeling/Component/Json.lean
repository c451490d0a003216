/-
JSON values and their two written forms: on one line, and spread over lines that
are indented by two spaces a level.

Fields keep their order.  All numbers of the compiler are natural.
-/
import Component.Text.Basic

namespace Component

/-- A JSON value. -/
inductive Json where
  | null
  | number (value : Nat)
  | string (value : Text)
  | array (values : List Json)
  | object (fields : List (Text × Json))
deriving Repr, Inhabited

namespace Json

/-- A character inside a string.  Quotes, backslashes and control characters are
escaped, all others stand for themselves. -/
def escape (c : Char) : Text :=
  if c = '"' then ['\\', '"']
  else if c = '\\' then ['\\', '\\']
  else if c = '\n' then ['\\', 'n']
  else if c = '\r' then ['\\', 'r']
  else if c = '\t' then ['\\', 't']
  else if c = '\x08' then ['\\', 'b']
  else if c = '\x0c' then ['\\', 'f']
  else if c.toNat < 0x20 then
    ['\\', 'u', '0', '0', Nat.digitChar (c.toNat / 16), Nat.digitChar (c.toNat % 16)]
  else [c]

def quoted (t : Text) : Text := '"' :: (t.flatMap escape ++ ['"'])

/-- A line end and the indentation of a level. -/
def newLine (depth : Nat) : Text := '\n' :: List.replicate (2 * depth) ' '

mutual

/-- The form on one line. -/
def compact : Json → Text
  | .null => "null"
  | .number value => Nat.toDigits 10 value
  | .string value => quoted value
  | .array values => '[' :: (Text.join [','] (compactValues values) ++ [']'])
  | .object fields => '{' :: (Text.join [','] (compactFields fields) ++ ['}'])

def compactValues : List Json → List Text
  | [] => []
  | value :: more => value.compact :: compactValues more

def compactFields : List (Text × Json) → List Text
  | [] => []
  | (key, value) :: more => (quoted key ++ ':' :: value.compact) :: compactFields more

end

/-- Items between brackets, each on lines of its own; nothing if there are none. -/
def block (depth : Nat) (first last : Char) (items : List Text) : Text :=
  if items.isEmpty then [first, last]
  else
    first :: (newLine (depth + 1) ++ Text.join (',' :: newLine (depth + 1)) items ++
      newLine depth ++ [last])

mutual

/-- The form over several lines, which begins at a level. -/
def prettyFrom (depth : Nat) : Json → Text
  | .null => "null"
  | .number value => Nat.toDigits 10 value
  | .string value => quoted value
  | .array values => block depth '[' ']' (prettyValues (depth + 1) values)
  | .object fields => block depth '{' '}' (prettyFields (depth + 1) fields)

def prettyValues (depth : Nat) : List Json → List Text
  | [] => []
  | value :: more => prettyFrom depth value :: prettyValues depth more

def prettyFields (depth : Nat) : List (Text × Json) → List Text
  | [] => []
  | (key, value) :: more =>
      (quoted key ++ ':' :: ' ' :: prettyFrom depth value) :: prettyFields depth more

end

/-- The form over several lines. -/
def pretty (json : Json) : Text := prettyFrom 0 json

/-- An object whose keys are given as literals. -/
def record (fields : List (String × Json)) : Json :=
  .object (fields.map fun (key, value) => (key.toList, value))

def ofOption {α : Type} (encode : α → Json) : Option α → Json
  | none => .null
  | some value => encode value

end Json

end Component
