/-
The grammar of functions, methods and arrow functions.
-/
import Component.Script.Binding

namespace Component.Script

open Component.Script.Parser

/-- Whether an expression that has just ended can go on with a token that stands
on a later line. -/
def continuesExpression : Token → Bool
  | .word name quoted => !quoted && (name == "in" || name == "instanceof")
  | .backquote => true
  | .symbol symbol =>
      !(symbol = .leftBrace || symbol = .rightBrace || symbol = .semicolon || symbol = .unary ||
        symbol = .step || symbol = .hash)
  | _ => false

/-- The directive that is next: a statement that is a string and nothing else. -/
def directive : Parser (Option (Text × Bool)) := do
  match ← token, ← peek with
  | .string value escaped, some (following, newline) =>
      if following = .symbol .semicolon || following = .symbol .rightBrace ||
          following = .endOfInput || (newline && !continuesExpression following) then
        return some (value, escaped)
      else return none
  | _, _ => return none

/-- Reads one more statement of the body of a function, or the end of the body.  Only a
function with simple parameters may ask for strict mode again. -/
def bodyStep (g : Grammar) (c : Context) (simple prologue : Bool) : Parser (Bool ⊕ Unit) := do
  if ← eat .rightBrace then return .inr ()
  let found ← if prologue then directive else pure none
  require (simple || found ≠ some ("use strict".toList, false))
  let _ ← g.item c
  return .inl found.isSome

def readFunctionBody (g : Grammar) (c : Context) (simple : Bool) : Parser Unit := do
  expect .leftBrace
  repeated (bodyStep g c simple) true

def readCallable (g : Grammar) (c : Context) : Parser (List Pattern) := do
  let parameters ← readParameters g c.parameters
  readFunctionBody g c (parameters.all Pattern.isName)
  return parameters

/-- Reads the name of a function or a class, if it has one. -/
def optionalName (following : Symbol) : Parser (Option Text) := do
  if ← sees following then return none else return some (← bindingName)

/-- Reads a function from the word `function` on, and gives its name. -/
def readFunction (g : Grammar) (isAsync : Bool) : Parser (Option Text) := do
  expectWord "function"
  let isGenerator ← eat .star
  let name ← optionalName .leftParen
  let _ ← readCallable g (.function isAsync isGenerator)
  return name

/-- Whether a token is a symbol that is a binary operator. -/
def Token.isOperator : Token → Bool
  | .symbol s => s.level?.isSome
  | _ => false

/-- Reads the body of an arrow function, from the arrow on.  If its parameters stand
in parentheses, no operator follows a block, not even on a later line. -/
def readArrowBody (g : Grammar) (c : Context) (isAsync simple inParens : Bool) : Parser Expr := do
  expect .arrow
  if ← sees .leftBrace then
    readFunctionBody g (c.arrow isAsync).inside simple
    require (!(inParens && (← token).isOperator))
  else
    let _ ← g.assignment (c.arrow isAsync)
  return .arrow

/-- Whether an asynchronous function is next. -/
def seesAsyncFunction : Parser Bool := do
  if ← seesWord "async" then
    return (← peek) = some (.word "function" false, false)
  else return false

/-- A property accessor. -/
inductive Accessor where
  | getter
  | setter
deriving Repr, DecidableEq

/-- Whether an accessor may have these parameters. -/
def Accessor.accepts : Accessor → List Pattern → Bool
  | .getter, [] => true
  | .setter, [.remaining _] => false
  | .setter, [_] => true
  | _, _ => false

/-- Reads an accessor from its parameters on. -/
def readAccessor (g : Grammar) (accessor : Accessor) : Parser Unit := do
  require (accessor.accepts (← readCallable g (.method false false)))

/-- Reads a word that may stand before the key of a property: whether it does, or
is itself the key, if it is next at all. -/
def modifier (word : String) (beforeStar sameLine : Bool) : Parser (Option Bool) := do
  match ← token with
  | .word name _ =>
      if name = word then
        advance
        let isKey ←
          match ← token with
          | .word .. | .number | .string .. | .symbol .hash | .symbol .leftBracket => pure true
          | .symbol .star => pure beforeStar
          | _ => pure false
        return some (isKey && !(sameLine && (← newline)))
      else return none
  | _ => return none

end Component.Script
