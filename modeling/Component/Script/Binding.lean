/-
The grammar of binding patterns, property keys and parameters.
-/
import Component.Script.Parser

namespace Component.Script

open Component.Script.Parser

/-- The key of a property. -/
inductive Key where
  /-- A name or a string. -/
  | named (text : Text)
  | privateName (text : Text)
  /-- A number or a computed key. -/
  | unnamed
deriving Repr, DecidableEq

def readKey (g : Grammar) (c : Context) : Parser Key := do
  match ← token with
  | .word name _ => advance; return .named name
  | .string value _ => advance; return .named value
  | .number => advance; return .unnamed
  | .symbol .leftBracket =>
      advance
      let _ ← g.assignment c.inside
      expect .rightBracket
      return .unnamed
  | _ => failure

/-- Reads the default value of a pattern, if there is one. -/
def readDefault (g : Grammar) (c : Context) (pattern : Pattern) : Parser Pattern := do
  if ← eat .assign then
    let _ ← g.assignment c.inside
    return .withDefault pattern
  else return pattern

def readElement (g : Grammar) (c : Context) : Parser Pattern := do
  readDefault g c (← g.pattern c)

/-- Reads an array pattern after its opening bracket.  No element follows the one
that takes all that is left, and no single comma ends the pattern after it. -/
def readArrayPattern (g : Grammar) (c : Context) : Parser (List Pattern) :=
  repeated (fun elements => do
    if ← eat .rightBracket then return .inr elements
    if ← eat .comma then return .inl elements
    require (!elements.any (· matches .remaining _))
    let isRest ← eat .ellipsis
    let element ← if isRest then Pattern.remaining <$> g.pattern c else readElement g c
    let elements := elements ++ [element]
    if ← eat .rightBracket then return .inr elements
    expect .comma
    require (!(isRest && (← sees .rightBracket)))
    return .inl elements) []

/-- Reads one property of an object pattern.  A property that is only a name may be
any word. -/
def readPropertyPattern (g : Grammar) (c : Context) : Parser Pattern := do
  let first ← token
  let key ← readKey g c
  if ← eat .colon then readElement g c
  else
    match first, key with
    | .word .., .named name => readDefault g c (.name name)
    | _, _ => failure

/-- Reads one more property of an object pattern, or the end of the pattern. -/
def objectPatternStep (g : Grammar) (c : Context) (properties : List Pattern) :
    Parser (List Pattern ⊕ List Pattern) := do
  if ← eat .rightBrace then return .inr properties
  if ← eat .ellipsis then
    let name ← bindingName
    expect .rightBrace
    return .inr (properties ++ [.remaining (.name name)])
  let properties := properties ++ [← readPropertyPattern g c]
  if ← eat .rightBrace then return .inr properties
  expect .comma
  return .inl properties

def readObjectPattern (g : Grammar) (c : Context) : Parser (List Pattern) :=
  repeated (objectPatternStep g c) []

def readPattern (g : Grammar) (c : Context) : Parser Pattern := do
  if ← eat .leftBracket then return .array (← readArrayPattern g c)
  if ← eat .leftBrace then return .object (← readObjectPattern g c)
  return .name (← bindingName)

/-- Reads one more parameter of a function, or the end of the parameters. -/
def parameterStep (g : Grammar) (c : Context) (parameters : List Pattern) :
    Parser (List Pattern ⊕ List Pattern) := do
  if ← eat .rightParen then return .inr parameters
  if ← eat .ellipsis then
    let pattern ← g.pattern c
    expect .rightParen
    return .inr (parameters ++ [.remaining pattern])
  let parameters := parameters ++ [← readElement g c]
  if ← eat .rightParen then return .inr parameters
  expect .comma
  return .inl parameters

def readParameters (g : Grammar) (c : Context) : Parser (List Pattern) := do
  expect .leftParen
  repeated (parameterStep g c) []

end Component.Script
