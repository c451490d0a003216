/-
The grammar of classes.
-/
import Component.Script.Function

namespace Component.Script

open Component.Script.Parser

def readMemberKey (g : Grammar) (c : Context) : Parser Key := do
  if ← sees .hash then
    let name ← privateName
    require (name != "constructor")
    return .privateName name
  else readKey g c.member

/-- Reads a method with a modifier, from its parameters on.  It is never called
`constructor`. -/
def readMethod (g : Grammar) (isAsync isGenerator : Bool) (key : Key) : Parser Unit := do
  require (key ≠ .named "constructor")
  let _ ← readCallable g (.method isAsync isGenerator)

def readMemberAccessor (g : Grammar) (c : Context) (accessor : Accessor) : Parser Unit := do
  require ((← readMemberKey g c) ≠ .named "constructor")
  readAccessor g accessor

/-- Reads a field from its initializer on. -/
def readField (g : Grammar) (c : Context) (key : Key) : Parser Unit := do
  require (key ≠ .named "constructor")
  if ← eat .assign then
    let _ ← g.assignment c.field
  semicolon

/-- Reads the rest of a member that has no modifier but perhaps `static`.  The flag
says whether the class has its constructor, which is not static. -/
def readPlainMember (g : Grammar) (c : Context) (hasConstructor isStatic : Bool) (key : Key) :
    Parser Bool := do
  if ← sees .leftParen then
    let isConstructor := key = .named "constructor"
    require (!(isConstructor && (isStatic || hasConstructor)))
    let _ ← readCallable g (.method false false)
    return hasConstructor || isConstructor
  else
    readField g c key
    return hasConstructor

/-- Reads a getter or a setter, or a member that has the name of its modifier. -/
def readAccessorMember (g : Grammar) (c : Context) (hasConstructor isStatic : Bool)
    (word : String) (accessor : Accessor) : Parser (Option Bool) := do
  match ← modifier word false false with
  | some true =>
      readMemberAccessor g c accessor
      return some hasConstructor
  | some false => return some (← readPlainMember g c hasConstructor isStatic (.named word))
  | none => return none

def readMember (g : Grammar) (c : Context) (hasConstructor isStatic : Bool) : Parser Bool := do
  if ← eat .star then
    readMethod g false true (← readMemberKey g c)
    return hasConstructor
  match ← modifier "async" true true with
  | some true =>
      let isGenerator ← eat .star
      readMethod g true isGenerator (← readMemberKey g c)
      return hasConstructor
  | some false => readPlainMember g c hasConstructor isStatic (.named "async")
  | none =>
      if let some found ← readAccessorMember g c hasConstructor isStatic "get" .getter then
        return found
      if let some found ← readAccessorMember g c hasConstructor isStatic "set" .setter then
        return found
      readPlainMember g c hasConstructor isStatic (← readMemberKey g c)

/-- Reads a block that sets up a class, from its opening brace on. -/
def readStaticBlock (g : Grammar) (c : Context) : Parser Unit := do
  expect .leftBrace
  repeated (fun _ => do
    if ← eat .rightBrace then return .inr ()
    let _ ← g.item c.field
    return .inl ()) ()

def readClassBody (g : Grammar) (c : Context) : Parser Unit := do
  expect .leftBrace
  repeated (fun hasConstructor => do
    if ← eat .rightBrace then return .inr ()
    if ← eat .semicolon then return .inl hasConstructor
    let isStatic ← if ← seesWord "static" then modifier "static" true false else pure none
    match isStatic with
    | some true => return .inl (← readMember g c hasConstructor true)
    | some false =>
        if ← sees .leftBrace then
          readStaticBlock g c
          return .inl hasConstructor
        else return .inl (← readPlainMember g c hasConstructor false (.named "static"))
    | none => return .inl (← readMember g c hasConstructor false)) false

/-- Reads a class from the word `class` on, and gives its name. -/
def readClass (g : Grammar) (c : Context) : Parser (Option Text) := do
  expectWord "class"
  let name ←
    if (← sees .leftBrace) || (← seesWord "extends") then pure none
    else some <$> bindingName
  if ← eatWord "extends" then
    let _ ← g.leftHandSide c.inClass
  readClassBody g c
  return name

end Component.Script
