/-
The grammar of statements.

A statement gives the names of the variables that it declares with `var`
outside of any function, at whatever depth: these belong to the function or
module around it.
-/
import Component.Script.Expression

namespace Component.Script

open Component.Script.Parser

def Declarator.allNames (declarators : List Declarator) : List Text :=
  declarators.flatMap (·.pattern.names)

/-- Whether a declarator has its initializer, where constants and patterns need one. -/
def Declarator.isComplete (isConstant : Bool) (d : Declarator) : Bool :=
  d.initializer.isSome || (d.pattern.isName && !isConstant)

def readDeclarator (g : Grammar) (c : Context) : Parser Declarator := do
  let start ← position
  let pattern ← g.pattern c
  if ← eat .assign then
    let first ← position
    let _ ← g.assignment c
    let stop ← previous
    return ⟨pattern, ⟨start, stop⟩, some ⟨first, stop⟩⟩
  else return ⟨pattern, ⟨start, ← previous⟩, none⟩

/-- Reads one more variable of a declaration and the comma after it, if there is one. -/
def declaratorStep (g : Grammar) (c : Context) (declarators : List Declarator) :
    Parser (List Declarator ⊕ List Declarator) := do
  let declarators := declarators ++ [← readDeclarator g c]
  if ← eat .comma then return .inl declarators else return .inr declarators

def readDeclarators (g : Grammar) (c : Context) : Parser (List Declarator) :=
  repeated (declaratorStep g c) []

/-- Reads a declaration of variables after its first word. -/
def readVariables (g : Grammar) (c : Context) (isConstant : Bool) : Parser (List Declarator) := do
  let declarators ← readDeclarators g c
  require (declarators.all (·.isComplete isConstant))
  semicolon
  return declarators

/-- Reads one more declaration or statement, or a closing brace. -/
def blockStep (g : Grammar) (c : Context) (hoisted : List Text) :
    Parser (List Text ⊕ List Text) := do
  if ← eat .rightBrace then return .inr hoisted
  return .inl (hoisted ++ (← g.item c))

def readItemsToBrace (g : Grammar) (c : Context) : Parser (List Text) :=
  repeated (blockStep g c) []

def readBlock (g : Grammar) (c : Context) : Parser (List Text) := do
  expect .leftBrace
  readItemsToBrace g c

def readIf (g : Grammar) (c : Context) : Parser (List Text) := do
  condition g c
  let hoisted ← g.statement c
  if ← eatWord "else" then return hoisted ++ (← g.statement c) else return hoisted

def readWhile (g : Grammar) (c : Context) : Parser (List Text) := do
  condition g c
  g.statement c.loop

def readDo (g : Grammar) (c : Context) : Parser (List Text) := do
  let hoisted ← g.statement c.loop
  expectWord "while"
  condition g c
  let _ ← eat .semicolon
  return hoisted

/-- Reads the rest of a loop head after its first semicolon, and the body.  The
second semicolon can be left out after a condition. -/
def readForRest (g : Grammar) (c : Context) : Parser (List Text) := do
  if !(← eat .semicolon) then
    let _ ← expression g c
    let _ ← eat .semicolon
  if !(← sees .rightParen) then
    let _ ← expression g c
  expect .rightParen
  g.statement c.loop

/-- Reads the rest of a loop over the keys or the items of a value. -/
def readForEach (g : Grammar) (c : Context) (isOf : Bool) : Parser (List Text) := do
  advance
  if isOf then
    let _ ← g.assignment c
  else
    let _ ← expression g c
  expect .rightParen
  g.statement c.loop

/-- Whether a loop goes over keys (`in`) or items (`of`), if it does either. -/
def seesForEach : Parser (Option Bool) := do
  if ← seesWord "of" then return some true
  if ← seesWord "in" then return some false
  return none

/-- Reads a loop head that begins with a declaration.  Only the initializers of `var`
leave `in` to the loop, and only patterns need one. -/
def readForDeclaration (g : Grammar) (c : Context) (isAwait isVar : Bool) :
    Parser (List Text) := do
  advance
  let declarators ← readDeclarators g { c with mayIn := !isVar }
  let hoisted := if isVar then Declarator.allNames declarators else []
  match declarators, ← seesForEach with
  | [declarator], some isOf =>
      require (declarator.initializer.isNone && (isOf || !isAwait))
      return hoisted ++ (← readForEach g c isOf)
  | _, _ =>
      require (!isAwait && declarators.all (·.isComplete false))
      expect .semicolon
      return hoisted ++ (← readForRest g c)

/-- Reads a loop head that begins with an expression.  Only a loop that awaits can
begin with `async of`. -/
def readForExpression (g : Grammar) (c : Context) (isAwait : Bool) : Parser (List Text) := do
  let startsAsync ← seesWord "async"
  let asyncOf := startsAsync && (← peek) = some (.word "of" false, false)
  let e ← expression g { c with mayIn := false }
  match ← seesForEach with
  | some isOf =>
      require (e.isTarget && (isOf || !isAwait) && (isAwait || !(asyncOf && e.isName)))
      readForEach g c isOf
  | none =>
      require (!isAwait)
      expect .semicolon
      readForRest g c

def readFor (g : Grammar) (c : Context) : Parser (List Text) := do
  let isAwait ← eatWord "await"
  expect .leftParen
  let c := c.inside
  match ← token with
  | .symbol .semicolon =>
      require (!isAwait)
      advance
      readForRest g c
  | .word name false =>
      if name = "var" then readForDeclaration g c isAwait true
      else if name = "const" || name = "let" then readForDeclaration g c isAwait false
      else readForExpression g c isAwait
  | _ => readForExpression g c isAwait

/-- Reads what follows `break` or `continue`. -/
def readJump (c : Context) (isBreak : Bool) : Parser (List Text) := do
  if (← sees .semicolon) || (← canEnd) then
    require (if isBreak then c.mayBreak else c.mayContinue)
  else
    let label ← reference c
    require ((isBreak || c.mayContinue) && c.labels.contains label)
  semicolon
  return []

def readReturn (g : Grammar) (c : Context) : Parser (List Text) := do
  require c.mayReturn
  if !((← sees .semicolon) || (← canEnd)) then
    let _ ← expression g c.inside
  semicolon
  return []

def readThrow (g : Grammar) (c : Context) : Parser (List Text) := do
  require (!(← newline))
  let _ ← expression g c.inside
  semicolon
  return []

def readTry (g : Grammar) (c : Context) : Parser (List Text) := do
  let body ← readBlock g c
  let hasHandler ← eatWord "catch"
  let handler ←
    if hasHandler then do
      if ← eat .leftParen then
        let _ ← g.pattern c.inside
        expect .rightParen
      readBlock g c
    else pure []
  let hasFinalizer ← eatWord "finally"
  let finalizer ← if hasFinalizer then readBlock g c else pure []
  require (hasHandler || hasFinalizer)
  return body ++ handler ++ finalizer

/-- Reads one more label or statement of a `switch`, or its closing brace.  At most one
branch is the default. -/
def switchStep (g : Grammar) (c : Context) :
    Bool × Bool × List Text → Parser ((Bool × Bool × List Text) ⊕ List Text)
  | (inBranch, hasDefault, hoisted) => do
      if ← eat .rightBrace then return .inr hoisted
      if ← eatWord "case" then
        let _ ← expression g c.inside
        expect .colon
        return .inl (true, hasDefault, hoisted)
      if ← eatWord "default" then
        require (!hasDefault)
        expect .colon
        return .inl (true, true, hoisted)
      require inBranch
      return .inl (inBranch, hasDefault, hoisted ++ (← g.item c))

def readSwitch (g : Grammar) (c : Context) : Parser (List Text) := do
  condition g c
  expect .leftBrace
  repeated (switchStep g { c with mayBreak := true }) (false, false, [])

def readExpressionStatement (g : Grammar) (c : Context) : Parser (List Text) := do
  let _ ← expression g c.inside
  semicolon
  return []

/-- Reads a statement that begins with a name: one with a label, or an expression.
A labelled statement may be left with `break` whether this names the label or not. -/
def readNameStatement (g : Grammar) (c : Context) (name : Text) (quoted : Bool) :
    Parser (List Text) := do
  match ← peek with
  | some (.symbol .colon, _) =>
      require ((quoted || !isReservedWord name) && !c.labels.contains name)
      advance
      expect .colon
      g.statement { c with labels := name :: c.labels, mayBreak := true }
  | _ => readExpressionStatement g c

/-- Reads an expression that begins with `import` as a statement, after which a
semicolon is never needed. -/
def readImportStatement (g : Grammar) (c : Context) : Parser (List Text) := do
  let _ ← expression g c.inside
  let _ ← eat .semicolon
  return []

def readFunctionDeclaration (g : Grammar) (isAsync : Bool) : Parser Text := do
  if isAsync then expectWord "async"
  match ← readFunction g isAsync with
  | some name => return name
  | none => failure

/-- Words that begin a declaration, which is no statement by itself, or cannot begin
a statement at all. -/
def beginsNoStatement (word : Text) : Bool :=
  word == "function" || word == "class" || word == "let" || word == "const" ||
    word == "export" || word == "with"

/-- Reads a statement that begins with a word that is not quoted.  An asynchronous
function may be declared wherever a statement stands. -/
def readWordStatement (g : Grammar) (c : Context) (word : Text) : Parser (List Text) :=
  if word = "var" then do
    advance
    return Declarator.allNames (← readVariables g c false)
  else if word = "if" then do advance; readIf g c
  else if word = "for" then do advance; readFor g c
  else if word = "while" then do advance; readWhile g c
  else if word = "do" then do advance; readDo g c
  else if word = "break" then do advance; readJump c true
  else if word = "continue" then do advance; readJump c false
  else if word = "return" then do advance; readReturn g c
  else if word = "throw" then do advance; readThrow g c
  else if word = "try" then do advance; readTry g c
  else if word = "switch" then do advance; readSwitch g c
  else if word = "import" then readImportStatement g c
  else if word = "debugger" then do
    advance
    semicolon
    return []
  else if beginsNoStatement word then failure
  else do
    if ← seesAsyncFunction then
      let _ ← readFunctionDeclaration g true
      return []
    else readNameStatement g c word false

def readStatement (g : Grammar) (c : Context) : Parser (List Text) := do
  match ← token with
  | .symbol .leftBrace => readBlock g c
  | .symbol .semicolon => advance; return []
  | .word name quoted =>
      if quoted then readNameStatement g c name true else readWordStatement g c name
  | _ => readExpressionStatement g c

def readClassDeclaration (g : Grammar) (c : Context) : Parser Text := do
  match ← readClass g c with
  | some name => return name
  | none => failure

def readItemOrStatement (g : Grammar) (c : Context) : Parser (List Text) := do
  match ← token with
  | .word name false =>
      if name = "let" || name = "const" then
        advance
        let _ ← readVariables g c (name = "const")
        return []
      else if name = "function" then
        let _ ← readFunctionDeclaration g false
        return []
      else if name = "class" then
        let _ ← readClassDeclaration g c
        return []
      else readStatement g c
  | _ => readStatement g c

end Component.Script
