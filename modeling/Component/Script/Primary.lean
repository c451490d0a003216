/-
The grammar of primary expressions: literals, names, brackets and the words
that begin an expression.
-/
import Component.Script.Class

namespace Component.Script

open Component.Script.Parser

/-- Reads a regular expression whose first slash is the next token. -/
def readPatternLiteral : Parser Expr := do
  let here := (← get).next.here
  let after ← (afterPattern here.rest.tail : Option Text)
  resume (here.past (consumed here.rest after) after)
  return .value

/-- Reads a template whose first backquote is the next token.  Only a template with
a tag may hold malformed escapes. -/
def readTemplate (g : Grammar) (c : Context) (tagged : Bool) : Parser Unit := do
  repeated (fun here => do
    let chunk ← (readTemplateChunk (here.rest.length + 1) true here.rest : Option TemplateChunk)
    require (tagged || chunk.valid)
    resume (here.past (consumed here.rest chunk.after) chunk.after)
    if chunk.last then return .inr ()
    let _ ← expression g c.inside
    require (← sees .rightBrace)
    return .inl (← get).next.after) (← get).next.after

/-- Reads one more item of an array or object literal, or the end of the literal.  A
comma after a spread item adds a hole. -/
def itemsStep (closing : Symbol) (holes : Bool) (item : Parser Expr) (items : List Expr) :
    Parser (List Expr ⊕ List Expr) := do
  if ← eat closing then return .inr items
  if holes && (← sees .comma) then
    advance
    return .inl items
  let next ← item
  if ← eat closing then return .inr (items ++ [next])
  expect .comma
  match next with
  | .spread _ => return .inl (items ++ [next, .hole])
  | _ => return .inl (items ++ [next])

def readItems (closing : Symbol) (holes : Bool) (item : Parser Expr) : Parser (List Expr) :=
  repeated (itemsStep closing holes item) []

def readItem (g : Grammar) (c : Context) : Parser Expr := do
  if ← eat .ellipsis then return .spread (← g.assignment c.inside)
  else g.assignment c.inside

def readArguments (g : Grammar) (c : Context) : Parser Unit := do
  expect .leftParen
  let _ ← listUntil .rightParen (readItem g c)

/-- Reads a property of an object literal from what follows its key. -/
def readValue (g : Grammar) (c : Context) : Parser Expr := do
  if ← eat .colon then g.assignment c.inside
  else
    let _ ← readCallable g (.method false false)
    return .value

/-- Reads a property of an object literal after a word that is its key.  A property
that is only a name may be any word. -/
def readNamedProperty (g : Grammar) (c : Context) : Parser Expr := do
  if (← sees .colon) || (← sees .leftParen) then readValue g c
  else if ← eat .assign then
    let _ ← g.assignment c.inside
    return .shorthandDefault
  else return .shorthand

/-- Reads a method of an object literal from its key on. -/
def readObjectMethod (g : Grammar) (c : Context) (isAsync isGenerator : Bool) : Parser Expr := do
  let _ ← readKey g c
  let _ ← readCallable g (.method isAsync isGenerator)
  return .value

/-- Reads an accessor of an object literal, or a property that has its name. -/
def readObjectAccessor (g : Grammar) (c : Context) (word : String) (accessor : Accessor) :
    Parser (Option Expr) := do
  match ← modifier word false false with
  | some true =>
      let _ ← readKey g c
      readAccessor g accessor
      return some .value
  | some false => return some (← readNamedProperty g c)
  | none => return none

def readProperty (g : Grammar) (c : Context) : Parser Expr := do
  if ← eat .ellipsis then return .spread (← g.assignment c.inside)
  if ← eat .star then return ← readObjectMethod g c false true
  match ← modifier "async" true false with
  | some true =>
      let isGenerator ← eat .star
      readObjectMethod g c true isGenerator
  | some false => readNamedProperty g c
  | none =>
      if let some e ← readObjectAccessor g c "get" .getter then return e
      if let some e ← readObjectAccessor g c "set" .setter then return e
      match ← token with
      | .word .. => advance; readNamedProperty g c
      | _ =>
          let _ ← readKey g c
          readValue g c

/-- Reads an arrow after an item in parentheses, which may stand on a later line.
It makes an arrow function of the items if the first one is a name, and means
nothing otherwise. -/
def readItemArrow (g : Grammar) (c : Context) (items : List Expr) : Parser (List Expr) := do
  if ← sees .arrow then
    if items.head?.any fun e => e.unspread.isName then
      require (Expr.areParameters items)
      return items ++ [← readArrowBody g c.inside false (items.all Expr.isName) false]
    else
      advance
      return items
  else return items

/-- Reads the items of parentheses that may hold the parameters of an arrow function,
after the opening one.  A comma after a spread item adds a hole. -/
def readParenItems (g : Grammar) (c : Context) : Parser (List Expr) :=
  repeated (fun items => do
    if ← eat .rightParen then return .inr items
    let next ← readItem g c
    let items ← readItemArrow g c (items ++ [next])
    if ← eat .rightParen then return .inr items
    expect .comma
    match next with
    | .spread _ => return .inl (items ++ [.hole])
    | _ => return .inl items) []

/-- Reads what is left of parentheses after the opening one, and an arrow function
if an arrow follows them.  The items are given if there is none; then no item is
an object literal that only a pattern can be. -/
def readParenthesized (g : Grammar) (c : Context) (isAsync mayArrow : Bool) :
    Parser (Expr ⊕ List Expr) := do
  let items ← readParenItems g c
  if ← sees .arrow then
    require (mayArrow && !(← newline) && Expr.areParameters items)
    return .inl (← readArrowBody g c isAsync (items.all Expr.isName) true)
  else
    require (!items.any fun e => e.unspread.hasShorthandDefault)
    return .inr items

/-- Reads parentheses: around expressions, or around the parameters of an arrow
function. -/
def readParens (g : Grammar) (c : Context) : Parser Expr := do
  let mayArrow := (← get).arrowStart = some (← position)
  expect .leftParen
  match ← readParenthesized g c false mayArrow with
  | .inl e => return e
  | .inr items =>
      require (!items.isEmpty && !items.any (· matches .spread _))
      match items with
      | [e] => return .parens e
      | _ => return .value

/-- Reads a name, or an arrow function with a single parameter. -/
def readName (g : Grammar) (c : Context) : Parser Expr := do
  let mayArrow := (← get).arrowStart = some (← position)
  let name ← reference c
  if mayArrow && (← sees .arrow) && !(← newline) then
    require (!isFixedName name)
    readArrowBody g c false true false
  else return .name name

/-- Reads what begins with `async`: a function, an arrow function, or a name. -/
def readAsync (g : Grammar) (c : Context) : Parser Expr := do
  let mayArrow := (← get).arrowStart = some (← position)
  match ← peek with
  | some (.word name quoted, false) =>
      if name = "function" && !quoted then
        advance
        let _ ← readFunction g true
        return .value
      else if mayArrow then
        advance
        match ← peek with
        | some (.symbol .arrow, _) =>
            let _ ← bindingName
            readArrowBody g c true true false
        | _ => return .name "async"
      else readName g c
  | some (.symbol .leftParen, false) =>
      if mayArrow then
        advance
        expect .leftParen
        match ← readParenthesized g c true true with
        | .inl e => return e
        | .inr _ => return .value
      else readName g c
  | _ => readName g c

def readNew (g : Grammar) (c : Context) : Parser Expr := do
  expectWord "new"
  if ← eat .dot then
    expectWord "target"
    require c.mayNewTarget
    return .value
  let _ ← g.constructed c
  if ← sees .leftParen then readArguments g c
  return .value

/-- Reads what begins with `import` inside an expression. -/
def readImport (g : Grammar) (c : Context) : Parser Expr := do
  expectWord "import"
  if ← eat .dot then
    if ← eatWord "meta" then return .value
    require ((← eatWord "defer") || (← eatWord "source"))
  readArguments g c
  return .value

/-- Reads `super`, which only a call or a property access may follow. -/
def readSuper (c : Context) (calls : Bool) : Parser Expr := do
  expectWord "super"
  match ← token with
  | .symbol .leftParen => require calls
  | .symbol .leftBracket => require c.maySuper
  | .symbol .dot =>
      match ← peek with
      | some (.word .., _) => require c.maySuper
      | _ => failure
  | _ => failure
  return .value

def readWordExpression (g : Grammar) (c : Context) (calls : Bool) (word : Text) : Parser Expr :=
  if word = "function" then do
    let _ ← readFunction g false
    return .value
  else if word = "class" then do
    let _ ← readClass g c
    return .value
  else if word = "new" then readNew g c
  else if word = "import" then readImport g c
  else if word = "super" then readSuper c calls
  else if word = "async" then readAsync g c
  else if word = "this" || word = "null" || word = "true" || word = "false" then do
    advance
    return .value
  else readName g c

/-- Reads a primary expression; `calls` says whether it may be called. -/
def readPrimary (g : Grammar) (c : Context) (calls : Bool) : Parser Expr := do
  match ← token with
  | .number => advance; return .value
  | .string .. => advance; return .value
  | .backquote => readTemplate g c false; return .value
  | .symbol .slash => readPatternLiteral
  | .symbol .slashAssign => readPatternLiteral
  | .symbol .leftParen => readParens g c
  | .symbol .hash =>
      let _ ← privateName
      return .value
  | .symbol .leftBracket =>
      advance
      return .array (← readItems .rightBracket true (readItem g c))
  | .symbol .leftBrace =>
      advance
      return .object (← readItems .rightBrace false (readProperty g c))
  | .word name quoted =>
      if quoted then readName g c else readWordExpression g c calls name
  | _ => failure

end Component.Script
