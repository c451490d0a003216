/-
Parsers of scripts: the state they share, their small steps, and the table of
parsers through which the rules of the grammar refer to one another.
-/
import Component.Script.Expr
import Component.Script.Lexer
import Component.Script.Pattern

namespace Component.Script

/-- A place in a script, before a token. -/
structure State where
  /-- The script after the token before. -/
  ahead : Input
  next : Lexeme
  lexed : readLexeme ahead = some next
  /-- Where an arrow function may begin. -/
  arrowStart : Option Nat
deriving Repr

/-- A parser reads tokens and gives a result, or nothing if they do not fit. -/
abbrev Parser := StateT State Option

/-- Where `await` may stand. -/
inductive Awaiting where
  | never
  /-- On the line on which its operand begins, as outside of every function. -/
  | inLine
  | always
deriving Repr, DecidableEq

/-- What the surroundings of a rule allow. -/
structure Context where
  /-- `in` may be used as an operator. -/
  mayIn : Bool
  mayYield : Bool
  awaiting : Awaiting
  mayReturn : Bool
  mayNewTarget : Bool
  /-- `super` may be used to reach a property. -/
  maySuper : Bool
  /-- The name `arguments` may be used. -/
  mayArguments : Bool
  mayBreak : Bool
  mayContinue : Bool
  /-- The labels of the statements around. -/
  labels : List Text
deriving Repr

/-- The top level of a module. -/
def Context.module : Context :=
  ⟨true, false, .inLine, false, false, false, true, false, false, []⟩

/-- The inside of brackets, where `in` is an operator again. -/
def Context.inside (c : Context) : Context := { c with mayIn := true }

/-- How a function may await. -/
def Awaiting.ofFunction (isAsync : Bool) : Awaiting := if isAsync then .always else .never

/-- The body of a function. -/
def Context.function (isAsync isGenerator : Bool) : Context :=
  ⟨true, isGenerator, .ofFunction isAsync, true, true, false, true, false, false, []⟩

/-- The body of a method. -/
def Context.method (isAsync isGenerator : Bool) : Context :=
  { Context.function isAsync isGenerator with maySuper := true }

/-- The parameters of a function: they can neither yield nor await. -/
def Context.parameters (c : Context) : Context := { c with mayYield := false, awaiting := .never }

/-- The body of an arrow function, which shares much with its surroundings. -/
def Context.arrow (c : Context) (isAsync : Bool) : Context :=
  { c with
    mayYield := false
    awaiting := .ofFunction isAsync
    mayReturn := true
    mayBreak := false
    mayContinue := false
    labels := [] }

/-- A class, in which `new.target` has a meaning everywhere. -/
def Context.inClass (c : Context) : Context := { c with mayNewTarget := true }

/-- The key of a class member. -/
def Context.member (c : Context) : Context := { c.inClass with maySuper := true }

/-- The initializer of a field or the block that sets up a class.  Both run as part
of their surroundings, so they may await and yield where these may. -/
def Context.field (c : Context) : Context := { c.member with mayIn := true, mayArguments := false }

/-- The body of a loop. -/
def Context.loop (c : Context) : Context := { c with mayBreak := true, mayContinue := true }

/-- The parsers that the rules of the grammar refer to.  Expressions give their
shape; statements give the variables they hoist to the enclosing function. -/
structure Grammar where
  assignment : Context → Parser Expr
  unary : Context → Parser Expr
  /-- Operators that bind more tightly than a level. -/
  binary : Nat → Context → Parser Expr
  /-- Calls and property accesses. -/
  leftHandSide : Context → Parser Expr
  /-- What `new` is applied to. -/
  constructed : Context → Parser Expr
  pattern : Context → Parser Pattern
  /-- A declaration or a statement. -/
  item : Context → Parser (List Text)
  statement : Context → Parser (List Text)

namespace Parser

/-- Succeeds if a condition holds. -/
def require (condition : Bool) : Parser Unit := if condition then pure () else failure

def token : Parser Token := do return (← get).next.token

/-- Where the next token begins. -/
def position : Parser Nat := do return (← get).next.here.offset

/-- Where the token before ends. -/
def previous : Parser Nat := do return (← get).ahead.offset

/-- Whether a line ends before the next token. -/
def newline : Parser Bool := do return (← get).next.newline

/-- Goes on with the token at a place. -/
def resume (i : Input) : Parser Unit := fun s =>
  match h : readLexeme i with
  | some next => some ((), { s with ahead := i, next, lexed := h })
  | none => none

def advance : Parser Unit := do resume (← get).next.after

/-- The token after the next one and whether a line ends before it; nothing if the
text there is no token. -/
def peek : Parser (Option (Token × Bool)) := do
  return (readLexeme (← get).next.after).map fun l => (l.token, l.newline)

def sees (symbol : Symbol) : Parser Bool := do return (← token) = .symbol symbol

/-- Whether the next token is a word that is not quoted. -/
def seesWord (word : String) : Parser Bool := do return (← token) = .word word.toList false

def eat (symbol : Symbol) : Parser Bool := do
  if ← sees symbol then advance; return true else return false

def eatWord (word : String) : Parser Bool := do
  if ← seesWord word then advance; return true else return false

def expect (symbol : Symbol) : Parser Unit := do require (← eat symbol)

def expectWord (word : String) : Parser Unit := do require (← eatWord word)

/-- Whether a statement may end here without a semicolon. -/
def canEnd : Parser Bool := do
  return (← newline) || (← sees .rightBrace) || (← token) = .endOfInput

/-- Ends a statement, with a semicolon or where it may be left out. -/
def semicolon : Parser Unit := do
  if ← eat .semicolon then return
  require (← canEnd)

/-- Repeats a step until it gives a result, at most `steps` times. -/
def iterate {α β : Type} (step : α → Parser (α ⊕ β)) : Nat → α → Parser β
  | 0, _ => failure
  | steps + 1, a => do
      match ← step a with
      | .inl a => iterate step steps a
      | .inr b => return b

/-- Repeats a step until it gives a result.  A step that goes on reads at least one
token, so the length of the script that is left bounds their number. -/
def repeated {α β : Type} (step : α → Parser (α ⊕ β)) (a : α) : Parser β := do
  iterate step ((← get).ahead.rest.length + 2) a

/-- Reads one more item and the comma after it, or the closing symbol. -/
def listStep {α : Type} (closing : Symbol) (item : Parser α) (items : List α) :
    Parser (List α ⊕ List α) := do
  if ← eat closing then return .inr items
  let items := items ++ [← item]
  if ← eat closing then return .inr items
  expect .comma
  return .inl items

/-- Reads items up to a closing symbol, with commas between them and perhaps one at
the end. -/
def listUntil {α : Type} (closing : Symbol) (item : Parser α) : Parser (List α) :=
  repeated (listStep closing item) []

def reference (c : Context) : Parser Text := do
  match ← token with
  | .word name quoted =>
      require ((quoted || !isReservedWord name) && (c.mayArguments || name != "arguments"))
      advance
      return name
  | _ => failure

/-- Reads a name that is being bound. -/
def bindingName : Parser Text := do
  match ← token with
  | .word name quoted =>
      require ((quoted || !isReservedWord name) && !isFixedName name)
      advance
      return name
  | _ => failure

/-- Reads a private name, whose mark may stand apart from it. -/
def privateName : Parser Text := do
  expect .hash
  match ← token with
  | .word name _ => advance; return name
  | _ => failure

/-- Reads expressions separated by commas, and gives the shape of the last one if
there is only one. -/
def expression (g : Grammar) (c : Context) : Parser Expr := do
  let first ← g.assignment c
  if ← sees .comma then
    repeated (fun _ => do
      if ← eat .comma then
        let _ ← g.assignment c
        return .inl ()
      else return .inr ()) ()
    return .value
  else return first

def condition (g : Grammar) (c : Context) : Parser Unit := do
  expect .leftParen
  let _ ← expression g c.inside
  expect .rightParen

end Parser

end Component.Script
