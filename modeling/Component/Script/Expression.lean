/-
The grammar of expressions with operators.
-/
import Component.Script.Primary

namespace Component.Script

open Component.Script.Parser

/-- Reads a property name after a dot, which may be private. -/
def readMemberName : Parser Unit := do
  match ← token with
  | .word .. => advance
  | _ => let _ ← privateName

def readIndex (g : Grammar) (c : Context) : Parser Unit := do
  expect .leftBracket
  let _ ← expression g c.inside
  expect .rightBracket

def readOptional (g : Grammar) (c : Context) : Parser Unit := do
  match ← token with
  | .symbol .leftParen => readArguments g c
  | .symbol .leftBracket => readIndex g c
  | _ => readMemberName

/-- Reads an access, a call or a template that follows an expression.  Once a chain has
a `?.` in it, whose two characters are tokens by themselves, it stays one and takes
no template. -/
def accessStep (g : Grammar) (c : Context) (calls : Bool) :
    Expr × Bool → Parser ((Expr × Bool) ⊕ Expr)
  | (e, chained) => do
      let shape (e : Expr) := if chained then Expr.chain else e
      match e, ← token with
      | .arrow, _ => return .inr e
      | _, .symbol .dot =>
          advance
          readMemberName
          return .inl (shape .member, chained)
      | _, .symbol .leftBracket =>
          readIndex g c
          return .inl (shape .member, chained)
      | _, .symbol .question =>
          match ← peek with
          | some (.symbol .dot, _) =>
              require calls
              advance
              advance
              readOptional g c
              return .inl (.chain, true)
          | _ => return .inr e
      | _, .symbol .leftParen =>
          if calls then
            readArguments g c
            return .inl (shape .value, chained)
          else return .inr e
      | _, .backquote =>
          require (!chained)
          readTemplate g c true
          return .inl (.value, false)
      | _, _ => return .inr e

def readAccesses (g : Grammar) (c : Context) (calls : Bool) (first : Expr) : Parser Expr :=
  repeated (accessStep g c calls) (first, false)

/-- Reads calls and property accesses. -/
def readLeftHandSide (g : Grammar) (c : Context) : Parser Expr := do
  readAccesses g c true (← readPrimary g c true)

/-- Reads what `new` is applied to. -/
def readConstructed (g : Grammar) (c : Context) : Parser Expr := do
  readAccesses g c false (← readPrimary g c false)

/-- Reads an expression after which `++` or `--` may stand. -/
def readPostfix (g : Grammar) (c : Context) : Parser Expr := do
  let e ← readLeftHandSide g c
  match e with
  | .arrow => return e
  | _ =>
      if (← sees .step) && !(← newline) then
        require e.isSimpleTarget
        advance
        return .operation
      else return e

def readAwait (g : Grammar) (c : Context) : Parser Expr := do
  require (c.awaiting ≠ .never)
  advance
  require (c.awaiting = .always || !(← newline))
  let _ ← g.unary c
  return .awaited

def readUnary (g : Grammar) (c : Context) : Parser Expr := do
  match ← token with
  | .symbol .unary => advance; let _ ← g.unary c; return .prefixed
  | .symbol .sign => advance; let _ ← g.unary c; return .prefixed
  | .symbol .step =>
      advance
      require (← readLeftHandSide g c).isSimpleTarget
      return .operation
  | .word name false =>
      if name = "typeof" || name = "void" then
        advance
        let _ ← g.unary c
        return .prefixed
      else if name = "delete" then
        advance
        require (!(← g.unary c).isName)
        return .prefixed
      else if name = "await" then readAwait g c
      else readPostfix g c
  | _ => readPostfix g c

/-- What sets a binary operator apart from others. -/
inductive OperatorKind where
  | plain
  /-- The right operand of `**` is read first, and its left one has no prefix. -/
  | power
  | logical
  | coalesce
deriving Repr, DecidableEq

/-- A binary operator with the level at which it binds. -/
structure Operator where
  level : Nat
  kind : OperatorKind
deriving Repr, DecidableEq

/-- The binary operator that a token is, where `in` may be one. -/
def operator? (c : Context) : Token → Option Operator
  | .symbol symbol =>
      let kind : OperatorKind :=
        match symbol with
        | .coalesce => .coalesce
        | .disjunction | .conjunction => .logical
        | .power => .power
        | _ => .plain
      symbol.level?.map fun level => ⟨level, kind⟩
  | .word name false =>
      if name = "instanceof" || (name = "in" && c.mayIn) then some ⟨7, .plain⟩ else none
  | _ => none

namespace Operator

/-- The level that the operators in the right operand have to exceed. -/
def rightLevel (op : Operator) : Nat := if op.kind = .power then op.level - 1 else op.level

def shape (op : Operator) : Expr :=
  match op.kind with
  | .logical => .logical
  | .coalesce => .coalesce
  | _ => .operation

/-- Whether an expression can be an operand of an operator.  The operator `??` and
the logical ones do not take each other. -/
def accepts (op : Operator) (e : Expr) : Bool :=
  match op.kind, e with
  | .coalesce, .logical => false
  | .logical, .coalesce => false
  | _, _ => true

/-- Whether an expression can be the left operand of an operator. -/
def acceptsLeft (op : Operator) (e : Expr) : Bool :=
  match e with
  | .prefixed | .awaited => op.kind ≠ .power
  | _ => op.accepts e

end Operator

/-- Reads operators that bind more tightly than a level, from left to right. -/
def readBinary (g : Grammar) (level : Nat) (c : Context) : Parser Expr := do
  let first ← readUnary g c
  match first with
  | .arrow => return first
  | _ =>
      repeated (fun left => do
        match operator? c (← token) with
        | some op =>
            if op.level ≤ level then return .inr left
            require (op.acceptsLeft left)
            advance
            require (op.accepts (← g.binary op.rightLevel c))
            return .inl op.shape
        | none => return .inr left) first

/-- Reads an expression that may be a choice between two. -/
def readConditional (g : Grammar) (c : Context) : Parser Expr := do
  let e ← readBinary g 0 c
  match e with
  | .arrow => return e
  | _ =>
      if ← eat .question then
        let _ ← g.assignment c.inside
        expect .colon
        let _ ← g.assignment c
        return .operation
      else return e

/-- Whether an operand of `yield` cannot begin with a token. -/
def endsYield : Token → Bool
  | .symbol symbol =>
      symbol = .rightParen || symbol = .rightBracket || symbol = .rightBrace ||
        symbol = .comma || symbol = .semicolon || symbol = .colon
  | .endOfInput => true
  | _ => false

def readYield (g : Grammar) (c : Context) : Parser Expr := do
  advance
  if (← newline) || endsYield (← token) then return .value
  let _ ← eat .star
  let _ ← g.assignment c
  return .value

/-- Reads an assignment operator that follows an expression and the value after it, if
there is one. -/
def readAssigned (g : Grammar) (c : Context) (e : Expr) : Parser Expr := do
  if e.isComplete then return e
  match ← token with
  | .symbol .assign =>
      require e.isTarget
      advance
      let _ ← g.assignment c
      return .assign e
  | .symbol .update | .symbol .slashAssign =>
      require e.isSimpleTarget
      advance
      let _ ← g.assignment c
      return .value
  | _ => return e

/-- Reads an assignment, or anything that binds more tightly. -/
def readAssignment (g : Grammar) (c : Context) : Parser Expr := do
  let start ← position
  if c.mayYield && (← seesWord "yield") then return ← readYield g c
  modify fun s => { s with arrowStart := some start }
  readAssigned g c (← readConditional g c)

end Component.Script
