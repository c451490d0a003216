/-
The code of a compiled component: a module whose factory returns an object with
four methods.
-/
import Component.Text.Basic

namespace Component.Code

/-- An expression. -/
inductive Expr where
  | name (text : Text)
  | string (value : Text)
  /-- Text of the source, as written. -/
  | raw (text : Text)
  | member (object : Expr) (property : Text)
  | call (callee : Expr) (arguments : List Expr)
  | assign (target value : Expr)
  /-- Whether an object has a key. -/
  | contains (key object : Expr)
  /-- Whether two values are the same. -/
  | same (left right : Expr)
deriving Repr, Inhabited

/-- A statement. -/
inductive Stmt where
  | expr (expr : Expr)
  | ifThen (test : Expr) (body : List Stmt)
deriving Repr, Inhabited

/-- A statement of the factory. -/
inductive BodyItem where
  /-- A statement of the script, as written. -/
  | verbatim (source : Text)
  | stmt (stmt : Stmt)
deriving Repr

/-- A method of the object that the factory returns. -/
structure Method where
  name : Text
  parameters : List Text
  body : List Stmt
deriving Repr

/-- A compiled component. -/
structure Module where
  /-- Statements above the factory, as written. -/
  imports : List Text
  /-- The properties taken from the argument of the factory. -/
  properties : List Text
  /-- The statements of the factory, in the order of the script. -/
  body : List BodyItem
  /-- The variables that hold the nodes. -/
  locals : List Text
  methods : List Method
deriving Repr

end Component.Code
