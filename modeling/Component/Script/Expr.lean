/-
Expressions, as far as later decisions of the grammar depend on them.

The same text can be a value, the target of an assignment or the parameters of
an arrow function, and only what follows tells which.  An `Expr` keeps what is
needed to reinterpret it.
-/
import Component.Script.Word

namespace Component.Script

/-- The shape of an expression. -/
inductive Expr where
  | name (text : Text)
  /-- A property access. -/
  | member
  /-- An access or call that contains `?.`. -/
  | chain
  /-- An array literal; a comma after a spread element adds a hole. -/
  | array (elements : List Expr)
  /-- An object literal, by its properties; a comma after a spread one adds a hole. -/
  | object (properties : List Expr)
  /-- An assignment with `=`, by its left side. -/
  | assign (left : Expr)
  /-- A property that is only a name. -/
  | shorthand
  /-- A property that is only a name with a default value. -/
  | shorthandDefault
  | spread (inner : Expr)
  | hole
  /-- An expression in parentheses. -/
  | parens (inner : Expr)
  | arrow
  /-- A prefix operator and its operand. -/
  | prefixed
  /-- `await` and its operand. -/
  | awaited
  /-- The operators that `??` cannot be mixed with. -/
  | logical
  | coalesce
  /-- Any other operator with its operands. -/
  | operation
  /-- Any other expression. -/
  | value
deriving Repr

namespace Expr

/-- An expression without the mark that spreads it. -/
def unspread : Expr → Expr
  | .spread inner => inner
  | e => e

/-- Whether an expression is an object literal with a default value of its own, as
only a pattern has. -/
def hasShorthandDefault : Expr → Bool
  | .object properties => properties.any (· matches .shorthandDefault)
  | _ => false

/-- Whether an expression ends before an assignment operator, which then begins
something else or has no place. -/
def isComplete : Expr → Bool
  | .arrow | .prefixed | .logical | .coalesce | .operation => true
  | _ => false

/-- Whether an expression can be assigned to and is no pattern. -/
def isSimpleTarget : Expr → Bool
  | .name n => !isFixedName n
  | .member => true
  | .parens inner => inner.isSimpleTarget
  | _ => false

mutual

/-- Whether an expression can stand to the left of `=`. -/
def isTarget : Expr → Bool
  | .name n => !isFixedName n
  | .member => true
  | .parens inner => inner.isSimpleTarget
  | .array elements => areTargets elements
  | .object properties => areTargets properties
  | _ => false

/-- Whether an expression can be assigned to as part of a pattern, where it may
have a default value. -/
def isPartTarget : Expr → Bool
  | .assign _ => true
  | .shorthand => true
  | .shorthandDefault => true
  | .hole => true
  | .name n => !isFixedName n
  | .member => true
  | .parens inner => inner.isSimpleTarget
  | .array elements => areTargets elements
  | .object properties => areTargets properties
  | _ => false

/-- Whether the parts of an array or object literal form a pattern; only the last
can take all that is left. -/
def areTargets : List Expr → Bool
  | [] => true
  | .spread inner :: more => inner.isTarget && more.isEmpty
  | e :: more => e.isPartTarget && areTargets more

end

mutual

/-- Whether an expression can be a parameter.  A pattern with a default value has
been read as an assignment, and stays the pattern that this assigns to. -/
def isParameter : Expr → Bool
  | .assign (.array _) => true
  | .assign (.object _) => true
  | .assign left => left.isParameter
  | .shorthand => true
  | .shorthandDefault => true
  | .hole => true
  | .name n => !isFixedName n
  | .array elements => areParameters elements
  | .object properties => arePropertyParameters properties
  | _ => false

/-- Whether expressions can be parameters, or the elements of an array pattern; only
the last can take all that is left. -/
def areParameters : List Expr → Bool
  | [] => true
  | .spread (.assign _) :: _ => false
  | .spread inner :: more => inner.isParameter && more.isEmpty
  | e :: more => e.isParameter && areParameters more

/-- Whether the properties of an object literal form a pattern of a parameter. -/
def arePropertyParameters : List Expr → Bool
  | [] => true
  | .spread (.name n) :: more => !isFixedName n && more.isEmpty
  | .spread _ :: _ => false
  | e :: more => e.isParameter && arePropertyParameters more

end

def isName : Expr → Bool
  | .name _ => true
  | _ => false

end Expr

end Component.Script
