/-
The life of a component: code that creates its nodes, mounts them, updates what
they show and detaches them again.
-/
import Component.Code.Basic
import Component.Property
import Component.Table

namespace Component

namespace Lifecycle

open Code

/-- The variable of the factory's mount point. -/
def target : Expr := .name "target"

/-- The variable of the changed values in `update`. -/
def changes : Expr := .name "changes"

/-- The variable at the index of a node, which is that of the node if every node of the
table stands at its index. -/
def nodeName (t : Table) (n : Node) : Expr := .name (t.nodes.getD n.index n).variable

def invoke (object : Expr) (method : String) (arguments : List Expr) : Stmt :=
  .expr (.call (.member object method) arguments)

/-- Sets the variable of a node to a new node of the document. -/
def make (node : Expr) (method : String) (argument : Expr) : Stmt :=
  .expr (.assign node (.call (.member (.name "document") method) [argument]))

def createNode (t : Table) (n : Node) : List Stmt :=
  match n.kind with
  | .element tagName attributes =>
      make (nodeName t n) "createElement" (.string tagName) ::
        attributes.map fun (name, value) =>
          invoke (nodeName t n) "setAttribute" [.string name, .string value]
  | .staticText text => [make (nodeName t n) "createTextNode" (.string text)]
  | .binding property => [make (nodeName t n) "createTextNode" (.name property)]

def addListener (t : Table) (l : Listener) : List Stmt :=
  match t.nodes[l.node]? with
  | some n => [invoke (.name n.variable) "addEventListener" [.string l.event, .raw l.handler]]
  | none => []

/-- The body of `create`: all nodes, then all listeners. -/
def create (t : Table) : List Stmt :=
  t.nodes.flatMap (createNode t) ++ t.listeners.flatMap (addListener t)

/-- The statement that appends a node to another. -/
def append (parent child : Expr) : Stmt := invoke parent "appendChild" [child]

/-- The statements that put together what is inside a node, which lies at most
`depth` levels deep.  A node gets its own children before it is appended. -/
def attach (t : Table) : Nat → Node → List Stmt
  | 0, _ => []
  | depth + 1, n =>
      (t.childrenOf n.index).flatMap fun child =>
        attach t depth child ++ [append (nodeName t n) (nodeName t child)]

/-- The body of `mount`: each root is put together, then all roots are appended to
the mount point. -/
def mount (t : Table) : List Stmt :=
  t.roots.flatMap (attach t t.nodes.length) ++
    t.roots.map fun root => append target (nodeName t root)

/-- The statement that brings the text of a node up to date with a property. -/
def refresh (node : Expr) (property : Text) : Stmt :=
  .ifThen (.contains (.string property) changes)
    [.expr (.assign (.name property) (.member changes property)),
      .expr (.assign (.member node "data") (.name property))]

def update (t : Table) : List Stmt :=
  t.bindings.map fun (n, property) => refresh (nodeName t n) property

def detach (t : Table) : List Stmt :=
  t.roots.map fun root => invoke target "removeChild" [nodeName t root]

/-- Whether what is inside a node lies at most `depth` levels deep. -/
def endsWithin (t : Table) : Nat → Node → Bool
  | 0, _ => false
  | depth + 1, n => (t.childrenOf n.index).all (endsWithin t depth)

/-- Whether the table has a node at every index that occurs in it, and no root leads to a
node inside of itself. -/
def isIndexed (t : Table) : Bool :=
  let inside (index : Nat) : Bool := index < t.nodes.length
  t.nodes.all (fun n => inside n.index && n.parent.all inside) &&
    t.listeners.all (fun l => inside l.node) && t.roots.all (endsWithin t t.nodes.length)

/-- Inserts an item before the first that does not start earlier. -/
def insertByStart {α : Type} (item : Nat × α) : List (Nat × α) → List (Nat × α)
  | [] => [item]
  | next :: more =>
      if item.1 ≤ next.1 then item :: next :: more else next :: insertByStart item more

/-- Orders items by where they start; those that start together keep their order. -/
def orderByStart {α : Type} (items : List (Nat × α)) : List (Nat × α) :=
  items.foldr insertByStart []

/-- The statement that gives a property its default value. -/
def applyDefault (p : Property) (default : Text) : Stmt :=
  .ifThen (.same (.name p.name) (.name "undefined"))
    [.expr (.assign (.name p.name) (.raw default))]

/-- The body of the factory: the statements of the script, and the default values of
the properties where these were declared. -/
def factoryBody (properties : List Property) (statements : List Statement) : List BodyItem :=
  let written := statements.map fun s => (s.span.start, BodyItem.verbatim s.source)
  let defaults := properties.filterMap fun p =>
    p.default.map fun default => (p.span.start, BodyItem.stmt (applyDefault p default))
  (orderByStart (written ++ defaults)).map (·.2)

def methods (t : Table) : List Method :=
  [⟨"create", [], create t⟩, ⟨"mount", [], mount t⟩, ⟨"update", ["changes"], update t⟩,
    ⟨"detach", [], detach t⟩]

def assemble (properties : List Property) (t : Table) (statements : List Statement) :
    Module where
  imports := (statements.filter (·.placement = .moduleScope)).map (·.source)
  properties := properties.map (·.name)
  body := factoryBody properties (statements.filter (·.placement ≠ .moduleScope))
  locals := t.nodes.map Node.variable
  methods := methods t

/-- The code of a component.  There is none for a table with an index that it lacks, or
with a root that the walk of `mount` would not come back from. -/
def emit (properties : List Property) (t : Table) (statements : List Statement) :
    Except Failure Module :=
  if isIndexed t then .ok (assemble properties t statements) else .error .crashed

theorem emit_cases (properties : List Property) (t : Table) (statements : List Statement) :
    emit properties t statements = .ok (assemble properties t statements) ∨
      emit properties t statements = .error .crashed := by
  unfold emit
  split
  · exact .inl rfl
  · exact .inr rfl

theorem emit_eq_ok_iff {properties : List Property} {t : Table}
    {statements : List Statement} {module : Module} :
    emit properties t statements = .ok module ↔
      isIndexed t = true ∧ module = assemble properties t statements := by
  unfold emit
  split
  case isTrue h => rw [Except.ok.injEq, and_iff_right h, eq_comm]
  case isFalse h => exact iff_of_false (fun heq => nomatch heq) (fun hboth => h hboth.1)

end Lifecycle

end Component
