/-
The page that a compiled component works on: its nodes, its variables, and what
the statements of a module do to them.

A node is known by its place in the list of all nodes that were ever made.  Code
that reads a variable without a value, or asks a value for something it does not
have, comes to nothing.
-/
import Component.Code.Basic
import Component.Table

namespace Component

namespace Page

/-- A value that the code of a component works with. -/
inductive Value where
  | text (text : Text)
  | truth (holds : Bool)
  /-- What an object has under a key that it lacks. -/
  | missing
  | document
  | node (id : Nat)
  /-- The argument of `update`. -/
  | changes
  /-- The value of an expression that is kept as written. -/
  | code (source : Text)
deriving Repr, DecidableEq

/-- A node of the page.  A text shows the value that it was given. -/
inductive DomNode where
  | element (tagName : Text) (attributes : List (Text × Text))
      (listeners : List (Text × Value)) (children : List Nat)
  | text (data : Value)
deriving Repr, DecidableEq

namespace DomNode

/-- The nodes directly inside a node. -/
def children : DomNode → List Nat
  | .element _ _ _ children => children
  | .text _ => []

def isElement : DomNode → Bool
  | .element .. => true
  | .text _ => false

def putAttribute (name value : Text) : DomNode → DomNode
  | .element tagName attributes listeners children =>
      .element tagName (setAttribute name value attributes) listeners children
  | .text data => .text data

/-- Adds listeners to an element, after those it has. -/
def listen (more : List (Text × Value)) : DomNode → DomNode
  | .element tagName attributes listeners children =>
      .element tagName attributes (listeners ++ more) children
  | .text data => .text data

/-- Adds children to an element, after those it has. -/
def adopt (more : List Nat) : DomNode → DomNode
  | .element tagName attributes listeners children =>
      .element tagName attributes listeners (children ++ more)
  | .text data => .text data

/-- Takes a child out of an element. -/
def release (child : Nat) : DomNode → DomNode
  | .element tagName attributes listeners children =>
      .element tagName attributes listeners (children.filter (· ≠ child))
  | .text data => .text data

/-- Gives a text new data. -/
def showData (data : Value) : DomNode → DomNode
  | .element tagName attributes listeners children =>
      .element tagName attributes listeners children
  | .text _ => .text data

@[simp] theorem children_putAttribute (name value : Text) (node : DomNode) :
    (node.putAttribute name value).children = node.children := by
  cases node <;> rfl

@[simp] theorem children_listen (more : List (Text × Value)) (node : DomNode) :
    (node.listen more).children = node.children := by
  cases node <;> rfl

@[simp] theorem children_showData (data : Value) (node : DomNode) :
    (node.showData data).children = node.children := by
  cases node <;> rfl

@[simp] theorem children_release (child : Nat) (node : DomNode) :
    (node.release child).children = node.children.filter (· ≠ child) := by
  cases node <;> rfl

theorem mem_children_adopt {more : List Nat} {node : DomNode} {child : Nat}
    (hchild : child ∈ (node.adopt more).children) :
    child ∈ node.children ∨ child ∈ more := by
  cases node with
  | element tagName attributes listeners old =>
      simpa [adopt, DomNode.children] using hchild
  | text data => simp [adopt, DomNode.children] at hchild

@[simp] theorem listen_nil (node : DomNode) : node.listen [] = node := by
  cases node <;> simp [listen]

@[simp] theorem adopt_nil (node : DomNode) : node.adopt [] = node := by
  cases node <;> simp [adopt]

theorem listen_listen (first second : List (Text × Value)) (node : DomNode) :
    (node.listen first).listen second = node.listen (first ++ second) := by
  cases node <;> simp [listen]

theorem adopt_adopt (first second : List Nat) (node : DomNode) :
    (node.adopt first).adopt second = node.adopt (first ++ second) := by
  cases node <;> simp [adopt]

@[simp] theorem isElement_listen (more : List (Text × Value)) (node : DomNode) :
    (node.listen more).isElement = node.isElement := by
  cases node <;> rfl

@[simp] theorem isElement_adopt (more : List Nat) (node : DomNode) :
    (node.adopt more).isElement = node.isElement := by
  cases node <;> rfl

theorem release_of_not_mem {child : Nat} {node : DomNode}
    (hchild : child ∉ node.children) : node.release child = node := by
  cases node with
  | text data => rfl
  | element tagName attributes listeners children =>
      simp only [release, element.injEq, true_and]
      apply List.filter_eq_self.mpr
      intro other hother
      simp only [ne_eq, decide_not, Bool.not_eq_eq_eq_not, Bool.not_true,
        decide_eq_false_iff_not]
      rintro rfl
      exact hchild hother

end DomNode

/-- All nodes of a page; the children of each are nodes of the page. -/
structure Dom where
  nodes : List DomNode
  closed : ∀ node ∈ nodes, ∀ child ∈ node.children, child < nodes.length

namespace Dom

/-- The number of nodes, which is the place of the next one. -/
def size (dom : Dom) : Nat := dom.nodes.length

/-- Adds a node that is inside no other and has nothing inside. -/
def add (dom : Dom) (node : DomNode) (hnode : node.children = []) : Dom where
  nodes := dom.nodes ++ [node]
  closed := by
    intro other hother child hchild
    simp only [List.mem_append, List.mem_singleton] at hother
    simp only [List.length_append, List.length_singleton]
    rcases hother with hold | rfl
    · exact Nat.lt_succ_of_lt (dom.closed other hold child hchild)
    · simp [hnode] at hchild

/-- Changes the nodes of a page; the new children are nodes of the page. -/
def edit (dom : Dom) (change : Nat → DomNode → DomNode)
    (hchange : ∀ id node, ∀ child ∈ (change id node).children,
      child ∈ node.children ∨ child < dom.size) : Dom where
  nodes := dom.nodes.mapIdx change
  closed := by
    intro node hnode child hchild
    obtain ⟨id, hid, rfl⟩ := List.mem_mapIdx.mp hnode
    simp only [List.length_mapIdx]
    rcases hchange id _ child hchild with hold | hnew
    · exact dom.closed _ (List.getElem_mem hid) child hold
    · exact hnew

/-- A change of one node only. -/
def only (id : Nat) (change : DomNode → DomNode) (place : Nat) (node : DomNode) : DomNode :=
  if place = id then change node else node

/-- Changes one node, but not its children. -/
def alter (dom : Dom) (id : Nat) (change : DomNode → DomNode)
    (hchange : ∀ node, (change node).children = node.children) : Dom :=
  dom.edit (only id change) (by
    intro place node child hchild
    by_cases hplace : place = id
    · exact Or.inl (by simpa [only, hplace, hchange] using hchild)
    · exact Or.inl (by simpa [only, hplace] using hchild))

/-- Moves a node to the end of the children of another. -/
def append (dom : Dom) (parent child : Nat) (hchild : child < dom.size) : Dom :=
  dom.edit (fun place node => only parent (·.adopt [child]) place (node.release child)) (by
    intro place node other hother
    by_cases hplace : place = parent
    · simp only [only, hplace, ↓reduceIte] at hother
      rcases DomNode.mem_children_adopt hother with hold | hnew
      · rw [DomNode.children_release] at hold
        exact Or.inl (List.mem_filter.mp hold).1
      · exact Or.inr (by rw [List.mem_singleton.mp hnew]; exact hchild)
    · simp only [only, hplace, ↓reduceIte, DomNode.children_release] at hother
      exact Or.inl (List.mem_filter.mp hother).1)

/-- Takes a node out of the children of another. -/
def remove (dom : Dom) (parent child : Nat) : Dom :=
  dom.edit (only parent (·.release child)) (by
    intro place node other hother
    by_cases hplace : place = parent
    · simp only [only, hplace, ↓reduceIte, DomNode.children_release] at hother
      exact Or.inl (List.mem_filter.mp hother).1
    · exact Or.inl (by simpa [only, hplace] using hother))

theorem get?_edit (dom : Dom) (change : Nat → DomNode → DomNode)
    (hchange : ∀ id node, ∀ child ∈ (change id node).children,
      child ∈ node.children ∨ child < dom.size) (place : Nat) :
    (dom.edit change hchange).nodes[place]? = dom.nodes[place]?.map (change place) := by
  simp [edit]

theorem get?_alter (dom : Dom) (id : Nat) (change : DomNode → DomNode)
    (hchange : ∀ node, (change node).children = node.children) (place : Nat) :
    (dom.alter id change hchange).nodes[place]? = dom.nodes[place]?.map (only id change place) :=
  get?_edit _ _ _ _

/-- A node that is inside no other is only added when it is moved. -/
theorem get?_append_of_detached (dom : Dom) (parent child : Nat) (hchild : child < dom.size)
    (hdetached : ∀ node ∈ dom.nodes, child ∉ node.children) (place : Nat) :
    (dom.append parent child hchild).nodes[place]? =
      dom.nodes[place]?.map (only parent (·.adopt [child]) place) := by
  rw [append, get?_edit]
  cases hnode : dom.nodes[place]? with
  | none => rfl
  | some node =>
      have hfree := hdetached node (List.mem_of_getElem? hnode)
      simp [DomNode.release_of_not_mem hfree]

end Dom

/-- The methods that the code of a component calls. -/
inductive Method where
  | createElement
  | createTextNode
  | setAttribute
  | addEventListener
  | appendChild
  | removeChild
deriving Repr, DecidableEq

def Method.named : List (Text × Method) :=
  [("createElement", .createElement), ("createTextNode", .createTextNode),
    ("setAttribute", .setAttribute), ("addEventListener", .addEventListener),
    ("appendChild", .appendChild), ("removeChild", .removeChild)]

end Page

/-- A page with the variables of a component. -/
structure Page where
  dom : Page.Dom
  /-- The value of a variable, once it has one. -/
  scope : Text → Option Page.Value
  /-- What the argument of `update` has under a key. -/
  changes : Text → Option Page.Value

namespace Page

open Code

def assign (p : Page) (name : Text) (value : Value) : Page :=
  { p with scope := fun other => if other = name then some value else p.scope other }

def make (p : Page) (node : DomNode) (hnode : node.children = []) : Value × Page :=
  (.node p.dom.size, { p with dom := p.dom.add node hnode })

def hasElement (p : Page) (id : Nat) : Bool := p.dom.nodes[id]?.any DomNode.isElement

/-- Calls a method of the document or of a node. -/
def invoke (p : Page) : Value → Method → List Value → Option (Value × Page)
  | .document, .createElement, [.text tagName] => some (p.make (.element tagName [] [] []) rfl)
  | .document, .createTextNode, [data] => some (p.make (.text data) rfl)
  | .node id, .setAttribute, [.text name, .text value] =>
      if p.hasElement id then
        some (.missing, { p with
          dom := p.dom.alter id (·.putAttribute name value) (by simp) })
      else none
  | .node id, .addEventListener, [.text event, handler] =>
      if p.hasElement id then
        some (.missing, { p with dom := p.dom.alter id (·.listen [(event, handler)]) (by simp) })
      else none
  | .node id, .appendChild, [.node child] =>
      if hchild : child < p.dom.size then
        if p.hasElement id then
          some (.node child, { p with dom := p.dom.append id child hchild })
        else none
      else none
  | .node id, .removeChild, [.node child] =>
      if p.dom.nodes[id]?.any (·.children.contains child) then
        some (.node child, { p with dom := p.dom.remove id child })
      else none
  | _, _, _ => none

/-- The value that an object has under a key. -/
def property (p : Page) (key : Text) : Value → Option Value
  | .changes => some ((p.changes key).getD .missing)
  | _ => none

/-- Sets what an object has under a key. -/
def setProperty (p : Page) (key : Text) (value : Value) : Value → Option Page
  | .node id =>
      if key = "data" then some { p with dom := p.dom.alter id (·.showData value) (by simp) }
      else none
  | _ => none

mutual

/-- The value of an expression, and the page afterwards. -/
def eval : Expr → Page → Option (Value × Page)
  | .name name, p => (p.scope name).map fun value => (value, p)
  | .string value, p => some (.text value, p)
  | .raw text, p => some (.code text, p)
  | .member object key, p => do
      let (object, p) ← eval object p
      let value ← p.property key object
      some (value, p)
  | .call (.member object method) arguments, p => do
      let (object, p) ← eval object p
      let (arguments, p) ← evalAll arguments p
      let method ← Method.named.lookup method
      p.invoke object method arguments
  | .call _ _, _ => none
  | .assign (.name name) value, p => do
      let (value, p) ← eval value p
      some (value, p.assign name value)
  | .assign (.member object key) value, p => do
      let (object, p) ← eval object p
      let (value, p) ← eval value p
      let p ← p.setProperty key value object
      some (value, p)
  | .assign _ _, _ => none
  | .contains key object, p => do
      let (key, p) ← eval key p
      let (object, p) ← eval object p
      match key, object with
      | .text key, .changes => some (.truth (p.changes key).isSome, p)
      | _, _ => none
  | .same left right, p => do
      let (left, p) ← eval left p
      let (right, p) ← eval right p
      some (.truth (left = right), p)

def evalAll : List Expr → Page → Option (List Value × Page)
  | [], p => some ([], p)
  | e :: more, p => do
      let (value, p) ← eval e p
      let (values, p) ← evalAll more p
      some (value :: values, p)

end

mutual

def exec : Stmt → Page → Option Page
  | .expr e, p => (eval e p).map (·.2)
  | .ifThen test body, p => do
      let (value, p) ← eval test p
      match value with
      | .truth true => execAll body p
      | .truth false => some p
      | _ => none

def execAll : List Stmt → Page → Option Page
  | [], p => some p
  | s :: more, p => (exec s p).bind (execAll more)

end

/-- The page after a call of a method of a component. -/
def run (m : Module) (method : Text) (p : Page) : Option Page :=
  (m.methods.find? (·.name = method)).bind fun found => execAll found.body p

theorem execAll_append (first second : List Stmt) (p : Page) :
    execAll (first ++ second) p = (execAll first p).bind (execAll second) := by
  induction first generalizing p with
  | nil => rfl
  | cons s more ih =>
      simp only [List.cons_append, execAll]
      cases exec s p with
      | none => rfl
      | some next => exact ih next

end Page

end Component
