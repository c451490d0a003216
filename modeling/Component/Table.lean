/-
The node table: every node the compiled component makes at run time, numbered
in document order, with the listeners attached to elements.

Comments make no nodes, and neither does whitespace outside of all elements.
The body of a script or style element is one static text, kept as written.
-/
import Component.Markup.Node
import Component.Markup.Reference
import Component.Segment

namespace Component

/-- What a node of the table is. -/
inductive NodeKind where
  /-- An element with its plain attributes, in the order of the source. -/
  | element (tagName : Text) (attributes : List (Text × Text))
  | staticText (text : Text)
  /-- A text that shows the value of a property. -/
  | binding (property : Text)
deriving Repr, DecidableEq

/-- A node of the table; one without a parent is a root. -/
structure Node where
  index : Nat
  parent : Option Nat
  kind : NodeKind
  span : Span
deriving Repr, DecidableEq

/-- The letter that the variable of a node begins with. -/
def NodeKind.letter : NodeKind → Char
  | .element .. => 'e'
  | .staticText _ => 't'
  | .binding _ => 'b'

/-- The variable that holds a node in the compiled module. -/
def Node.variable (n : Node) : Text := n.kind.letter :: Nat.toDigits 10 n.index

/-- An event that an element listens to. -/
structure Listener where
  node : Nat
  event : Text
  /-- The handler expression, as written. -/
  handler : Text
  span : Span
deriving Repr, DecidableEq

/-- The nodes and listeners of a component. -/
structure Table where
  nodes : List Node
  listeners : List Listener
deriving Repr, DecidableEq

namespace Table

/-- The table of a component without markup. -/
def empty : Table := ⟨[], []⟩

/-- The nodes outside of all elements. -/
def roots (t : Table) : List Node := t.nodes.filter (·.parent.isNone)

/-- The nodes directly inside the element at an index. -/
def childrenOf (t : Table) (index : Nat) : List Node := t.nodes.filter (·.parent == some index)

/-- The nodes that show properties, with the names of these. -/
def bindings (t : Table) : List (Node × Text) :=
  t.nodes.filterMap fun n =>
    match n.kind with
    | .binding property => some (n, property)
    | _ => none

/-- Keeps the first use of every name that is not already in `seen`. -/
def freshNames (seen : List Text) : List Text → List Text
  | [] => []
  | name :: more =>
      if name ∈ seen then freshNames seen more
      else name :: freshNames (name :: seen) more

/-- The names that bindings refer to, each once, in the order of first use. -/
def referenced (t : Table) : List Text := freshNames [] (t.bindings.map (·.2))

def add (t : Table) (parent : Option Nat) (kind : NodeKind) (span : Span) : Table :=
  { t with nodes := t.nodes ++ [⟨t.nodes.length, parent, kind, span⟩] }

def addSegment (parent : Option Nat) (t : Table) : Segment → Table
  | .literal text span => t.add parent (.staticText (Markup.Reference.decode text)) span
  | .binding name span => t.add parent (.binding name) span

/-- Adds a node that is a text of a raw-text element. -/
def addRawText (parent : Nat) (t : Table) : Markup.Node → Table
  | .text span data _ => t.add (some parent) (.staticText data) span
  | _ => t

end Table

/-- The name of the event, if an attribute is a listener. -/
def eventName? : Text → Option Text
  | 'o' :: 'n' :: ':' :: event => some event
  | _ => none

theorem eventName?_eq_some {name event : Text} (h : eventName? name = some event) :
    name = 'o' :: 'n' :: ':' :: event := by
  unfold eventName? at h
  split at h
  · rw [Option.some.inj h]
  · cases h

theorem eventName?_eq_none {name : Text} (h : eventName? name = none) :
    ¬ ['o', 'n', ':'] <+: name := by
  rintro ⟨event, rfl⟩
  cases h

/-- The listener that an attribute declares. -/
def readListener (node : Nat) (event : Text) (a : Markup.Attribute) : Except Error Listener :=
  let handler :=
    match a.value with
    | .absent => []
    | .text _ value => Text.trim (Markup.Reference.decode value)
    | .expression _ _ value => value.trim
  if event.isEmpty then .error ⟨.invalidListener a.name .missingEvent, a.span⟩
  else if handler.isEmpty then .error ⟨.invalidListener a.name .missingHandler, a.span⟩
  else .ok ⟨node, event, handler, a.span⟩

/-- The value of a plain attribute, which is always the same. -/
def readPlainValue (a : Markup.Attribute) : Except Error Text :=
  match a.value with
  | .absent => .ok []
  | .text _ value => .ok (Markup.Reference.decode value)
  | .expression .. => .error ⟨.dynamicAttribute a.name, a.span⟩

/-- Sets an attribute; a new one comes last. -/
def setAttribute (name value : Text) : List (Text × Text) → List (Text × Text)
  | [] => [(name, value)]
  | (n, v) :: more =>
      if n = name then (n, value) :: more else (n, v) :: setAttribute name value more

/-- Sorts the attributes of an element into plain ones and listeners. -/
def readElementAttributes (node : Nat) :
    List Markup.Attribute → List (Text × Text) × List Listener →
      Except Error (List (Text × Text) × List Listener)
  | [], known => .ok known
  | a :: more, (plain, listeners) =>
      match eventName? a.name with
      | some event =>
          match readListener node event a with
          | .ok listener => readElementAttributes node more (plain, listeners ++ [listener])
          | .error e => .error e
      | none =>
          match readPlainValue a with
          | .ok value =>
              readElementAttributes node more (setAttribute a.name value plain, listeners)
          | .error e => .error e

/-- Whether the body of an element is kept as written. -/
def keepsText (name : Text) : Bool := name.eqIgnoreCase "script" || name.eqIgnoreCase "style"

mutual

def Table.addMarkup (parent : Option Nat) (t : Table) : Markup.Node → Except Error Table
  | .element span name attributes children _ =>
      let index := t.nodes.length
      match readElementAttributes index attributes ([], []) with
      | .error e => .error e
      | .ok (plain, listeners) =>
          let t := t.add parent (.element name plain) span
          let t := { t with listeners := t.listeners ++ listeners }
          if keepsText name then .ok (children.foldl (Table.addRawText index) t)
          else Table.addAllMarkup (some index) t children
  | .text span data blank =>
      if parent.isNone && blank then .ok t
      else
        match Segment.scan span.start data with
        | .error e => .error e
        | .ok segments => .ok (segments.foldl (Table.addSegment parent) t)
  | .comment .. => .ok t

def Table.addAllMarkup (parent : Option Nat) (t : Table) : List Markup.Node → Except Error Table
  | [] => .ok t
  | node :: more =>
      match Table.addMarkup parent t node with
      | .error e => .error e
      | .ok t => Table.addAllMarkup parent t more

end

def Table.ofMarkup (markup : List Markup.Node) : Except Error Table :=
  Table.addAllMarkup none .empty markup

end Component
