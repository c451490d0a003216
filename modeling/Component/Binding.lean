/-
Bindings and handlers checked against what the script declares.
-/
import Component.Property
import Component.Table

namespace Component

/-- What to do with a binding that names no property. -/
inductive Policy where
  /-- Refuse the component. -/
  | error
  /-- Compile it and give a warning. -/
  | warn
  /-- Compile it. -/
  | allow
deriving Repr, DecidableEq, Inhabited

def isProperty (properties : List Property) (name : Text) : Bool :=
  properties.any (·.name == name)

/-- The property that a binding most likely meant: the one it names but for
whitespace around it, or else the first it names but for the case of letters. -/
def suggestion (properties : List Property) (name : Text) : Option Text :=
  let wanted := name.trim
  ((properties.find? (·.name == wanted)).or
    (properties.find? (·.name.eqIgnoreCase wanted))).map (·.name)

/-- Checks the bindings in the order of the table. -/
def resolveBindings (policy : Policy) (properties : List Property) :
    List (Node × Text) → Except Error (List Warning)
  | [] => .ok []
  | (node, name) :: more =>
      if isProperty properties name then resolveBindings policy properties more
      else if !Script.isIdentifier name then .error ⟨.invalidBinding name, node.span⟩
      else
        match policy with
        | .error => .error ⟨.unresolvedBinding name (suggestion properties name), node.span⟩
        | .warn =>
            (resolveBindings policy properties more).map (⟨.unresolvedBinding name, node.span⟩ :: ·)
        | .allow => resolveBindings policy properties more

/-- Whether a handler is a plain name that the script does not declare. -/
def isUnresolvedHandler (properties : List Property) (statements : List Statement)
    (handler : Text) : Bool :=
  Script.isIdentifier handler && !isProperty properties handler &&
    !statements.any (·.declared.contains handler)

def handlerWarnings (properties : List Property) (statements : List Statement)
    (listeners : List Listener) : List Warning :=
  (listeners.filter fun l => isUnresolvedHandler properties statements l.handler).map fun l =>
    ⟨.unresolvedHandler l.handler, l.span⟩

/-- Checks bindings and handlers, and gives what is worth a warning. -/
def resolve (policy : Policy) (properties : List Property) (table : Table)
    (statements : List Statement) : Except Error (List Warning) := do
  let warnings ← resolveBindings policy properties table.bindings
  if policy = .allow then .ok warnings
  else .ok (warnings ++ handlerWarnings properties statements table.listeners)

end Component
