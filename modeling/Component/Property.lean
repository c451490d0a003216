/-
The properties that a script exports, and its other statements.

Variables declared with `export` are the properties of a component.  Everything
else at top level is kept as written: imports at the top of the compiled
module, other statements inside its factory.
-/
import Component.Script.Grammar

namespace Component

/-- The text of the script block and its place in the source. -/
structure ScriptBlock where
  content : Text
  span : Span
deriving Repr, DecidableEq

/-- A property of a component, with the text of its default value. -/
structure Property where
  name : Text
  default : Option Text
  span : Span
deriving Repr, DecidableEq

/-- Where a statement of the script goes in the compiled module. -/
inductive Placement where
  | moduleScope
  | factoryBody
deriving Repr, DecidableEq

/-- A top-level statement that is kept as written. -/
structure Statement where
  source : Text
  placement : Placement
  /-- The names it declares at top level. -/
  declared : List Text
  span : Span
deriving Repr, DecidableEq

/-- A script, taken apart. -/
structure ScriptParts where
  properties : List Property
  statements : List Statement
deriving Repr, DecidableEq

namespace ScriptBlock

/-- The offsets of a span, kept within the script. -/
def clamp (block : ScriptBlock) (span : Span) : Span :=
  let size := block.content.size
  let start := min span.start size
  ⟨start, min (max span.stop start) size⟩

/-- The text that a span of the script covers.  There is none if the span begins or ends
inside a character, and the attempt to cut it there ends everything. -/
def textAt (block : ScriptBlock) (span : Span) : Except Failure Text :=
  let inner := block.clamp span
  match block.content.slice? inner.start inner.stop with
  | some text => .ok text
  | none => .error .crashed

/-- A span of the script as a span of the source. -/
def place (block : ScriptBlock) (span : Span) : Span :=
  let inner := block.clamp span
  block.span.slice inner.start inner.stop

/-- The script as it is read: a byte order mark at its start is left out, and spans
count from what follows it. -/
def readable (block : ScriptBlock) : Text :=
  match block.content with
  | c :: rest => if c.toNat = 0xfeff then rest else c :: rest
  | [] => []

end ScriptBlock

/-- Names that the compiled module uses for its own. -/
def moduleNames : List Text := Text.words "component target props changes document undefined"

/-- Whether a name is one that the compiled module uses itself, or looks like one of
its node variables. -/
def isReservedName (name : Text) : Bool :=
  moduleNames.contains name ||
    match name with
    | c :: d :: rest => (c = 'e' || c = 't' || c = 'b') && (d :: rest).all Char.isDigit
    | _ => false

def ScriptParts.addProperty (block : ScriptBlock) (parts : ScriptParts)
    (declarator : Script.Declarator) : Except Failure ScriptParts := do
  let span := block.place declarator.span
  match declarator.pattern with
  | .name name =>
      if isReservedName name then .error (.refused ⟨.reservedName name, span⟩)
      else if parts.properties.any (·.name == name) then
        .error (.refused ⟨.duplicateProperty name, span⟩)
      else
        let default ← declarator.initializer.mapM block.textAt
        .ok { parts with properties := parts.properties ++ [⟨name, default, span⟩] }
  | _ => .error (.refused ⟨.unsupportedExport .pattern, span⟩)

def ScriptParts.addStatement (block : ScriptBlock) (parts : ScriptParts) (span : Span)
    (placement : Placement) (declared : List Text) : Except Failure ScriptParts := do
  let source ← block.textAt span
  .ok { parts with
    statements := parts.statements ++ [⟨source, placement, declared, block.place span⟩] }

def ScriptParts.addItem (block : ScriptBlock) (parts : ScriptParts) :
    Script.Item → Except Failure ScriptParts
  | .imports span locals => parts.addStatement block span .moduleScope locals
  | .variables span declarators =>
      parts.addStatement block span .factoryBody (Script.Declarator.allNames declarators)
  | .function span name => parts.addStatement block span .factoryBody [name]
  | .classDeclaration span name => parts.addStatement block span .factoryBody [name]
  | .statement span _ => parts.addStatement block span .factoryBody []
  | .exportedVariables _ declarators => declarators.foldlM (ScriptParts.addProperty block) parts
  | .otherExport span form => .error (.refused ⟨.unsupportedExport form, block.place span⟩)

/-- What is wrong with a name that a statement declares beside the properties. -/
def ScriptParts.nameFault (parts : ScriptParts) (name : Text) : Option Fault :=
  if isReservedName name then some (.reservedName name)
  else if parts.properties.any (·.name == name) then some (.duplicateProperty name)
  else none

/-- The first clash between a name that a statement declares and a name that is
taken. -/
def ScriptParts.clash (parts : ScriptParts) : Option Error :=
  parts.statements.findSome? fun statement =>
    (statement.declared.findSome? parts.nameFault).map fun fault => ⟨fault, statement.span⟩

/-- Sorts the items of a script into properties and other statements. -/
def ScriptParts.ofItems (block : ScriptBlock) (items : List Script.Item) :
    Except Failure ScriptParts := do
  let parts ← items.foldlM (ScriptParts.addItem block) ⟨[], []⟩
  match parts.clash with
  | some error => .error (.refused error)
  | none => .ok parts

/-- Takes a script apart into what `read` finds in it.  An empty script has no parts. -/
def ScriptBlock.partsWith (read : Text → Except Script.SyntaxError (List Script.Item))
    (block : ScriptBlock) : Except Failure ScriptParts :=
  if block.content.isBlank then .ok ⟨[], []⟩
  else
    match read block.readable with
    | .error e => .error (.refused ⟨.scriptSyntax e.message, block.place e.span⟩)
    | .ok items => ScriptParts.ofItems block items

def ScriptBlock.parts (block : ScriptBlock) : Except Failure ScriptParts :=
  block.partsWith Script.read

end Component
