/-
Compiling a component from its source.
-/
import Component.Binding
import Component.Code.Printer
import Component.Fragment
import Component.Lifecycle
import Component.Markup.Document

namespace Component

/-- All that a compilation gives. -/
structure Output where
  code : Text
  module : Code.Module
  properties : List Property
  table : Table
  warnings : List Warning
deriving Repr

/-- Compiles a component whose script is read by `read`.  The first problem ends the
compilation: first those of the markup, then those of the script, the table and the
bindings. -/
def compileWith (read : Text → Except Script.SyntaxError (List Script.Item)) (policy : Policy)
    (source : Text) : Except Failure Output := do
  let document := Markup.parse {} source
  match document.errors with
  | e :: _ => .error (.refused ⟨.markup e.fault, e.span⟩)
  | [] =>
      let fragment ← Fragment.split document.nodes
      let script ← fragment.script.partsWith read
      let table ← Table.ofMarkup fragment.markup
      let warnings ← resolve policy script.properties table script.statements
      let module ← Lifecycle.emit script.properties table script.statements
      .ok ⟨module.render, module, script.properties, table, warnings⟩

def compile (policy : Policy) (source : Text) : Except Failure Output :=
  compileWith Script.read policy source

end Component
