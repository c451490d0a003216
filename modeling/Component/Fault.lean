/-
Why a component is refused, and what is merely worth a warning.
-/
import Component.Markup.Error

namespace Component

/-- What an export other than a variable declaration holds. -/
inductive ExportForm where
  | function
  | classDeclaration
  | list
  | defaultValue
  | reexport
  | pattern
deriving Repr, DecidableEq

/-- An unsupported export as its message calls it. -/
def ExportForm.describe : ExportForm → Text
  | .function => "a function declaration"
  | .classDeclaration => "a class declaration"
  | .list => "an export list"
  | .defaultValue => "a default export"
  | .reexport => "a re-export"
  | .pattern => "destructuring pattern"

/-- What is wrong with an `on:` attribute. -/
inductive ListenerFault where
  | missingEvent
  | missingHandler
deriving Repr, DecidableEq

/-- The part of a listener that is missing. -/
def ListenerFault.describe : ListenerFault → Text
  | .missingEvent => "missing event name"
  | .missingHandler => "missing handler"

/-- Why a component is refused. -/
inductive Fault where
  | markup (fault : Markup.Fault)
  | multipleScripts
  | unsupportedExport (form : ExportForm)
  | duplicateProperty (name : Text)
  | reservedName (name : Text)
  | invalidListener (name : Text) (fault : ListenerFault)
  | dynamicAttribute (name : Text)
  | invalidBinding (name : Text)
  | unresolvedBinding (name : Text) (suggestion : Option Text)
  | unterminatedBinding (text : Text)
  | nestedBinding (text : Text)
  | unmatchedBrace
  | scriptSyntax (message : Text)
deriving Repr, DecidableEq

/-- The three kinds of faults that reports tell apart. -/
inductive Category where
  | structuralInput
  | interpolationSyntax
  | scriptSyntax
deriving Repr, DecidableEq

def Category.code : Category → Text
  | .structuralInput => "structural-input"
  | .interpolationSyntax => "interpolation-syntax"
  | .scriptSyntax => "script-syntax"

/-- A binding as it is written. -/
def braced (name : Text) : Text := '{' :: (name ++ ['}'])

namespace Fault

def category : Fault → Category
  | .unterminatedBinding _ | .nestedBinding _ | .unmatchedBrace => .interpolationSyntax
  | .scriptSyntax _ => .scriptSyntax
  | _ => .structuralInput

def message : Fault → Text
  | .markup fault => fault.message
  | .multipleScripts => "a component may contain only one <script> block"
  | .unsupportedExport form =>
      "unsupported export: " ++ form.describe ++ " cannot be exported as a property"
  | .duplicateProperty name => "property `" ++ name ++ "` is declared more than once"
  | .reservedName name => "name `" ++ name ++ "` is reserved by the compiled module"
  | .invalidListener name fault => "invalid listener `" ++ name ++ "`: " ++ fault.describe
  | .dynamicAttribute name => "attribute `" ++ name ++ "` has a dynamic value"
  | .invalidBinding name => "`" ++ braced name ++ "` is not a valid property name"
  | .unresolvedBinding name _ =>
      "`" ++ braced name ++ "` does not refer to an exported property"
  | .unterminatedBinding text => "unterminated interpolation `" ++ text ++ "`: missing `\x7d`"
  | .nestedBinding text => "nested `\x7b` in interpolation `" ++ text ++ "`"
  | .unmatchedBrace => "unmatched `\x7d` in text"
  | .scriptSyntax message => "script syntax error: " ++ message

/-- A hint on how to mend a fault. -/
def help : Fault → Option Text
  | .unresolvedBinding _ (some name) => some ("did you mean `" ++ braced name ++ "`?")
  | .unresolvedBinding name none =>
      some ("declare it in the script block with `export let " ++ Text.trim name ++ ";`")
  | .invalidBinding _ => some "an interpolation must name a single exported property"
  | .multipleScripts => some "merge the script blocks into a single <script>"
  | .unsupportedExport _ =>
      some "properties are declared with `export let name;` or `export let name = value;`"
  | .reservedName _ =>
      some ("`component`, `target`, `props`, `changes`, `document`, `undefined` and node " ++
        "names like `e0` are reserved")
  | .dynamicAttribute _ => some "attribute values must be static strings"
  | .invalidListener _ _ => some "listeners are written as `on:event=\x7bhandler\x7d`"
  | .unterminatedBinding _ | .nestedBinding _ | .unmatchedBrace =>
      some "interpolations are written as `\x7bname\x7d`; braces cannot be nested"
  | .markup _ | .duplicateProperty _ | .scriptSyntax _ => none

end Fault

/-- A fault and its place in the source. -/
structure Error where
  fault : Fault
  span : Span
deriving Repr, DecidableEq

/-- Why nothing comes of a component: it is refused, or the compiler itself fails, as it
does where a text is cut inside a character or a list has no such index. -/
inductive Failure where
  | refused (error : Error)
  | crashed
deriving Repr, DecidableEq

/-- A stage that can only refuse a component is one that can fail. -/
instance : MonadLift (Except Error) (Except Failure) := ⟨Except.mapError .refused⟩

/-- Something that does not stop the compilation. -/
inductive Caution where
  | unresolvedBinding (name : Text)
  | unresolvedHandler (handler : Text)
deriving Repr, DecidableEq

namespace Caution

def code : Caution → Text
  | .unresolvedBinding _ => "unresolved-binding"
  | .unresolvedHandler _ => "unresolved-handler"

def message : Caution → Text
  | .unresolvedBinding name => (Fault.unresolvedBinding name none).message
  | .unresolvedHandler handler =>
      "handler `" ++ handler ++ "` is not declared in the script block"

end Caution

/-- A caution and its place in the source. -/
structure Warning where
  caution : Caution
  span : Span
deriving Repr, DecidableEq

end Component
