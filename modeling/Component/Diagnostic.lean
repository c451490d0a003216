/-
Errors and warnings as they are reported: with the name of the file, and with
lines and columns counted from one.
-/
import Component.Fault
import Component.Json
import Component.Lines

namespace Component

/-- How bad a finding is. -/
inductive Severity where
  | error
  | warning
deriving Repr, DecidableEq

def Severity.word : Severity → Text
  | .error => "error"
  | .warning => "warning"

/-- A place in a file; lines and byte columns are counted from one. -/
structure Place where
  line : Nat
  column : Nat
  offset : Nat
deriving Repr, DecidableEq

def Place.of (source : Text) (offset : Nat) : Place :=
  let position := locate source offset
  ⟨position.line + 1, position.column + 1, offset⟩

def Place.json (p : Place) : Json :=
  .record [("line", .number p.line), ("column", .number p.column), ("offset", .number p.offset)]

/-- A reported finding. -/
structure Diagnostic where
  severity : Severity
  filename : Text
  start : Place
  stop : Place
  message : Text
  code : Text
  help : Option Text
deriving Repr, DecidableEq

namespace Diagnostic

def ofError (filename source : Text) (e : Error) : Diagnostic :=
  ⟨.error, filename, .of source e.span.start, .of source e.span.stop, e.fault.message,
    "domc::" ++ e.fault.category.code, e.fault.help⟩

def ofWarning (filename source : Text) (w : Warning) : Diagnostic :=
  ⟨.warning, filename, .of source w.span.start, .of source w.span.stop, w.caution.message,
    "domc::" ++ w.caution.code, none⟩

def json (d : Diagnostic) : Json :=
  .record [("type", .string d.severity.word), ("filename", .string d.filename),
    ("start", d.start.json), ("end", d.stop.json), ("message", .string d.message),
    ("code", .string d.code)]

end Diagnostic

end Component
