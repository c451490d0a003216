/-
The arguments of the command line.

Arguments are read from left to right.  An option takes its value after an equals
sign or as the next argument, which then may not look like an option itself.  No
option is given twice.  After two dashes every argument is an input.
-/
import Component.Binding

namespace Component.CommandLine

/-- What to print. -/
inductive Emission where
  | code
  | nodes
deriving Repr, DecidableEq

/-- How findings are reported. -/
inductive Format where
  | plain
  | json
deriving Repr, DecidableEq

/-- An option that takes a value. -/
inductive Flag where
  | emit
  | unresolved
  | diagnostics
  | logLevel
deriving Repr, DecidableEq

namespace Flag

def name : Flag → Text
  | .emit => "emit"
  | .unresolved => "unresolved"
  | .diagnostics => "diagnostics"
  | .logLevel => "log-level"

def ofName? (name : Text) : Option Flag :=
  [emit, unresolved, diagnostics, logLevel].find? (·.name == name)

end Flag

/-- What is wrong with the arguments. -/
inductive UsageFault where
  | unexpected (argument : Text)
  | missingValue (flag : Flag)
  | invalidValue (flag : Flag) (value : Text)
  | repeated (flag : Flag)
  | missingInput
deriving Repr, DecidableEq

def UsageFault.message : UsageFault → Text
  | .unexpected argument => "unexpected argument '" ++ argument ++ "'"
  | .missingValue flag => "a value is required for '--" ++ flag.name ++ "'"
  | .invalidValue flag value => "invalid value '" ++ value ++ "' for '--" ++ flag.name ++ "'"
  | .repeated flag => "'--" ++ flag.name ++ "' cannot be given more than once"
  | .missingInput => "no component file is given"

/-- What the arguments read so far say. -/
structure Given where
  input : Option Text := none
  emission : Option Emission := none
  policy : Option Policy := none
  format : Option Format := none
  logLevel : Option Text := none
deriving Repr, DecidableEq

/-- All that a compilation needs to know. -/
structure Settings where
  input : Text
  emission : Emission
  policy : Policy
  format : Format
deriving Repr, DecidableEq

/-- What the arguments ask for. -/
inductive Request where
  | compile (settings : Settings)
  | help
  | version
deriving Repr, DecidableEq

def Emission.ofText? (t : Text) : Option Emission :=
  if t = "js" then some .code else if t = "nodes" then some .nodes else none

def policyOfText? (t : Text) : Option Policy :=
  if t = "error" then some .error
  else if t = "warn" then some .warn
  else if t = "allow" then some .allow
  else none

def Format.ofText? (t : Text) : Option Format :=
  if t = "human" then some .plain else if t = "json" then some .json else none

namespace Given

/-- A value that is read for the first time. -/
def once {α : Type} (flag : Flag) (value : Text) (known read : Option α) : Except UsageFault α :=
  match known, read with
  | some _, _ => .error (.repeated flag)
  | none, none => .error (.invalidValue flag value)
  | none, some result => .ok result

/-- Takes note of an option. -/
def set (g : Given) (flag : Flag) (value : Text) : Except UsageFault Given :=
  match flag with
  | .emit => (once flag value g.emission (Emission.ofText? value)).map fun x =>
      { g with emission := some x }
  | .unresolved => (once flag value g.policy (policyOfText? value)).map fun x =>
      { g with policy := some x }
  | .diagnostics => (once flag value g.format (Format.ofText? value)).map fun x =>
      { g with format := some x }
  | .logLevel => (once flag value g.logLevel (some value)).map fun x =>
      { g with logLevel := some x }

/-- Takes note of an input; there is only one. -/
def setInput (g : Given) (argument : Text) : Except UsageFault Given :=
  if g.input.isSome then .error (.unexpected argument) else .ok { g with input := some argument }

/-- The request that the arguments make, with the usual settings for what they leave open. -/
def request (g : Given) : Except UsageFault Request :=
  match g.input with
  | none => .error .missingInput
  | some input =>
      .ok (.compile ⟨input, g.emission.getD .code, g.policy.getD .error, g.format.getD .plain⟩)

end Given

def readInputs (g : Given) : List Text → Except UsageFault Request
  | [] => g.request
  | argument :: more =>
      match g.setInput argument with
      | .error e => .error e
      | .ok g => readInputs g more

/-- What an argument looks like. -/
inductive Shape where
  /-- Two dashes alone. -/
  | separator
  /-- A name after two dashes, perhaps with a value after an equals sign. -/
  | long (name : Text) (value : Option Text)
  /-- Letters after one dash, of which the first is given. -/
  | short (letter : Char)
  | plain
deriving Repr, DecidableEq

/-- The shape of an argument.  A dash alone is plain. -/
def Shape.of : Text → Shape
  | ['-', '-'] => .separator
  | '-' :: '-' :: body =>
      let name := body.takeWhile (· != '=')
      match body.dropWhile (· != '=') with
      | _ :: value => .long name (some value)
      | [] => .long name none
  | '-' :: letter :: _ => .short letter
  | _ => .plain

/-- Reads arguments, where `pending` is an option that still needs its value. -/
def readFrom (pending : Option Flag) (g : Given) : List Text → Except UsageFault Request
  | [] =>
      match pending with
      | some flag => .error (.missingValue flag)
      | none => g.request
  | argument :: more =>
      match pending, Shape.of argument with
      | some flag, .plain =>
          match g.set flag argument with
          | .error e => .error e
          | .ok g => readFrom none g more
      | some flag, _ => .error (.missingValue flag)
      | none, .plain =>
          match g.setInput argument with
          | .error e => .error e
          | .ok g => readFrom none g more
      | none, .separator => readInputs g more
      | none, .short letter =>
          if letter = 'V' then .ok .version
          else if letter = 'h' then .ok .help
          else .error (.unexpected argument)
      | none, .long name value =>
          match Flag.ofName? name, value with
          | some flag, some value =>
              match g.set flag value with
              | .error e => .error e
              | .ok g => readFrom none g more
          | some flag, none => readFrom (some flag) g more
          | none, some _ => .error (.unexpected argument)
          | none, none =>
              if name = "version" then .ok .version
              else if name = "help" then .ok .help
              else .error (.unexpected argument)

def readArguments (arguments : List Text) : Except UsageFault Request := readFrom none {} arguments

end Component.CommandLine
