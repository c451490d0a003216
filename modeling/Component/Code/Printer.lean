/-
The text of compiled components.

Lines are indented by two spaces a level.  Text of the source is copied as it
is: its later lines are not indented, since they may be part of a template.
No parentheses are added.
-/
import Component.Code.Basic
import Component.Code.Literal
import Component.Text.Blank

namespace Component.Code

def indent (depth : Nat) : Text := (List.replicate depth [' ', ' ']).flatten

mutual

def Expr.render : Expr → Text
  | .name text => text
  | .string value => quote value
  | .raw text => text
  | .member object property => object.render ++ '.' :: property
  | .call callee arguments =>
      callee.render ++ '(' :: (Text.join ", " (Expr.renderAll arguments) ++ [')'])
  | .assign target value => target.render ++ " = " ++ value.render
  | .contains key object => key.render ++ " in " ++ object.render
  | .same left right => left.render ++ " === " ++ right.render

def Expr.renderAll : List Expr → List Text
  | [] => []
  | e :: more => e.render :: Expr.renderAll more

end

mutual

def Stmt.render (depth : Nat) : Stmt → Text
  | .expr e => indent depth ++ e.render ++ [';', '\n']
  | .ifThen test body =>
      indent depth ++ "if (" ++ test.render ++ [')', ' ', '{', '\n'] ++
        Stmt.renderAll (depth + 1) body ++ indent depth ++ ['}', '\n']

def Stmt.renderAll (depth : Nat) : List Stmt → Text
  | [] => []
  | s :: more => Stmt.render depth s ++ Stmt.renderAll depth more

end

/-- The text of a statement by itself, without a line end. -/
def Stmt.text (s : Stmt) : Text := (s.render 0).trimEnd

def BodyItem.render : BodyItem → Text
  | .verbatim source => indent 1 ++ source ++ ['\n']
  | .stmt s => s.render 1

def Method.render (depth : Nat) (m : Method) : Text :=
  let signature := indent depth ++ m.name ++ '(' :: (Text.join ", " m.parameters ++ [')', ' ', '{'])
  if m.body.isEmpty then signature ++ ['}']
  else signature ++ '\n' :: (Stmt.renderAll (depth + 1) m.body ++ indent depth ++ ['}'])

def renderMethods (methods : List Method) : Text :=
  if methods.isEmpty then indent 1 ++ "return \x7b\x7d;\n"
  else
    indent 1 ++ "return \x7b\n" ++ Text.join ",\n\n" (methods.map (Method.render 2)) ++ ['\n'] ++
      indent 1 ++ "\x7d;\n"

namespace Module

/-- The line that takes the properties from the argument of the factory, if there are
any. -/
def propertyPart (m : Module) : List Text :=
  if m.properties.isEmpty then []
  else [indent 1 ++ "let \x7b " ++ Text.join ", " m.properties ++ " \x7d = props;\n"]

def bodyPart (m : Module) : List Text :=
  if m.body.isEmpty then [] else [m.body.flatMap BodyItem.render]

/-- The line that declares the variables of the nodes, if there are any. -/
def localPart (m : Module) : List Text :=
  if m.locals.isEmpty then [] else [indent 1 ++ "let " ++ Text.join ", " m.locals ++ ";\n"]

/-- The parts of the factory, each of whole lines, that empty lines separate. -/
def parts (m : Module) : List Text :=
  m.propertyPart ++ (m.bodyPart ++ (m.localPart ++ [renderMethods m.methods]))

def factory (m : Module) : Text :=
  "export default function component(target, props) \x7b\n" ++ Text.join ['\n'] m.parts ++ "\x7d\n"

/-- The statements above the factory, and the empty line after them. -/
def header (m : Module) : Text :=
  if m.imports.isEmpty then [] else m.imports.flatMap (· ++ ['\n']) ++ ['\n']

def render (m : Module) : Text := m.header ++ m.factory

end Module

end Component.Code
