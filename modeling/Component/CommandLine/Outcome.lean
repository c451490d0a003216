/-
The command: what it prints and reports, and the status it ends with.

Nothing is printed unless the compilation succeeds.  The status is 0 on success,
1 if the component cannot be read or is refused, 2 if the arguments are wrong, and
101 if the compiler itself fails.
-/
import Component.CommandLine.Arguments
import Component.Compile
import Component.Diagnostic
import Component.Dump

namespace Component.CommandLine

/-- What a run of the command leads to. -/
structure Outcome where
  status : Nat
  /-- What is printed. -/
  output : Text := []
  format : Format := .plain
  /-- The findings to report, in order. -/
  diagnostics : List Diagnostic := []
  /-- Why there was no compilation. -/
  complaint : Option Text := none
deriving Repr, DecidableEq

/-- The text of a file, if it is valid UTF-8. -/
def decodeFile (bytes : ByteArray) : Option Text := (String.fromUTF8? bytes).map String.toList

def versionText : Text := "domc 0.3.0\n"

def helpText : Text :=
  "Compile a single-file component into a dependency-free DOM module\n\n" ++
  "Usage: domc [OPTIONS] <INPUT>\n\n" ++
  "Options:\n" ++
  "  --emit <js|nodes>                 what to print\n" ++
  "  --unresolved <error|warn|allow>   how to treat bindings that name no property\n" ++
  "  --diagnostics <human|json>        how to report errors and warnings\n" ++
  "  --log-level <LEVEL>               how much to log\n" ++
  "  -h, --help                        print this text\n" ++
  "  -V, --version                     print the version\n"

/-- What is printed for a compiled component. -/
def printed (emission : Emission) (o : Component.Output) : Text :=
  match emission with
  | .code => o.code
  | .nodes => (dump o.properties o.table).pretty ++ ['\n']

/-- Compiles the text of a file, where `read` reads its script. -/
def compileText (read : Text → Except Script.SyntaxError (List Script.Item)) (s : Settings)
    (source : Text) : Outcome :=
  match compileWith read s.policy source with
  | .error (.refused e) =>
      { status := 1, format := s.format, diagnostics := [.ofError s.input source e] }
  | .error .crashed => { status := 101, format := s.format }
  | .ok o =>
      { status := 0, output := printed s.emission o, format := s.format
        diagnostics := o.warnings.map (.ofWarning s.input source) }

/-- Compiles a file, of which `content` is what could be read. -/
def compileFile (read : Text → Except Script.SyntaxError (List Script.Item)) (s : Settings)
    (content : Option ByteArray) : Outcome :=
  match content.bind decodeFile with
  | some source => compileText read s source
  | none =>
      { status := 1, format := s.format, complaint := some ("failed to read " ++ s.input) }

/-- Runs the command, where `files` gives the content of each file that can be read and
`read` reads scripts. -/
def runWith (read : Text → Except Script.SyntaxError (List Script.Item))
    (files : Text → Option ByteArray) (arguments : List Text) : Outcome :=
  match readArguments arguments with
  | .error fault => { status := 2, complaint := some fault.message }
  | .ok .help => { status := 0, output := helpText }
  | .ok .version => { status := 0, output := versionText }
  | .ok (.compile s) => compileFile read s (files s.input)

def run (files : Text → Option ByteArray) (arguments : List Text) : Outcome :=
  runWith Script.read files arguments

/-- A finding in a format, where `draw` draws it for people. -/
def Format.render (draw : Diagnostic → Text) (format : Format) (d : Diagnostic) : Text :=
  match format with
  | .plain => draw d
  | .json => d.json.compact

/-- What is reported, finding by finding. -/
def Outcome.report (draw : Diagnostic → Text) (o : Outcome) : List Text :=
  o.diagnostics.map (o.format.render draw) ++
    o.complaint.toList.map fun (complaint : Text) => "error: " ++ complaint

end Component.CommandLine
