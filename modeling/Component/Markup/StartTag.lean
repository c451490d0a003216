/-
Start tags: the name and the attributes of an element.
-/
import Component.Markup.Node
import Component.Markup.Reader

namespace Component.Markup

/-- Where a braced expression stands: how many braces are open inside it, and the
quote of the string it is in, if any. -/
structure BraceState where
  depth : Nat
  quote : Option Char
  escaped : Bool
deriving Repr, DecidableEq

/-- Cuts a text before the brace that closes an expression begun in state `s`. -/
def expressionFrom (s : BraceState) : Text → Option (Text × Text)
  | [] => none
  | c :: rest =>
      let go (s : BraceState) := (expressionFrom s rest).map fun (body, tail) => (c :: body, tail)
      match s.quote with
      | some quote =>
          if s.escaped then go { s with escaped := false }
          else if c = '\\' then go { s with escaped := true }
          else if c = quote then go { s with quote := none }
          else go s
      | none =>
          if c = '"' || c = '\'' || c = '\x60' then go { s with quote := some c }
          else if c = '{' then go { s with depth := s.depth + 1 }
          else if c = '}' then
            if s.depth = 0 then some ([], c :: rest) else go { s with depth := s.depth - 1 }
          else go s

/-- Cuts a text before the brace that closes the expression it begins with,
skipping nested braces and string literals. -/
def bracedExpression (t : Text) : Option (Text × Text) := expressionFrom ⟨0, none, false⟩ t

/-- Reads a value between two of the same quotes. -/
def readQuotedValue (name : Text) (quote : Char) (r : Reader) : Option AttributeValue × Reader :=
  let opening := r.current.span
  let r := r.advance
  let (value, tail) := r.rest.breakBefore fun t => t.head? == some quote
  if tail.isEmpty then
    (none, (r.report (.unterminatedAttributeValue name) opening).seekEnd)
  else
    let stop := r.offset + value.size
    (some (.text ⟨r.offset, stop⟩ value), (r.seek stop).advance)

/-- Reads a bare value, which goes on to the next whitespace or `>`. -/
def readBareValue (r : Reader) : AttributeValue × Reader :=
  let start := r.current.span.start
  let value := (r.rest.dropBytes (start - r.offset)).takeWhile fun c => !(isBlank c || c == '>')
  let stop := start + Text.size value
  (.text ⟨start, stop⟩ value, r.seek stop)

/-- Reads an expression between braces. -/
def readExpressionValue (name : Text) (r : Reader) : Option AttributeValue × Reader :=
  let opening := r.current.span
  let r := r.advance
  match bracedExpression r.rest with
  | none => (none, (r.report (.unterminatedAttributeValue name) opening).seekEnd)
  | some (value, _) =>
      let inner : Span := ⟨r.offset, r.offset + value.size⟩
      let r := (r.seek inner.stop).advance
      (some (.expression ⟨opening.start, r.offset⟩ inner value), r)

/-- Reads the value after the `=` of an attribute. -/
def readValue (name : Text) (r : Reader) : Option AttributeValue × Reader :=
  match r.kind with
  | .doubleQuote => readQuotedValue name '"' r
  | .singleQuote => readQuotedValue name '\'' r
  | .leftBrace => readExpressionValue name r
  | .name | .text => let (value, r) := readBareValue r; (some value, r)
  | found => (none, r.reportHere (.unexpectedToken .attributeValue found))

/-- Reads one attribute, whose name is the next token. -/
def readAttribute (r : Reader) : Option Attribute × Reader :=
  let token := r.current
  let r := r.advance.skipNewlines
  let (value, r) :=
    if r.kind = .equals then readValue token.text r.advance.skipNewlines
    else (some .absent, r)
  (value.map fun value => ⟨⟨token.span.start, r.offset⟩, token.span, token.text, value⟩, r)

/-- Reads attributes up to the end of the tag, in at most `steps` steps.  Of two
attributes of one name the first is kept; an attribute without a proper value
ends the list. -/
def readAttributes : Nat → List Attribute → Reader → List Attribute × Reader
  | 0, known, r => (known, r)
  | steps + 1, known, r =>
      let r := r.skipNewlines
      match r.kind with
      | .tagClose | .selfClose | .endOfFile => (known, r)
      | .name =>
          match readAttribute r with
          | (none, r) => (known, r)
          | (some next, r) =>
              if known.any (·.name == next.name) then
                readAttributes steps known (r.report (.duplicateAttribute next.name) next.span)
              else readAttributes steps (known ++ [next]) r
      | found =>
          readAttributes steps known
            (r.reportHere (.unexpectedToken .attributeName found)).advance

/-- What a start tag says. -/
structure StartTag where
  name : Text
  attributes : List Attribute
  /-- Written with `/>`. -/
  selfClosed : Bool
deriving Repr

def readStartTag (r : Reader) : StartTag × Reader :=
  let r := r.expect .tagOpen
  let name := r.current.text
  let r := r.advance
  let (attributes, r) := readAttributes r.tokens.length [] r
  if r.kind = .selfClose then (⟨name, attributes, true⟩, r.advance)
  else (⟨name, attributes, false⟩, r.expect .tagClose)

end Component.Markup
