/-
Markup documents: reading a source into a tree.

The elements whose closing tag has not been read yet stand on a stack.  Each
step reads one construct at the front of the source: a closing tag, a comment,
a start tag or a run of text.  Errors are collected and never end the reading.
-/
import Component.Markup.StartTag

namespace Component.Markup

/-- Choices of the caller. -/
structure Options where
  /-- Names of the elements whose body is one text up to their closing tag. -/
  rawText : List Text := ["script", "style"]
deriving Repr

/-- A source as a tree, with what is wrong in it. -/
structure Document where
  span : Span
  nodes : List Node
  errors : List Error
deriving Repr, DecidableEq

/-- Elements that never have children nor a closing tag. -/
def voidElements : List Text :=
  Text.words "area base br col embed hr img input link meta param source track wbr"

def isVoid (name : Text) : Bool := voidElements.contains name.lower

/-- Whether elements of a name keep their body as one text. -/
def Options.isRawText (options : Options) (name : Text) : Bool :=
  options.rawText.any (Text.eqIgnoreCase · name)

def opensTag : Text → Bool
  | '<' :: c :: _ => c.isAlpha
  | _ => false

/-- Whether a text begins with a closing tag. -/
def opensClosingTag (t : Text) : Bool := ['<', '/'].isPrefixOf t

def opensComment (t : Text) : Bool := ['<', '!', '-', '-'].isPrefixOf t

/-- Whether a text begins with anything that ends a run of text. -/
def opensMarkup (t : Text) : Bool := opensTag t || opensClosingTag t || opensComment t

/-- Reads a comment; one that is not closed goes on to the end of the source. -/
def readComment (r : Reader) : Node × Reader :=
  let body := r.offset + 4
  let (data, tail) := Text.breakBefore (['-', '-', '>'].isPrefixOf ·) (r.rest.drop 4)
  let stop := body + data.size
  if tail.isEmpty then
    (.comment ⟨r.offset, stop⟩ data,
      (r.report .unterminatedComment ⟨r.offset, body⟩).seek stop)
  else (.comment ⟨r.offset, stop + 3⟩ data, r.seek (stop + 3))

/-- Reads a run of text, up to the next tag or comment. -/
def readText (r : Reader) : Node × Reader :=
  let (data, _) := r.rest.breakBefore opensMarkup
  let stop := r.offset + data.size
  (.text ⟨r.offset, stop⟩ data data.isBlank, r.seek stop)

/-- Reads the body of a raw-text element, up to the first closing tag that begins
with its name. -/
def readRawText (name : Text) (r : Reader) : List Node × Reader :=
  let closing := '<' :: '/' :: name.lower
  let (data, _) := r.rest.breakBefore fun t => Text.lower (t.take closing.length) == closing
  let stop := r.offset + data.size
  (if data.isEmpty then [] else [.text ⟨r.offset, stop⟩ data data.isBlank], r.seek stop)

/-- Reads the closing tag of the element of a name that begins at `start`. -/
def readClosingTag (name : Text) (start : Nat) (r : Reader) : Reader :=
  if opensClosingTag r.rest then
    let (found, after) := r.advance.takeName
    let after := after.skipNewlines.expect .tagClose
    if found.eqIgnoreCase name then after
    else after.report (.mismatchedClosingTag name found) ⟨r.offset, after.offset⟩
  else r.report (.unclosedTag name) ⟨start, r.offset⟩

/-- Skips a closing tag that closes nothing. -/
def skipClosingTag (r : Reader) : Reader :=
  let (name, after) := r.advance.takeName
  let after := after.eat .tagClose
  after.report (.unexpectedClosingTag name) ⟨r.offset, after.offset⟩

/-- An element whose closing tag has not been read. -/
structure OpenElement where
  start : Nat
  name : Text
  attributes : List Attribute
  children : List Node
deriving Repr

/-- A document half read: the reader, the open elements from the innermost to the
outermost, and the finished nodes at top level. -/
structure Builder where
  reader : Reader
  stack : List OpenElement
  nodes : List Node
deriving Repr

namespace Builder

/-- Adds a finished node to the innermost open element. -/
def add (b : Builder) (node : Node) : Builder :=
  match b.stack with
  | [] => { b with nodes := b.nodes ++ [node] }
  | element :: outer =>
      { b with stack := { element with children := element.children ++ [node] } :: outer }

/-- Ends the innermost open element. -/
def close (b : Builder) : Builder :=
  match b.stack with
  | [] => b
  | element :: outer =>
      let r := readClosingTag element.name element.start b.reader
      let node := .element ⟨element.start, r.offset⟩ element.name element.attributes
        element.children false
      ({ b with reader := r, stack := outer } : Builder).add node

/-- Reads a start tag and, for a raw-text element, the rest of the element. -/
def openElement (options : Options) (b : Builder) : Builder :=
  let start := b.reader.offset
  let (tag, r) := readStartTag b.reader
  if tag.selfClosed || isVoid tag.name then
    ({ b with reader := r } : Builder).add
      (.element ⟨start, r.offset⟩ tag.name tag.attributes [] true)
  else if options.isRawText tag.name then
    let (children, r) := readRawText tag.name r
    ({ b with
      reader := r
      stack := ⟨start, tag.name, tag.attributes, children⟩ :: b.stack } : Builder).close
  else { b with reader := r, stack := ⟨start, tag.name, tag.attributes, []⟩ :: b.stack }

/-- Reads the construct at the front of the source. -/
def step (options : Options) (b : Builder) : Builder :=
  if opensClosingTag b.reader.rest then
    if b.stack.isEmpty then { b with reader := skipClosingTag b.reader } else b.close
  else if opensComment b.reader.rest then
    let (node, r) := readComment b.reader
    ({ b with reader := r } : Builder).add node
  else if opensTag b.reader.rest then b.openElement options
  else
    let (node, r) := readText b.reader
    ({ b with reader := r } : Builder).add node

/-- Reads at most `steps` constructs. -/
def run (options : Options) : Nat → Builder → Builder
  | 0, b => b
  | steps + 1, b => if b.reader.rest.isEmpty then b else run options steps (b.step options)

/-- Ends every element that is still open. -/
def finish (b : Builder) : Builder := b.stack.foldl (fun b _ => b.close) b

end Builder

/-- Reads a source into a tree.  Every step reads at least one character, so the
length of the source bounds their number. -/
def parse (options : Options) (source : Text) : Document :=
  let b := (Builder.run options source.length ⟨.start source, [], []⟩).finish
  ⟨⟨0, source.size⟩, b.nodes, b.reader.errors⟩

end Component.Markup
