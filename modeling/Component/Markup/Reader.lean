/-
Reading markup by tokens and by characters at once.

A reader stands at a byte offset of the source.  It holds the source from there
on and the tokens that begin there or later.  Tags are read token by token;
text, comments and attribute values are read character by character, after
which the reader moves on to the first token that is not behind it.
-/
import Component.Markup.Error

namespace Component.Markup

/-- A place in the source, with the errors found on the way to it. -/
structure Reader where
  rest : Text
  offset : Nat
  tokens : List Token
  errors : List Error
deriving Repr

namespace Reader

def start (source : Text) : Reader := ⟨source, 0, Markup.tokens source, []⟩

def current (r : Reader) : Token := r.tokens.headD (.endOfFile r.offset)

def kind (r : Reader) : TokenKind := r.current.kind

/-- Moves past the next token, unless the source has ended. -/
def advance (r : Reader) : Reader :=
  match r.tokens with
  | [] => r
  | token :: more =>
      if token.kind = .endOfFile then r
      else
        { r with
          rest := r.rest.dropBytes (token.span.stop - r.offset)
          offset := token.span.stop
          tokens := more }

/-- Moves to an offset further on, past every token that begins before it. -/
def seek (r : Reader) (offset : Nat) : Reader :=
  { r with
    rest := r.rest.dropBytes (offset - r.offset)
    offset := offset
    tokens := r.tokens.dropWhile fun token =>
      token.kind != .endOfFile && token.span.start < offset }

/-- Moves to the end of the source. -/
def seekEnd (r : Reader) : Reader := r.seek (r.offset + r.rest.size)

def report (r : Reader) (fault : Fault) (span : Span) : Reader :=
  { r with errors := r.errors ++ [⟨fault, span⟩] }

/-- Records an error at the next token. -/
def reportHere (r : Reader) (fault : Fault) : Reader := r.report fault r.current.span

/-- Moves past the next token if it is of the given kind. -/
def eat (kind : TokenKind) (r : Reader) : Reader := if r.kind = kind then r.advance else r

/-- Moves past the next token, which has to be of the given kind. -/
def expect (kind : TokenKind) (r : Reader) : Reader :=
  if r.kind = kind then r.advance
  else r.reportHere (.unexpectedToken (.token kind) r.kind)

def skipNewlines (r : Reader) : Reader :=
  (r.tokens.takeWhile (·.kind == .newline)).foldl (fun r _ => r.advance) r

/-- Reads a name, if there is one. -/
def takeName (r : Reader) : Text × Reader :=
  if r.kind = .name then (r.current.text, r.advance) else ([], r)

end Reader

end Component.Markup
