/-
Tokens of markup.

A source is cut into lexemes from left to right, the longest possible one each
time.  Spaces, tabs, carriage returns and form feeds separate tokens; any other
whitespace character except a line feed is a token of its own that fits nowhere.
-/
import Component.Span
import Component.Text.Blank

namespace Component.Markup

/-- What a token is. -/
inductive TokenKind where
  | commentOpen
  | closingOpen
  | tagOpen
  | selfClose
  | tagClose
  | slash
  | equals
  | doubleQuote
  | singleQuote
  | leftBrace
  | rightBrace
  | newline
  | name
  | text
  | endOfFile
  | invalid
deriving Repr, DecidableEq, Inhabited

def TokenKind.describe : TokenKind → Text
  | .commentOpen => "'<!--'"
  | .closingOpen => "'</'"
  | .tagOpen => "'<'"
  | .selfClose => "'/>'"
  | .tagClose => "'>'"
  | .slash => "'/'"
  | .equals => "'='"
  | .doubleQuote => "'\"'"
  | .singleQuote => "'''"
  | .leftBrace => "'\x7b'"
  | .rightBrace => "'\x7d'"
  | .newline => "newline"
  | .name => "name"
  | .text => "text"
  | .endOfFile => "end of file"
  | .invalid => "invalid token"

/-- A token with its place and its text. -/
structure Token where
  kind : TokenKind
  span : Span
  text : Text
deriving Repr, DecidableEq, Inhabited

def Token.endOfFile (offset : Nat) : Token := ⟨.endOfFile, .empty offset, []⟩

/-- The whitespace that separates tokens. -/
def isGap (c : Char) : Bool := c == ' ' || c == '\t' || c == '\r' || c == '\x0c'

/-- The characters of names and texts: neither whitespace nor a delimiter. -/
def isRunChar (c : Char) : Bool :=
  !(c == '<' || c == '>' || c == '/' || c == '=' || c == '"' || c == '\'' || c == '{' ||
    c == '}' || isBlank c)

def isNameStart (c : Char) : Bool := c.isAlpha || c == '_' || c == ':' || c == '@'

def isNamePart (c : Char) : Bool :=
  c.isAlphanum || c == '_' || c == ':' || c == '.' || c == '-'

/-- Whether a whole text has the form of a name. -/
def isName : Text → Bool
  | [] => false
  | c :: rest => isNameStart c && rest.all isNamePart

/-- The longest lexeme at the front of the text `c :: rest`, and the text after
it.  A gap has no kind. -/
def lexeme (c : Char) (rest : Text) : Option TokenKind × Text × Text :=
  match c, rest with
  | '<', '!' :: '-' :: '-' :: more => (some .commentOpen, ['<', '!', '-', '-'], more)
  | '<', '/' :: more => (some .closingOpen, ['<', '/'], more)
  | '<', _ => (some .tagOpen, ['<'], rest)
  | '/', '>' :: more => (some .selfClose, ['/', '>'], more)
  | '/', _ => (some .slash, ['/'], rest)
  | '>', _ => (some .tagClose, ['>'], rest)
  | '=', _ => (some .equals, ['='], rest)
  | '"', _ => (some .doubleQuote, ['"'], rest)
  | '\'', _ => (some .singleQuote, ['\''], rest)
  | '{', _ => (some .leftBrace, ['{'], rest)
  | '}', _ => (some .rightBrace, ['}'], rest)
  | '\n', _ => (some .newline, ['\n'], rest)
  | _, _ =>
      if isGap c then (none, [c], rest)
      else if isBlank c then (some .invalid, [c], rest)
      else
        let run := c :: rest.takeWhile isRunChar
        (some (if isName run then .name else .text), run, rest.dropWhile isRunChar)

/-- The tokens of a text that begins at `offset`, from at most `steps` lexemes. -/
def tokensFrom : Nat → Nat → Text → List Token
  | _, offset, [] => [.endOfFile offset]
  | 0, offset, _ :: _ => [.endOfFile offset]
  | steps + 1, offset, c :: rest =>
      let (kind, text, more) := lexeme c rest
      let next := offset + text.size
      match kind with
      | none => tokensFrom steps next more
      | some kind => ⟨kind, ⟨offset, next⟩, text⟩ :: tokensFrom steps next more

/-- The tokens of a source, the last of which marks its end. -/
def tokens (source : Text) : List Token := tokensFrom source.length 0 source

end Component.Markup
