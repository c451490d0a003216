/-
Tokens of scripts.

The lexer reads one token at a time.  It never reads a regular expression or
the inside of a template by itself, since only the grammar knows where these
may stand: it gives the slash or the backquote, and the grammar asks for the
rest.  A text that begins with no token gives nothing.
-/
import Component.Script.Escape
import Component.Script.Symbol
import Component.Script.Word

namespace Component.Script

/-- A token of a script. -/
inductive Token where
  /-- An identifier or keyword.  One that begins with an escape is `quoted`: it is
  an identifier whatever it spells. -/
  | word (name : Text) (quoted : Bool)
  | number
  | string (value : Text) (escaped : Bool)
  /-- The backquote that opens a template. -/
  | backquote
  | symbol (symbol : Symbol)
  | endOfInput
deriving Repr, DecidableEq, Inhabited

/-- A token with its place. -/
structure Lexeme where
  token : Token
  /-- The script from the token on. -/
  here : Input
  /-- The script after the token. -/
  after : Input
  /-- Whether a line ends between the token and the one before it. -/
  newline : Bool
deriving Repr, DecidableEq, Inhabited

/-- Whether there are digits and each underscore among them stands before one. -/
def wellSeparated : Text → Bool
  | [] => false
  | [c] => c != '_'
  | '_' :: '_' :: _ => false
  | _ :: rest => wellSeparated rest

/-- Takes digits and the underscores between them. -/
def takeDigits (isDigit : Char → Bool) (t : Text) : Text × Text :=
  t.span fun c => isDigit c || c == '_'

/-- A digit of a base of at most sixteen. -/
def isDigitOf (base : Nat) (c : Char) : Bool := (Markup.Reference.digit? base c).isSome

/-- The text after a number, which no name may follow directly. -/
def unlessName (t : Text) : Option Text :=
  if (t.head?.map Identifier.isStart).getD false then none else some t

/-- The text after the digits of a number in a base other than ten.  The suffix of
a big integer ends the number whatever follows. -/
def afterRadix (base : Nat) (t : Text) : Option Text :=
  let (digits, rest) := takeDigits (isDigitOf base) t
  if wellSeparated digits then
    match rest with
    | 'n' :: after => some after
    | _ => unlessName rest
  else none

/-- The text after the exponent of a number, if it has one. -/
def afterExponent (t : Text) : Option Text :=
  match t with
  | c :: rest =>
      if c = 'e' || c = 'E' then
        let signed := rest.head? = some '+' || rest.head? = some '-'
        let (digits, after) := takeDigits Char.isDigit (if signed then rest.tail else rest)
        if wellSeparated digits then unlessName after else none
      else unlessName t
  | [] => some t

/-- The text after the fraction and the exponent of a number that has a point. -/
def afterPoint (t : Text) : Option Text :=
  let (digits, rest) := takeDigits Char.isDigit t
  if digits.isEmpty || wellSeparated digits then afterExponent rest else none

/-- The text after a decimal number.  A zero in front of other digits is refused. -/
def afterDecimal (t : Text) : Option Text :=
  let (digits, rest) := takeDigits Char.isDigit t
  if !wellSeparated digits || (digits.head? = some '0' && 1 < digits.length) then none
  else
    match rest with
    | 'n' :: after => some after
    | '.' :: after => afterPoint after
    | _ => afterExponent rest

def afterNumber (t : Text) : Option Text :=
  match t with
  | '0' :: c :: rest =>
      if c = 'x' || c = 'X' then afterRadix 16 rest
      else if c = 'o' || c = 'O' then afterRadix 8 rest
      else if c = 'b' || c = 'B' then afterRadix 2 rest
      else afterDecimal t
  | '.' :: rest => if (rest.head?.map Char.isDigit).getD false then afterPoint rest else none
  | _ => afterDecimal t

/-- The text of a string literal after its opening quote: its value, whether it is
written with escapes, and what follows the closing quote. -/
def readString (quote : Char) : Nat → Text → Option (Text × Bool × Text)
  | 0, _ => none
  | _ + 1, [] => none
  | steps + 1, c :: rest =>
      if c = quote then some ([], false, rest)
      else if c = '\n' || c = '\r' then none
      else if c = '\\' then do
        let (chars, rest) ← (readEscape rest).toOption
        let (value, _, after) ← readString quote steps rest
        some (chars ++ value, true, after)
      else do
        let (value, escaped, after) ← readString quote steps rest
        some (c :: value, escaped, after)

/-- The characters of a word, of which `first` says whether the next one is the
first: its name, whether it is written with escapes, and what follows. -/
def readWord : Nat → Bool → Text → Option (Text × Bool × Text)
  | 0, _, _ => none
  | _ + 1, first, [] => if first then none else some ([], false, [])
  | steps + 1, first, c :: rest =>
      let fits := if first then Identifier.isStart else Identifier.isPart
      if c = '\\' then
        match rest with
        | 'u' :: rest => do
            let (n, rest) ← (codePoint rest).toOption
            if n.isValidChar && fits (Char.ofNat n) then
              let (name, _, after) ← readWord steps false rest
              some (Char.ofNat n :: name, true, after)
            else none
        | _ => none
      else if fits c then do
        let (name, escaped, after) ← readWord steps false rest
        some (c :: name, escaped, after)
      else if first then none
      else some ([], false, c :: rest)

/-- Reads a word.  A reserved word may hold no escape but as its first character,
which makes it an identifier. -/
def readWordToken (t : Text) : Option (Token × Text) := do
  let (name, escaped, after) ← readWord (t.length + 1) true t
  let quoted := t.head? = some '\\'
  if escaped && !quoted && isReservedWord name then none else some (.word name quoted, after)

/-- Reads the token at the front of a text that no gap begins, and the text after it. -/
def readToken (t : Text) : Option (Token × Text) :=
  match t with
  | [] => some (.endOfInput, [])
  | '\x60' :: rest => some (.backquote, rest)
  | '<' :: '!' :: '-' :: '-' :: _ => none
  | c :: rest =>
      if c = '"' || c = '\'' then
        (readString c (rest.length + 1) rest).map fun (value, escaped, after) =>
          (.string value escaped, after)
      else if c.isDigit || (c = '.' && (rest.head?.map Char.isDigit).getD false) then
        (afterNumber t).map fun after => (.number, after)
      else if Identifier.isStart c || c = '\\' then
        readWordToken t
      else (mark? t).map fun (symbol, length) => (.symbol symbol, t.drop length)

/-- The part of `before` in front of its ending `after`. -/
def consumed (before after : Text) : Text := before.take (before.length - after.length)

def readLexeme (i : Input) : Option Lexeme := do
  let (newline, here) ← skipGap .plain false i.offset i.rest
  let (token, after) ← readToken here.rest
  some ⟨token, here, here.past (consumed here.rest after) after, newline⟩

/-- A piece of a template between two substitutions. -/
structure TemplateChunk where
  /-- Whether all its escapes are well formed. -/
  valid : Bool
  /-- Whether the template ends with it; otherwise a substitution follows. -/
  last : Bool
  after : Text
deriving Repr, DecidableEq

def readTemplateChunk : Nat → Bool → Text → Option TemplateChunk
  | 0, _, _ => none
  | _ + 1, _, [] => none
  | _ + 1, valid, '\x60' :: rest => some ⟨valid, true, rest⟩
  | _ + 1, valid, '$' :: '{' :: rest => some ⟨valid, false, rest⟩
  | steps + 1, valid, '\\' :: rest =>
      match readEscape rest with
      | .ok (_, after) => readTemplateChunk steps valid after
      | .error .malformed => readTemplateChunk steps false rest.tail
      | .error .looseSeparator => none
  | steps + 1, valid, _ :: rest => readTemplateChunk steps valid rest

/-- The text after the body of a regular expression, up to and including the
closing slash.  A slash inside a character class does not close it. -/
def afterPatternBody (inClass escaped : Bool) : Text → Option Text
  | [] => none
  | c :: rest =>
      if c = '\n' || c = '\r' then none
      else if escaped then afterPatternBody inClass false rest
      else if c = '/' && !inClass then some rest
      else if c = '[' then afterPatternBody true false rest
      else if c = ']' then afterPatternBody false false rest
      else afterPatternBody inClass (c = '\\') rest

def readFlags (t : Text) : Option (Text × Text) :=
  if (t.head?.map Identifier.isStart).getD false then
    (readWord (t.length + 1) true t).map fun (flags, _, after) => (flags, after)
  else some ([], t)

/-- The text after a regular expression that follows its opening slash. -/
def afterPattern (t : Text) : Option Text := do
  let rest ← afterPatternBody false false t
  let (flags, after) ← readFlags rest
  if flags.all ("dgimsuvy".toList.contains ·) && flags.eraseDups.length = flags.length then
    some after
  else none

end Component.Script
