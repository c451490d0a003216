/-
What can be wrong with markup.
-/
import Component.Markup.Token

namespace Component.Markup

/-- What a tag should have gone on with. -/
inductive Expected where
  | token (kind : TokenKind)
  | attributeName
  | attributeValue
deriving Repr, DecidableEq

/-- An expectation as error messages call it. -/
def Expected.describe : Expected → Text
  | .token kind => kind.describe
  | .attributeName => "attribute name"
  | .attributeValue => "attribute value"

/-- A fault in the markup. -/
inductive Fault where
  | unexpectedToken (expected : Expected) (found : TokenKind)
  | unclosedTag (name : Text)
  | mismatchedClosingTag (expected found : Text)
  | unexpectedClosingTag (name : Text)
  | unterminatedAttributeValue (name : Text)
  | duplicateAttribute (name : Text)
  | unterminatedComment
deriving Repr, DecidableEq

def Fault.message : Fault → Text
  | .unexpectedToken expected found =>
      "unexpected token: expected " ++ expected.describe ++ ", found " ++ found.describe
  | .unclosedTag name => "unclosed tag: <" ++ name ++ ">"
  | .mismatchedClosingTag expected found =>
      "mismatched closing tag: expected </" ++ expected ++ ">, found </" ++ found ++ ">"
  | .unexpectedClosingTag name => "unexpected closing tag </" ++ name ++ ">"
  | .unterminatedAttributeValue name => "unterminated attribute value for `" ++ name ++ "`"
  | .duplicateAttribute name => "duplicate attribute: " ++ name
  | .unterminatedComment => "unterminated comment"

/-- A fault and the place it is reported at. -/
structure Error where
  fault : Fault
  span : Span
deriving Repr, DecidableEq

end Component.Markup
