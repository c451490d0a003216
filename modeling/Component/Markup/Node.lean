/-
The markup tree: elements, runs of text and comments, each with its span.

Text is kept as written: braces are ordinary characters here and character
references are not decoded.
-/
import Component.Span
import Component.Text.Blank

namespace Component.Markup

/-- What follows the name of an attribute. -/
inductive AttributeValue where
  /-- Nothing: the name alone. -/
  | absent
  /-- A quoted or bare value; the span leaves out the quotes. -/
  | text (span : Span) (value : Text)
  /-- A braced expression; `inner` leaves out the braces. -/
  | expression (span : Span) (inner : Span) (value : Text)
deriving Repr, DecidableEq

/-- An attribute of an element. -/
structure Attribute where
  span : Span
  nameSpan : Span
  name : Text
  value : AttributeValue
deriving Repr, DecidableEq

/-- A node of the markup tree. -/
inductive Node where
  | element (span : Span) (name : Text) (attributes : List Attribute) (children : List Node)
      (selfClosing : Bool)
  /-- A run of text; `blank` says whether it is only whitespace. -/
  | text (span : Span) (data : Text) (blank : Bool)
  | comment (span : Span) (data : Text)
deriving Repr

namespace Node

mutual

/-- Equality of nodes can be decided.  The children are compared by `decEqList`, so the
recursion is on the structure of the tree. -/
def decEq : (m n : Node) → Decidable (m = n)
  | .element s name as ms closes, .element s' name' as' ms' closes' =>
      match decEqList ms ms' with
      | .isTrue h =>
          decidable_of_iff (s = s' ∧ name = name' ∧ as = as' ∧ closes = closes') (by simp [h])
      | .isFalse h => .isFalse (by simp [h])
  | .text s data blank, .text s' data' blank' =>
      decidable_of_iff (s = s' ∧ data = data' ∧ blank = blank') (by simp)
  | .comment s data, .comment s' data' => decidable_of_iff (s = s' ∧ data = data') (by simp)
  | .element .., .text .. => .isFalse (by simp)
  | .element .., .comment .. => .isFalse (by simp)
  | .text .., .element .. => .isFalse (by simp)
  | .text .., .comment .. => .isFalse (by simp)
  | .comment .., .element .. => .isFalse (by simp)
  | .comment .., .text .. => .isFalse (by simp)

def decEqList : (ms ns : List Node) → Decidable (ms = ns)
  | [], [] => .isTrue rfl
  | [], _ :: _ => .isFalse (by simp)
  | _ :: _, [] => .isFalse (by simp)
  | m :: ms, n :: ns =>
      match decEq m n, decEqList ms ns with
      | .isTrue h, .isTrue hs => .isTrue (by rw [h, hs])
      | .isFalse h, _ => .isFalse (by simp [h])
      | _, .isFalse hs => .isFalse (by simp [hs])

end

instance : DecidableEq Node := decEq

/-- The span of a node, from its first character to its last. -/
def span : Node → Span
  | .element span .. => span
  | .text span .. => span
  | .comment span _ => span

/-- The text of a node that is a run of text. -/
def ownText : Node → Text
  | .text _ data _ => data
  | _ => []

/-- The text of a node's children that are runs of text, joined. -/
def textContent : Node → Text
  | .element _ _ _ children _ => children.flatMap ownText
  | _ => []

/-- Whether a node is an element of the given name, up to the case of ASCII letters. -/
def isNamed (name : Text) : Node → Bool
  | .element _ own .. => own.eqIgnoreCase name
  | _ => false

end Node

end Component.Markup
