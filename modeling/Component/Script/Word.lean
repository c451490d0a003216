/-
Words of scripts: identifiers and the words that cannot be identifiers.
-/
import Component.Text.Identifier

namespace Component.Script

/-- Words with a meaning of their own in every script. -/
def keywords : List Text :=
  Text.words "break case catch class const continue debugger default delete do else enum export" ++
    Text.words "extends false finally for function if import in instanceof new null return super" ++
    Text.words "switch this throw true try typeof var void while with"

/-- Words that modules, which are always strict, reserve besides the keywords. -/
def strictWords : List Text :=
  Text.words "await implements interface let package private protected public static yield"

/-- Whether a word cannot name anything in a script. -/
def isReservedWord (word : Text) : Bool := keywords.contains word || strictWords.contains word

/-- Names that can be read but neither bound nor assigned. -/
def isFixedName (name : Text) : Bool := name == "eval" || name == "arguments"

/-- The reserved words a binding is checked against: the keywords and those strict
words that every strict program reserves in this sense. -/
def bindingReservedWords : List Text := keywords ++ Text.words "await let static yield"

/-- Whether a text is a plain identifier that a binding may refer to. -/
def isIdentifier : Text → Bool
  | [] => false
  | c :: rest =>
      Identifier.isStart c && rest.all Identifier.isPart &&
        !bindingReservedWords.contains (c :: rest)

end Component.Script
