/-
The two parts of a component: its script block and its markup.
-/
import Component.Markup.Node
import Component.Property

namespace Component

/-- A component, split in two. -/
structure Fragment where
  script : ScriptBlock
  markup : List Markup.Node
deriving Repr

namespace Fragment

/-- The script block that an element is: its text, from the start of its first child
to the end of its last. -/
def scriptOf (node : Markup.Node) : ScriptBlock :=
  match node with
  | .element span _ _ children _ =>
      let inner :=
        match children.head?, children.getLast? with
        | some first, some last => first.span.cover last.span
        | _, _ => .empty span.stop
      ⟨node.textContent, inner⟩
  | _ => ⟨[], node.span⟩

/-- Splits top-level nodes, of which `script` is the script block found before. -/
def splitFrom (script : Option ScriptBlock) (markup : List Markup.Node) :
    List Markup.Node → Except Error Fragment
  | [] => .ok ⟨script.getD ⟨[], .empty 0⟩, markup⟩
  | .comment .. :: more => splitFrom script markup more
  | node :: more =>
      if node.isNamed "script" then
        if script.isSome then .error ⟨.multipleScripts, node.span⟩
        else splitFrom (some (scriptOf node)) markup more
      else splitFrom script (markup ++ [node]) more

/-- Splits the nodes of a component.  Comments are dropped; a component without a
script has an empty one. -/
def split (nodes : List Markup.Node) : Except Error Fragment := splitFrom none [] nodes

end Fragment

end Component
