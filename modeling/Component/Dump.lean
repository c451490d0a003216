/-
The properties, nodes and listeners of a component as JSON.
-/
import Component.Json
import Component.Property
import Component.Table

namespace Component

def Span.json (s : Span) : Json := .record [("start", .number s.start), ("end", .number s.stop)]

def Property.json (p : Property) : Json :=
  .record [("name", .string p.name), ("default", .ofOption .string p.default),
    ("span", p.span.json)]

/-- The fields that say what a node is. -/
def NodeKind.fields : NodeKind → List (String × Json)
  | .element tagName attributes =>
      [("kind", .string "element"), ("tagName", .string tagName),
        ("attributes", .object (attributes.map fun (name, value) => (name, .string value)))]
  | .staticText text => [("kind", .string "staticText"), ("text", .string text)]
  | .binding property => [("kind", .string "binding"), ("propertyName", .string property)]

def Node.json (n : Node) : Json :=
  .record ([("index", .number n.index), ("parent", .ofOption .number n.parent)] ++
    n.kind.fields ++ [("span", n.span.json)])

def Listener.json (l : Listener) : Json :=
  .record [("nodeIndex", .number l.node), ("eventName", .string l.event),
    ("handlerExpression", .string l.handler), ("span", l.span.json)]

/-- What a component consists of, as an object. -/
def dump (properties : List Property) (t : Table) : Json :=
  .record [("properties", .array (properties.map Property.json)),
    ("nodes", .array (t.nodes.map Node.json)),
    ("listeners", .array (t.listeners.map Listener.json)),
    ("referenced", .array (t.referenced.map .string))]

end Component
