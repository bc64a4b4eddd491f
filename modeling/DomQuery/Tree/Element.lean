import DomQuery.Text.Space
import DomQuery.Tree.Attributes

/-!
# Elements

What an element is apart from its place in a tree: a type name and attributes.

Two attributes have a meaning of their own here. The attribute `id` is the id of
the element, as it stands. The attribute `class` lists the classes of the
element with spacing between them; an element without it has none.

## Main definitions

* `Element`: A type name and attributes.
* `Element.id?`, `Element.classes`: The two attributes with a meaning.
* `Element.hasClass`: Whether a name is one of the classes.
-/

namespace DomQuery

/-- What an element is apart from its place. -/
structure Element where
  tag : String
  attrs : Attributes := .empty
  deriving DecidableEq

namespace Element

/-- The id of the element. -/
def id? (e : Element) : Option String := e.attrs.get? "id"

/-- The classes of the element, in their order, repetitions included. -/
def classes (e : Element) : List String :=
  (Text.tokens ((e.attrs.get? "class").getD "").toList).map String.ofList

/-- Whether a name is one of the classes. -/
def hasClass (e : Element) (name : String) : Bool := e.classes.contains name

end Element

end DomQuery
