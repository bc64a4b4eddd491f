import DomQuery.Json.Parser
import DomQuery.Tree.Basic

/-!
# Documents

Trees written as JSON.

A document is a list of items, each a text or an element with items inside it.
As JSON, a text is a string. An element is an object with the members `tag`, a
string, `attrs`, an object of strings, and `children`, an array of items; the
last two may be missing. An element may also be written as the array of these
three in this order, with the last ones left out. A document is an array of
items, or one item by itself.

The two readings of an array meet at the top. An array is taken as a list of
items if all it holds are items, and only otherwise as one element; so an array
of a lone string is a text, and an array of a string and an object without
members is an element.

Reading a text has two ways to fail, and they are told apart. Either the text
does not start with a JSON value, or has something else behind it; or the value
is no document. The value is matched before the text behind it is looked at, so
a value that is no document is reported as such whatever follows it.

Loading builds the tree from the top: an element is appended before the items
inside it, so positions in the tree are positions in document order.

## Main definitions

* `Document.Item`: A text, or an element with items inside.
* `Document.Item.ofJson?`, `Document.ofJson?`: The items that a value stands for.
* `Document.parse`: The items that a JSON text stands for.
* `Document.toTree`: The tree of a list of items.
* `Document.load`: The tree of a JSON text.
-/

namespace DomQuery

namespace Document

/-- A text, or an element with the items inside it. -/
inductive Item where
  | text (text : String)
  | element (data : Element) (children : List Item)

/-- Why a text is no document. -/
inductive LoadError where
  /-- The text is no JSON value. -/
  | malformed
  /-- The JSON value is no document. -/
  | notDocument
  deriving DecidableEq, Repr

/-- The wording of a failure. -/
def LoadError.message : LoadError → String
  | malformed => "malformed JSON"
  | notDocument => "data did not match any variant of untagged enum JsonDocument"

/-- The string that a value is. -/
def stringOf? : Json → Option String
  | .str s => some s
  | _ => none

/-- The attributes that a value stands for: an object of strings, the last
    value of a name winning. -/
def attributesOf? : Json → Option Attributes
  | .obj members =>
    (members.mapM fun member => (stringOf? member.2).map (member.1, ·)).map Attributes.ofList
  | _ => none

/-- The element that a value for its type and perhaps one for its attributes
    stand for. -/
def elementOf? (tag : Json) (attrs : Option Json) : Option Element :=
  match stringOf? tag, attrs with
  | some tag, none => some ⟨tag, .empty⟩
  | some tag, some attrs => (attributesOf? attrs).map (⟨tag, ·⟩)
  | none, _ => none

/-- The names that the members of an element can have. -/
def fieldNames : List String := ["tag", "attrs", "children"]

/-- Whether members have these names only, and none of them twice. -/
def hasFieldsOnly (members : List (String × Json)) : Bool :=
  members.all (fun member => fieldNames.contains member.1) &&
    fieldNames.all fun name => members.countP (·.1 == name) ≤ 1

mutual

/-- The item that a value stands for. -/
def Item.ofJson? : Json → Option Item
  | .str s => some (.text s)
  | .obj members =>
    if hasFieldsOnly members then
      match members.lookup "tag" with
      | some tag =>
        match elementOf? tag (members.lookup "attrs"), Item.ofChildren? members with
        | some data, some children => some (.element data children)
        | _, _ => none
      | none => none
    else none
  | .arr [tag] => (elementOf? tag none).map (.element · [])
  | .arr [tag, attrs] => (elementOf? tag (some attrs)).map (.element · [])
  | .arr [tag, attrs, .arr children] =>
    match elementOf? tag (some attrs), Item.ofArray? [] children with
    | some data, some children => some (.element data children)
    | _, _ => none
  | _ => none

/-- The items that the values of an array stand for, behind those already read,
    which come in reverse. -/
def Item.ofArray? (read : List Item) : List Json → Option (List Item)
  | [] => some read.reverse
  | value :: values =>
    match Item.ofJson? value with
    | some item => Item.ofArray? (item :: read) values
    | none => none

/-- The items in the first member named `children`, none if there is no such
    member. -/
def Item.ofChildren? : List (String × Json) → Option (List Item)
  | [] => some []
  | (name, value) :: members =>
    if name = "children" then
      match value with
      | .arr values => Item.ofArray? [] values
      | _ => none
    else Item.ofChildren? members

end

/-- The items that a value stands for as a whole document. -/
def ofJson? : Json → Option (List Item)
  | .arr values =>
    match Item.ofArray? [] values with
    | some items => some items
    | none => (Item.ofJson? (.arr values)).map ([·])
  | value => (Item.ofJson? value).map ([·])

/-- The items that a JSON text stands for. -/
def parse (text : String) : Except LoadError (List Item) :=
  match Json.scan? text.toList with
  | none => .error .malformed
  | some (value, rest) =>
    match ofJson? value with
    | none => .error .notDocument
    | some items => if (Json.skipJsonSpace rest).isEmpty then .ok items else .error .malformed

mutual

/-- The tree with an item appended to a node. -/
def Item.addTo (t : Tree) (parent : NodeId) : Item → Tree
  | .text s => (t.add parent (.text s)).1
  | .element data children =>
    let (t, n) := t.add parent (.element data)
    Item.addAll t n children

/-- The tree with items appended to a node, one after the other. -/
def Item.addAll (t : Tree) (parent : NodeId) : List Item → Tree
  | [] => t
  | item :: items => Item.addAll (Item.addTo t parent item) parent items

end

/-- The tree of a list of items: they and what is inside them, below the
    document. -/
def toTree (items : List Item) : Tree := Item.addAll .new Tree.root items

/-- The tree of a JSON text. -/
def load (text : String) : Except LoadError Tree := (parse text).map toTree

end Document

end DomQuery
