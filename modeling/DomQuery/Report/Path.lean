import DomQuery.Report.Palette
import DomQuery.Tree.Walk

/-!
# Paths

The place of an element told as the elements it is inside of.

Each element is shown by its type name, its id and its classes, and the elements
stand from the outermost to the innermost with the sign of a parent between
them. That is the spelling of a selector, so where the names are identifiers
the path selects the element it was made for.

A path goes up as far as parents are elements. The node that it starts from may
be of any kind; what is no element is not shown.

## Main definitions

* `Element.label`: Type name, id and classes.
* `Tree.elementPath`: The labels of a node and the elements above it.
-/

namespace DomQuery

/-- Type name, id and classes of an element, each behind its mark. -/
def Element.label (e : Element) (p : Palette) : List Char :=
  p.tag e.tag.toList ++
    (e.id?.toList.flatMap fun id => p.attr ('#' :: id.toList)) ++
    e.classes.flatMap fun name => p.attr ('.' :: name.toList)

namespace Tree

/-- The labels of a node and the elements above it, the outermost first. -/
def pathLabels (t : Tree) (p : Palette) (n : NodeId) : List (List Char) :=
  ((n :: t.elementAncestors n).reverse.filterMap t.element?).map (·.label p)

/-- The path of a node. -/
def pathChars (t : Tree) (p : Palette) (n : NodeId) : List Char :=
  [' ', '>', ' '].intercalate (t.pathLabels p n)

/-- The path of a node. -/
def elementPath (t : Tree) (p : Palette) (n : NodeId) : String := String.ofList (t.pathChars p n)

end Tree

end DomQuery
