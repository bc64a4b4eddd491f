import DomQuery.Report.Palette
import DomQuery.Tree.Basic

/-!
# Dumps

What is below a node, a line for each node, indented by two spaces for each
level.

An element is shown by its opening tag, its attributes in increasing order of
names; an attribute with an empty value is shown by its name alone, and a value
is written as it is. A text is shown between quotes with its line feeds and
spaces made visible, so that a text of nothing but spacing can be told from
another.

The lines follow the children of a node downwards. Links that make no circle
cannot lead further down than there are nodes, so that many levels are allowed.

## Main definitions

* `Content.line`: What is shown of a node.
* `Tree.dumpLines`: The lines of a node and what is below it.
* `Tree.dump`: The lines as one text.
-/

namespace DomQuery

/-- An attribute in an opening tag. -/
def Attributes.fieldChars (p : Palette) (field : String × String) : List Char :=
  ' ' :: p.attr field.1.toList ++
    if field.2.isEmpty then [] else '=' :: '"' :: field.2.toList ++ ['"']

/-- The opening tag of an element. -/
def Element.openingTag (e : Element) (p : Palette) : List Char :=
  '<' :: p.tag e.tag.toList ++ e.attrs.sorted.flatMap (Attributes.fieldChars p) ++ ['>']

/-- A character of a text, line feeds and spaces made visible. -/
def visibleChars (c : Char) : List Char :=
  if c = '\n' then ['\\', 'n'] else if c = ' ' then ['\u00b7'] else [c]

/-- What is shown of a node. -/
def Content.line (p : Palette) : Content → List Char
  | document => p.muted "Document".toList
  | element data => data.openingTag p
  | text s => p.muted ('"' :: s.toList.flatMap visibleChars ++ ['"'])
  | comment s => p.muted ("<!-- ".toList ++ s.toList ++ " -->".toList)

namespace Tree

/-- The lines of a node at a level and of what is below it, without their line
    feeds, down to so many levels. -/
def linesTo (t : Tree) (p : Palette) : Nat → Nat → NodeId → List (List Char)
  | 0, _, _ => []
  | fuel + 1, level, n =>
    match t.cell? n with
    | none => []
    | some cell =>
      (List.replicate (2 * level) ' ' ++ cell.content.line p) ::
        cell.children.toList.flatMap (linesTo t p fuel (level + 1))

/-- The lines of a node and of what is below it. -/
def dumpLines (t : Tree) (p : Palette) (n : NodeId) : List (List Char) := t.linesTo p t.size 0 n

/-- The dump of a node: its lines, each with a line feed behind it. -/
def dumpChars (t : Tree) (p : Palette) (n : NodeId) : List Char :=
  (t.dumpLines p n).flatMap (· ++ ['\n'])

/-- The dump of a node. -/
def dump (t : Tree) (p : Palette) (n : NodeId) : String := String.ofList (t.dumpChars p n)

end Tree

end DomQuery
