import DomQuery.Selector.Basic

/-!
# Writing Selectors

The one spelling in which a selector is shown: no spacing inside a compound, one
space for the descendant combinator, one on either side of a written one, and
a comma with a space between clauses.

A clause is held from its subject outwards and written from left to right, so
the links are written far side first. Every writer gives characters rather than
a finished string; strings are made at the very end, where a text leaves the
library.

## Main definitions

* `Simple.chars`, `Compound.chars`, `Combinator.chars`, `Link.chars`,
  `Selector.chars`, `SelectorList.chars`: The spelling of each part.
-/

namespace DomQuery

/-- A type name stands bare; an id and a class stand behind their mark. -/
def Simple.chars : Simple → List Char
  | tag name => name.toList
  | id name => '#' :: name.toList
  | cls name => '.' :: name.toList

/-- The conditions of a compound follow one another without anything between
    them. -/
def Compound.chars (c : Compound) : List Char := c.parts.flatMap Simple.chars

/-- A combinator with the spacing around it. -/
def Combinator.chars : Combinator → List Char
  | descendant => [' ']
  | child => [' ', '>', ' ']
  | adjacent => [' ', '+', ' ']
  | sibling => [' ', '~', ' ']

/-- A link as it stands to the left of a compound. -/
def Link.chars (link : Link) : List Char := link.compound.chars ++ link.combinator.chars

/-- A clause from its leftmost compound to its subject: the links, the far ones
    first, and then the subject. -/
def Selector.chars (sel : Selector) : List Char :=
  sel.links.reverse.flatMap Link.chars ++ sel.subject.chars

/-- The clauses of a list with a comma and a space between them. -/
def SelectorList.chars (list : SelectorList) : List Char :=
  [',', ' '].intercalate (list.clauses.map Selector.chars)

instance : ToString Simple := ⟨fun s => String.ofList s.chars⟩

instance : ToString Compound := ⟨fun c => String.ofList c.chars⟩

instance : ToString Selector := ⟨fun sel => String.ofList sel.chars⟩

instance : ToString Complex := ⟨fun c => toString c.toSelector⟩

instance : ToString SelectorList := ⟨fun list => String.ofList list.chars⟩

/-- Extending a clause writes the combinator and the new subject behind it. -/
theorem Selector.chars_combine (sel : Selector) (comb : Combinator) (right : Compound) :
    (sel.combine comb right).chars = sel.chars ++ comb.chars ++ right.chars := by
  simp only [chars, combine, Link.chars, List.reverse_cons, List.flatMap_append,
    List.flatMap_cons, List.flatMap_nil, List.append_nil, List.append_assoc]

end DomQuery
