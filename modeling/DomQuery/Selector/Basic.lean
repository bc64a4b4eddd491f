/-!
# Selectors

The expression that a selector text stands for: a list of clauses, each a chain
of compounds joined by combinators.

A clause is read off from its right end. The rightmost compound, the subject,
is what the element under test must be; everything to its left is reached from
there, one combinator at a time. The type keeps that order: a `Selector` is its
subject together with its links, the nearest first, each link naming the
combinator and the compound on its far side. The left-hand side of a link is
then the rest of the list, so a walk over the chain is a walk over a list, and
`combine`, which makes the present subject the far side of a new link, is one
`cons`.

Nothing here asks that names be identifiers or compounds be inhabited. Those
are properties of texts that parse; the type holds every chain that can be
built by hand, and what a chain outside the grammar means is settled where it
is used.

## Main definitions

* `Simple`: A condition on one element: its type, its id or one of its classes.
* `Compound`: Conditions that one element must meet together.
* `Combinator`: How two neighbouring compounds of a chain are related.
* `Selector`: One clause: a subject and the links to its left.
* `Selector.combine`: A clause extended to the right.
* `Complex`: A clause that has a combinator, split at the rightmost one.
* `SelectorList`: The clauses between commas.
-/

namespace DomQuery

/-- A condition on one element. -/
inductive Simple where
  /-- The element has this type, letter case of ASCII aside. -/
  | tag (name : String)
  /-- The element has this id. -/
  | id (name : String)
  /-- The element has this class among its classes. -/
  | cls (name : String)
  deriving DecidableEq, Hashable, Repr

/-- Conditions that one element must meet together, in the order they were
    written. -/
structure Compound where
  parts : List Simple
  deriving DecidableEq, Hashable, Repr

/-- How the element of one compound is related to the element of the compound
    on its right. -/
inductive Combinator where
  /-- Some ancestor. -/
  | descendant
  /-- The parent. -/
  | child
  /-- The nearest element before it. -/
  | adjacent
  /-- Some element before it under the same parent. -/
  | sibling
  deriving DecidableEq, Hashable, Repr

/-- One step of a chain to the left: the combinator, and the compound on its
    far side. -/
structure Link where
  combinator : Combinator
  compound : Compound
  deriving DecidableEq, Hashable, Repr

/-- One clause: the compound that the element under test must match, and the
    links from there outwards, the nearest first. -/
structure Selector where
  subject : Compound
  links : List Link
  deriving DecidableEq, Hashable, Repr

/-- A clause with at least one combinator, split at the rightmost. -/
structure Complex where
  left : Selector
  combinator : Combinator
  right : Compound
  deriving DecidableEq, Hashable, Repr

/-- The clauses of a selector text, in their order. -/
structure SelectorList where
  clauses : List Selector
  deriving DecidableEq, Hashable, Repr

namespace Combinator

/-- The name of the combinator in full. -/
def name : Combinator → String
  | descendant => "descendant"
  | child => "child"
  | adjacent => "adjacent-sibling"
  | sibling => "general-sibling"

end Combinator

namespace Selector

/-- A clause without combinators. -/
def ofCompound (subject : Compound) : Selector := ⟨subject, []⟩

/-- The clause extended to the right. The new compound becomes the subject, and
    the old subject the far side of the new link. -/
def combine (sel : Selector) (comb : Combinator) (right : Compound) : Selector :=
  ⟨right, ⟨comb, sel.subject⟩ :: sel.links⟩

/-- The number of combinators. -/
def depth (sel : Selector) : Nat := sel.links.length

/-- The clause split at its rightmost combinator, if it has one. -/
def complex? (sel : Selector) : Option Complex :=
  match sel.links with
  | [] => none
  | ⟨comb, far⟩ :: links => some ⟨⟨far, links⟩, comb, sel.subject⟩

@[simp] theorem depth_ofCompound (c : Compound) : (ofCompound c).depth = 0 := rfl

@[simp] theorem subject_combine (sel : Selector) (comb : Combinator) (right : Compound) :
    (sel.combine comb right).subject = right := rfl

@[simp] theorem depth_combine (sel : Selector) (comb : Combinator) (right : Compound) :
    (sel.combine comb right).depth = sel.depth + 1 := rfl

/-- Splitting a clause undoes extending it. -/
@[simp] theorem complex?_combine (sel : Selector) (comb : Combinator) (right : Compound) :
    (sel.combine comb right).complex? = some ⟨sel, comb, right⟩ := rfl

end Selector

namespace Complex

/-- The clause that was split. -/
def toSelector (c : Complex) : Selector := c.left.combine c.combinator c.right

end Complex

/-- A split clause put together again is the clause. -/
theorem Selector.toSelector_of_complex? {sel : Selector} {c : Complex}
    (h : sel.complex? = some c) : c.toSelector = sel := by
  rcases sel with ⟨subject, _ | ⟨⟨comb, far⟩, links⟩⟩
  · exact absurd h (by simp [complex?])
  · cases h
    rfl

end DomQuery
