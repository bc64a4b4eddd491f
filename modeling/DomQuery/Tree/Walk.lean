import DomQuery.Tree.Basic

/-!
# Walks

The nodes that are met on the way from a node along its links.

Walks upwards and backwards follow one link at a time. A walk that never comes
back to a node it has met is over after as many steps as the tree has nodes, so
that many steps are allowed and no walk is cut short that ends at all. The
nearest element in front of a node is looked for in the same way.

The walk downwards is the traversal in document order: every node comes before
what is below it, and children come in their order. It keeps the nodes that are
still to be visited on a stack, first one first. A node that two others hold as
a child is visited once for each, so the number of nodes of the tree does not
bound the visits; `countBelow` counts them beforehand, and the traversal is
allowed exactly as many.

## Main definitions

* `Tree.ancestors`, `Tree.precedingSiblings`: Along parents and along neighbours
  in front.
* `Tree.parentElement?`, `Tree.prevElement?`: The nearest element in either
  direction, where for parents only the nearest node counts.
* `Tree.elementAncestors`, `Tree.precedingElements`: Along those.
* `Tree.descendants`: What is below a node, in document order.
-/

namespace DomQuery

namespace Tree

/-- The nodes met from a node on when a step is repeated, at most so many. -/
def walk (step : NodeId → Option NodeId) : Nat → NodeId → List NodeId
  | 0, _ => []
  | fuel + 1, n =>
    match step n with
    | some m => m :: walk step fuel m
    | none => []

/-- The first node with a property that is met from a node on when a step is
    repeated, among at most so many. -/
def search (step : NodeId → Option NodeId) (p : NodeId → Bool) : Nat → NodeId → Option NodeId
  | 0, _ => none
  | fuel + 1, n =>
    match step n with
    | some m => if p m then some m else search step p fuel m
    | none => none

/-- The ancestors of a node, the parent first. -/
def ancestors (t : Tree) (n : NodeId) : List NodeId := walk t.parent? t.size n

/-- The siblings in front of a node, the nearest first. -/
def precedingSiblings (t : Tree) (n : NodeId) : List NodeId := walk t.prev? t.size n

/-- The parent of a node, if it is an element. -/
def parentElement? (t : Tree) (n : NodeId) : Option NodeId := (t.parent? n).filter t.isElement

/-- The nearest sibling in front of a node that is an element. -/
def prevElement? (t : Tree) (n : NodeId) : Option NodeId := search t.prev? t.isElement t.size n

/-- The elements above a node, the parent first, as far as parents are
    elements. -/
def elementAncestors (t : Tree) (n : NodeId) : List NodeId := walk t.parentElement? t.size n

/-- The elements among the siblings in front of a node, the nearest first. -/
def precedingElements (t : Tree) (n : NodeId) : List NodeId := walk t.prevElement? t.size n

/-- How many visits a traversal pays below a node, to a depth. -/
def countTo (t : Tree) : Nat → NodeId → Nat
  | 0, _ => 0
  | depth + 1, n => (t.children n).foldr (fun child count => countTo t depth child + 1 + count) 0

/-- How many visits a traversal pays below a node. -/
def countBelow (t : Tree) (n : NodeId) : Nat := t.countTo t.size n

/-- So many visits of a traversal. The stack holds the nodes still to be
    visited, the next one first; the nodes already visited come in reverse. -/
def visit (t : Tree) (visited : List NodeId) : Nat → List NodeId → List NodeId
  | 0, _ => visited.reverse
  | _ + 1, [] => visited.reverse
  | fuel + 1, n :: stack => visit t (n :: visited) fuel (t.children n ++ stack)

/-- What is below a node, in document order. -/
def descendants (t : Tree) (n : NodeId) : List NodeId :=
  t.visit [] (t.countBelow n) (t.children n)

end Tree

end DomQuery
