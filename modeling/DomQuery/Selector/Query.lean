import Std.Data.TreeSet
import DomQuery.Selector.Matching

/-!
# Queries

The nodes below a node that match a selector list, in document order.

Candidates are the nodes below the root of the query; the root itself is none.
What a candidate is related to is looked for in the whole tree all the same, so
the root limits the answers and not the elements that a chain may pass through.

One memo serves all candidates of a query and all clauses. A node that is met
twice is told once, at its first place.

## Main definitions

* `SelectorList.queryAll`: Every match.
* `SelectorList.queryFirst?`: The first match.
-/

namespace DomQuery

/-- A list without the repetitions of what came before. The nodes already kept
    come in reverse. -/
def NodeId.firstsFrom (kept : List NodeId) (seen : Std.TreeSet NodeId) : List NodeId → List NodeId
  | [] => kept.reverse
  | n :: ns =>
    if seen.contains n then firstsFrom kept seen ns
    else firstsFrom (n :: kept) (seen.insert n) ns

/-- The nodes of a list at their first places. -/
def NodeId.firsts (ns : List NodeId) : List NodeId := firstsFrom [] ∅ ns

namespace SelectorList

/-- Every node below a root that matches one of the clauses, in document order
    and once. -/
def queryAll (list : SelectorList) (t : Tree) (root : NodeId) : List NodeId :=
  NodeId.firsts (((t.descendants root).filterM (list.check t)).run .blank).1

/-- The first node below a root, in document order, that matches one of the
    clauses. -/
def queryFirst? (list : SelectorList) (t : Tree) (root : NodeId) : Option NodeId :=
  (((t.descendants root).findM? (list.check t)).run .blank).1

end SelectorList

end DomQuery
