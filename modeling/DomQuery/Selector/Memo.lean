import Std.Data.TreeMap
import DomQuery.Tree.Basic

/-!
# Memos

Answers that are kept so that no question is asked twice.

A question is known by the clause it belongs to, by a depth, and by the node it
is asked about. The links of a clause that are still to be satisfied on a walk
are always its outermost ones, so their number tells which they are. The depth
is that number as long as it is counted down in step with the links, which is
for the walk to see to.

Questions are ordered, by clause, then by depth, then by node, and a memo is a
search tree over that order. Looking up and keeping an answer are thereby
computations like any other, which a closed statement about a match can carry
out.

## Main definitions

* `Question`: What a kept answer is about.
* `Memo`: The answers given so far.

## Theorems

* `Memo.getElem?_keep`: What a memo knows after an answer was kept.
-/

namespace DomQuery

/-- What a kept answer is about: so many outermost links of a clause, and the
    node at their right end. -/
structure Question where
  clause : Nat
  depth : Nat
  node : NodeId
  deriving DecidableEq, Repr

namespace Question

instance : Ord Question where
  compare q r :=
    (compare q.clause r.clause).then ((compare q.depth r.depth).then (compare q.node r.node))

instance : Std.TransOrd Question :=
  inferInstanceAs (Std.TransCmp
    (compareLex (compareOn clause) (compareLex (compareOn depth) (compareOn node))))

/-- Questions that compare as equal are the same. -/
theorem eq_of_compare_eq {q r : Question} (h : compare q r = .eq) : q = r := by
  have hrest := Ordering.then_eq_eq.mp h
  have hlast := Ordering.then_eq_eq.mp hrest.2
  rcases q with ⟨c, d, n⟩
  rcases r with ⟨c', d', n'⟩
  simp only [Nat.compare_eq_eq] at hrest hlast
  rw [hrest.1, hlast.1, hlast.2]

instance : Std.LawfulEqOrd Question where
  compare_self := Std.ReflCmp.compare_self
  eq_of_compare := eq_of_compare_eq

end Question

/-- The answers given so far. -/
abbrev Memo := Std.TreeMap Question Bool

namespace Memo

/-- The memo of one who has not been asked yet. -/
def blank : Memo := ∅

/-- The memo with one more answer. -/
def keep (memo : Memo) (q : Question) (answer : Bool) : Memo := memo.insert q answer

/-- A kept answer is known, and nothing else changes. -/
theorem getElem?_keep (memo : Memo) (q r : Question) (answer : Bool) :
    (memo.keep q answer)[r]? = if q = r then some answer else memo[r]? := by
  rw [keep, Std.TreeMap.getElem?_insert]
  simp only [Std.LawfulEqCmp.compare_eq_iff_eq]

end Memo

end DomQuery
