import DomQuery.Proofs.Matching
import DomQuery.Proofs.Traversal
import DomQuery.Selector.Query

/-!
# What a Query Finds

A query is a filter of the traversal.

One memo goes through a whole query, from candidate to candidate and from
clause to clause, while a match that is asked for on its own starts from
nothing. Both come to the clauses worked out afresh: the memo of a query is
sound at its start, and every check leaves it sound (`SelectorList.yields_check`).
So keeping the candidates that pass their check is keeping those that match, and
stopping at the first of them is taking the head of what is kept.

What remains is the order in which a node that is met more than once is told.
The set of nodes already told decides, and since it only grows, what is told of
the rest of a list is what the list holds outside of the set, without
repetition.

## Theorems

* `NodeId.firsts_eq_eraseDups`: The nodes of a list at their first places.
* `SelectorList.queryAll_eq_eraseDups`: A query filters the traversal.
* `SelectorList.queryAll_eq_filter`: So it does as it stands where no node is met
  twice.
* `SelectorList.queryFirst?_eq_find?`: The first match is the first node of the
  traversal that matches.
* `query_eq_filter_descendants`: Both, for the whole traversal.
-/

namespace DomQuery

namespace NodeId

/-- What is told of a list is told behind the nodes already kept, and is what the
    list holds of nodes not yet seen, each at its first place. -/
theorem firstsFrom_eq (kept : List NodeId) (seen : Std.TreeSet NodeId) (ns : List NodeId) :
    firstsFrom kept seen ns =
      kept.reverse ++ (ns.filter fun n => !seen.contains n).eraseDups := by
  induction ns generalizing kept seen with
  | nil => rw [firstsFrom, List.filter_nil, List.eraseDups_nil, List.append_nil]
  | cons n ns ih =>
      rw [firstsFrom]
      by_cases hseen : seen.contains n = true
      · rw [if_pos hseen, ih, List.filter_cons_of_neg (by rw [hseen]; exact Bool.false_ne_true)]
      · have hnew : (!seen.contains n) = true := by
          rw [Bool.not_eq_true] at hseen
          rw [hseen, Bool.not_false]
        -- A node is new behind this one when it was new before and is another.
        have hrest : (ns.filter fun m => !(seen.insert n).contains m) =
            (ns.filter fun m => !seen.contains m).filter fun m => !m == n := by
          rw [List.filter_filter]
          refine List.filter_congr fun m _ => ?_
          rw [Std.TreeSet.contains_insert, Bool.not_or]
          congr 2
          rw [Bool.eq_iff_iff, beq_iff_eq, Nat.compare_eq_eq, beq_iff_eq, eq_comm]
        rw [if_neg hseen, ih, List.filter_cons, if_pos hnew, List.eraseDups_cons, hrest,
          List.reverse_cons, List.append_assoc]
        rfl

theorem firsts_eq_eraseDups (ns : List NodeId) : firsts ns = ns.eraseDups := by
  have hall : (ns.filter fun n => !(∅ : Std.TreeSet NodeId).contains n) = ns :=
    List.filter_eq_self.mpr fun n _ => by rw [Std.TreeSet.contains_emptyc, Bool.not_false]
  rw [firsts, firstsFrom_eq, hall]
  rfl

end NodeId

namespace SelectorList

/-- Checking a node comes to whether it matches. -/
theorem yields_check_matches (t : Tree) (list : SelectorList) (n : NodeId) :
    Memo.Yields (Memo.Sound t list.clauses) (list.check t n) (list.matches t n) := by
  have hmatches : list.matches t n = list.clauses.any fun sel => sel.fits t n :=
    (list.yields_check t n).eq Memo.Sound.blank
  rw [hmatches]
  exact list.yields_check t n

theorem queryAll_eq_eraseDups (list : SelectorList) (t : Tree) (root : NodeId) :
    list.queryAll t root = ((t.descendants root).filter (list.matches t)).eraseDups := by
  have hfilter : Memo.Yields (Memo.Sound t list.clauses)
      ((t.descendants root).filterM (list.check t))
      ((t.descendants root).filter (list.matches t)) :=
    Memo.Yields.filterM fun n _ => list.yields_check_matches t n
  rw [queryAll, hfilter.eq Memo.Sound.blank, NodeId.firsts_eq_eraseDups]

/-- Where the traversal meets no node twice, a query is a plain filter. -/
theorem queryAll_eq_filter (list : SelectorList) {t : Tree} {root : NodeId}
    (hnodup : (t.descendants root).Nodup) :
    list.queryAll t root = (t.descendants root).filter (list.matches t) := by
  have hself : ∀ ns : List NodeId, ns.Nodup → ns.eraseDups = ns := by
    intro ns h
    induction ns with
    | nil => rfl
    | cons n ns ih =>
        rw [List.nodup_cons] at h
        have hkept : (ns.filter fun m => !m == n) = ns := List.filter_eq_self.mpr fun m hm => by
          rw [Bool.not_eq_true', beq_eq_false_iff_ne]
          exact fun heq => h.1 (heq ▸ hm)
        rw [List.eraseDups_cons, hkept, ih h.2]
  rw [queryAll_eq_eraseDups, hself _ (hnodup.filter _)]

theorem queryFirst?_eq_find? (list : SelectorList) (t : Tree) (root : NodeId) :
    list.queryFirst? t root = (t.descendants root).find? (list.matches t) := by
  have hfind : Memo.Yields (Memo.Sound t list.clauses)
      ((t.descendants root).findM? (list.check t))
      ((t.descendants root).find? (list.matches t)) :=
    Memo.Yields.findM? fun n _ => list.yields_check_matches t n
  rw [queryFirst?, hfind.eq Memo.Sound.blank]

theorem queryFirst?_eq_head? (list : SelectorList) (t : Tree) (root : NodeId) :
    list.queryFirst? t root = (list.queryAll t root).head? := by
  rw [queryFirst?_eq_find?, queryAll_eq_eraseDups, ← List.head?_filter]
  cases (t.descendants root).filter (list.matches t) with
  | nil => rfl
  | cons n ns => rw [List.eraseDups_cons, List.head?_cons, List.head?_cons]

end SelectorList

/-- A query is a filter of the traversal. Where children form no cycle, the
    traversal below a root leaves nothing on its stack; the query keeps the nodes
    that match on their own, each at its first place; and the first match is the
    first of these. -/
theorem query_eq_filter_descendants {t : Tree} (ht : Tree.NoCycle t.HasChild)
    (list : SelectorList) (root : NodeId) :
    t.Traverses (t.children root) (t.descendants root) ∧
    list.queryAll t root = ((t.descendants root).filter (list.matches t)).eraseDups ∧
    list.queryFirst? t root = (list.queryAll t root).head? ∧
    (list.queryFirst? t root = none ↔ list.queryAll t root = []) := by
  refine ⟨Tree.traverses_descendants ht root, list.queryAll_eq_eraseDups t root,
    list.queryFirst?_eq_head? t root, ?_⟩
  rw [list.queryFirst?_eq_head?, List.head?_eq_none_iff]

/-- The elements `a` and `b`, and `c` below `b`. The element `b` was made a child of
    the document first and of `a` later, and both hold it. -/
def childOfTwo : Tree :=
  (Tree.grown [(0, .element { tag := "a" }), (0, .element { tag := "b" }),
    (2, .element { tag := "c" })]).attach 1 2

theorem childOfTwo_noCycle : Tree.NoCycle childOfTwo.HasChild :=
  Tree.noCycle_hasChild_of_forall_lt (by decide)

/-- What is below a node that is met twice is met twice and told once. -/
theorem childOfTwo_queryAll : Tree.NoCycle childOfTwo.HasChild ∧
    childOfTwo.descendants 0 = [1, 2, 3, 2, 3] ∧
    SelectorList.queryAll ⟨[⟨⟨[.tag "c"]⟩, []⟩, ⟨⟨[.tag "b"]⟩, [⟨.child, ⟨[.tag "a"]⟩⟩]⟩]⟩
      childOfTwo 0 = [2, 3] :=
  ⟨childOfTwo_noCycle, by decide,
    (query_eq_filter_descendants childOfTwo_noCycle _ 0).2.1.trans (by decide)⟩

end DomQuery
