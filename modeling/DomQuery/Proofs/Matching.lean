import DomQuery.Proofs.Acyclic
import DomQuery.Proofs.Yields
import DomQuery.Selector.Matching
import Mathlib.Data.List.Induction

/-!
# The Meaning of a Match

What it says about a tree that a node matches a selector.

A clause with `k` combinators matches a node when there are `k + 1` nodes, one
for each of its compounds from left to right, the last of them the node itself,
such that every compound holds at its own node and every combinator relates its
two neighbours. That is `Selector.Placement`, and it speaks of no order in
which candidates are tried and of no memo.

The way there has two halves, with `Selector.fits` between them: the clause
worked out afresh by plain recursion, every candidate asked about and nothing
kept. `Link.yields_hold` is the first half. Every answer in a memo is about a
question, a question is about the outermost links of one clause, and
`Memo.Sound` says that the answer is the one worked out afresh for these links.
A walk along the chain only ever asks about links that are outermost in its own
clause, and it counts its depth down in step with them, so that the depth says
which links they are. Hence looking up is right whatever was asked before, and
what is kept afterwards is right again. `Selector.fits_chain_iff` is the second
half, an induction that lets the chain grow at its right end, where the subject
is.

## Main definitions

* `Selector.chain`: The clause that a compound and further links build up.
* `Selector.extend`: A clause extended to the right, link by link.
* `Tree.Relates`: What the four combinators mean.
* `Compound.HoldsAt`: What a compound means.
* `Selector.Placement`: Nodes for the compounds of a chain.
* `Link.satisfied`, `Selector.fits`: A clause worked out afresh.
* `Memo.Sound`: Every answer of a memo is the one worked out afresh.

## Theorems

* `Link.yields_hold`: The memo never changes an answer.
* `Selector.matches_eq_fits`, `Complex.matches_eq_matches`,
  `SelectorList.matches_eq_any`: A match is a clause worked out afresh.
* `Selector.fits_chain_iff`: A clause fits where its compounds can be placed.
* `matches_iff_placement`: The meaning of a match.
-/

namespace DomQuery

/-- The clause that starts with one compound and is extended to the right, link
    by link. -/
def Selector.chain (first : Compound) (steps : List (Combinator × Compound)) : Selector :=
  steps.foldl (fun sel step => sel.combine step.1 step.2) (.ofCompound first)

/-- The clause extended to the right, link by link. -/
def Selector.extend (sel : Selector) (steps : List (Combinator × Compound)) : Selector :=
  steps.foldl (fun sel step => sel.combine step.1 step.2) sel

theorem Selector.extend_concat (sel : Selector) (steps : List (Combinator × Compound))
    (comb : Combinator) (right : Compound) :
    sel.extend (steps ++ [(comb, right)]) = (sel.extend steps).combine comb right := by
  rw [extend, List.foldl_append]
  rfl

/-- How a combinator relates the node on its left to the node on its right. -/
def Tree.Relates (t : Tree) : Combinator → NodeId → NodeId → Prop
  | .descendant, m, n => Relation.TransGen (Tree.Follows t.parentElement?) n m
  | .child, m, n => t.parentElement? n = some m
  | .adjacent, m, n => t.prevElement? n = some m
  | .sibling, m, n => Relation.TransGen (Tree.Follows t.prevElement?) n m

/-- The node is an element, and every condition of the compound holds on it. -/
def Compound.HoldsAt (c : Compound) (t : Tree) (n : NodeId) : Prop :=
  t.isElement n = true ∧ ∀ s ∈ c.parts, s.matches t n = true

/-- Nodes for the compounds of a chain, numbered from left to right. -/
structure Selector.Placement (t : Tree) (first : Compound) (steps : List (Combinator × Compound))
    (n : NodeId) (place : Nat → NodeId) : Prop where
  /-- The last compound is placed at the node that is matched. -/
  last : place steps.length = n
  /-- The leftmost compound holds at its place. -/
  leftmost : first.HoldsAt t (place 0)
  /-- So does every compound behind a combinator. -/
  holds : ∀ i (hi : i < steps.length), steps[i].2.HoldsAt t (place (i + 1))
  /-- The combinators relate neighbouring places. -/
  relates : ∀ i (hi : i < steps.length), t.Relates steps[i].1 (place i) (place (i + 1))

theorem Compound.matches_iff_holdsAt {c : Compound} {t : Tree} {n : NodeId} :
    c.matches t n = true ↔ c.HoldsAt t n := by
  rw [Compound.matches, Compound.HoldsAt, Tree.isElement]
  rcases he : t.element? n with _ | e
  · simp only [Option.any_none, Option.isSome_none, Bool.false_eq_true, false_and]
  · simp only [Option.any_some, Option.isSome_some, true_and, List.all_eq_true, Simple.matches, he]

/-- The candidates of a combinator are the nodes that it relates. -/
theorem Tree.Acyclic.mem_related_iff {t : Tree} (ht : t.Acyclic) {comb : Combinator}
    {m n : NodeId} : m ∈ t.related comb n ↔ t.Relates comb m n := by
  have hone : ∀ step : NodeId → Option NodeId, m ∈ Tree.walk step 1 n ↔ step n = some m := by
    intro step
    rw [Tree.walk]
    rcases step n with _ | k
    · simp only [List.not_mem_nil, reduceCtorEq]
    · simp only [Tree.walk, List.mem_singleton, Option.some.injEq, eq_comm]
  cases comb with
  | descendant => exact ht.mem_elementAncestors_iff
  | child => exact hone t.parentElement?
  | adjacent => exact hone t.prevElement?
  | sibling => exact ht.mem_precedingElements_iff

/-- Whether the chain to the left of a matched compound is there, worked out
    afresh. -/
def Link.satisfied (t : Tree) : List Link → NodeId → Bool
  | [], _ => true
  | ⟨comb, far⟩ :: links, n =>
    (t.related comb n).any fun m => far.matches t m && satisfied t links m

theorem Link.satisfied_cons {t : Tree} {n : NodeId} {comb : Combinator} {far : Compound}
    {links : List Link} : satisfied t (⟨comb, far⟩ :: links) n = true ↔
      ∃ m ∈ t.related comb n, far.matches t m = true ∧ satisfied t links m = true := by
  simp only [satisfied, List.any_eq_true, Bool.and_eq_true]

/-- Whether a node matches a clause, worked out afresh. -/
def Selector.fits (t : Tree) (sel : Selector) (n : NodeId) : Bool :=
  sel.subject.matches t n && Link.satisfied t sel.links n

/-- An extended clause fits where its new subject matches and the clause fits at
    a candidate. -/
theorem Selector.fits_combine (t : Tree) (sel : Selector) (comb : Combinator) (right : Compound)
    (n : NodeId) :
    (sel.combine comb right).fits t n =
      (right.matches t n && (t.related comb n).any (sel.fits t)) := rfl

/-- The links that a question is about: some links, as many as it says, that are
    the outermost ones of the clause it names. -/
structure Question.About (clauses : List Selector) (q : Question) (links : List Link) : Prop where
  ne_nil : links ≠ []
  length_eq : links.length = q.depth
  outermost : ∃ sel, clauses[q.clause]? = some sel ∧ links <:+ sel.links

theorem Question.About.unique {clauses : List Selector} {q : Question} {links links' : List Link}
    (h : q.About clauses links) (h' : q.About clauses links') : links = links' := by
  rcases h.outermost with ⟨sel, hsel, hsuffix⟩
  rcases h'.outermost with ⟨sel', hsel', hsuffix'⟩
  rw [hsel, Option.some.injEq] at hsel'
  subst hsel'
  rw [List.suffix_iff_eq_drop.mp hsuffix, List.suffix_iff_eq_drop.mp hsuffix', h.length_eq,
    h'.length_eq]

/-- Every answer of a memo is about a question that the clauses give rise to, and
    is the one worked out afresh. -/
def Memo.Sound (t : Tree) (clauses : List Selector) (memo : Memo) : Prop :=
  ∀ (q : Question) (answer : Bool), memo[q]? = some answer →
    ∃ links, q.About clauses links ∧ answer = Link.satisfied t links q.node

namespace Memo.Sound

variable {t : Tree} {clauses : List Selector} {memo : Memo}

theorem blank : Sound t clauses blank := by
  intro q answer h
  rw [Memo.blank, Std.TreeMap.getElem?_emptyc] at h
  exact absurd h (Option.some_ne_none answer).symm

theorem keep (h : Sound t clauses memo) {q : Question} {links : List Link}
    (hq : q.About clauses links) :
    Sound t clauses (memo.keep q (Link.satisfied t links q.node)) := by
  intro r answer hr
  rw [getElem?_keep] at hr
  by_cases hqr : q = r
  · -- The answer that was just kept.
    rw [if_pos hqr, Option.some.injEq] at hr
    rw [← hqr]
    exact ⟨links, hq, hr.symm⟩
  · rw [if_neg hqr] at hr
    exact h r answer hr

/-- What is known about the links of a question is what they come to. -/
theorem answer_eq (h : Sound t clauses memo) {q : Question} {links : List Link}
    (hq : q.About clauses links) {answer : Bool} (hanswer : memo[q]? = some answer) :
    answer = Link.satisfied t links q.node := by
  rcases h q answer hanswer with ⟨links', hq', heq⟩
  rw [heq, hq.unique hq']

end Memo.Sound

namespace Link

variable {t : Tree} {clause depth n : Nat} {comb : Combinator} {far : Compound}
  {links : List Link} {memo : Memo}

/-- Asking about the candidates of a link, the nearest first. The depth is that of
    the links behind it. -/
def askRelated (t : Tree) (clause depth : Nat) (comb : Combinator) (far : Compound)
    (links : List Link) (n : NodeId) : StateM Memo Bool :=
  (t.related comb n).anyM fun m =>
    if far.matches t m then hold t clause depth links m else pure false

theorem run_hold_of_known {answer : Bool}
    (h : memo[(⟨clause, depth, n⟩ : Question)]? = some answer) :
    (hold t clause depth (⟨comb, far⟩ :: links) n).run memo = (answer, memo) := by
  rw [hold]
  simp only [StateT.run_bind, StateT.run_get, pure_bind, h]
  rfl

theorem run_hold_of_unknown (h : memo[(⟨clause, depth, n⟩ : Question)]? = none) :
    (hold t clause depth (⟨comb, far⟩ :: links) n).run memo =
      (((askRelated t clause (depth - 1) comb far links n).run memo).1,
        ((askRelated t clause (depth - 1) comb far links n).run memo).2.keep ⟨clause, depth, n⟩
          ((askRelated t clause (depth - 1) comb far links n).run memo).1) := by
  rw [hold]
  simp only [StateT.run_bind, StateT.run_get, pure_bind, h, Memo.anyOnWalk_eq_anyM]
  rfl

/-- The memo never changes an answer: whatever right answers are known, holding
    the outermost links of a clause at their depth comes to what they come to
    afresh, and only right answers are known afterwards. -/
theorem yields_hold {clauses : List Selector} {sel : Selector}
    (hsel : clauses[clause]? = some sel) (hlinks : links <:+ sel.links)
    (hdepth : links.length = depth) :
    Memo.Yields (Memo.Sound t clauses) (hold t clause depth links n) (satisfied t links n) := by
  induction links generalizing depth n with
  | nil => exact Memo.Yields.pure true
  | cons link links ih =>
      rcases link with ⟨comb, far⟩
      have hrest : links <:+ sel.links := (List.suffix_cons _ links).trans hlinks
      have habout : Question.About clauses ⟨clause, depth, n⟩ (⟨comb, far⟩ :: links) :=
        ⟨List.cons_ne_nil _ _, hdepth, sel, hsel, hlinks⟩
      have hask : Memo.Yields (Memo.Sound t clauses)
          (askRelated t clause (depth - 1) comb far links n)
          (satisfied t (⟨comb, far⟩ :: links) n) := by
        refine Memo.Yields.anyM fun m _ => ?_
        cases hfar : far.matches t m with
        | true => exact ih hrest (Nat.eq_sub_of_add_eq hdepth)
        | false => exact Memo.Yields.pure false
      -- A known answer is right by the invariant, and one that is found out is kept.
      intro memo hmemo
      rcases hknown : memo[(⟨clause, depth, n⟩ : Question)]? with _ | answer
      · rcases hask memo hmemo with ⟨hvalue, hkept⟩
        rw [run_hold_of_unknown hknown, hvalue]
        exact ⟨rfl, hkept.keep habout⟩
      · rw [run_hold_of_known hknown]
        exact ⟨hmemo.answer_eq habout hknown, hmemo⟩

end Link

theorem Selector.yields_check {t : Tree} {clauses : List Selector} {clause : Nat} {sel : Selector}
    (hsel : clauses[clause]? = some sel) (n : NodeId) :
    Memo.Yields (Memo.Sound t clauses) (sel.check t clause n) (sel.fits t n) := by
  rw [Selector.check, Selector.fits]
  cases sel.subject.matches t n with
  | true => exact Link.yields_hold hsel List.suffix_rfl rfl
  | false => exact Memo.Yields.pure false

/-- Checking all clauses comes to the clauses worked out afresh, one memo serving
    them all. -/
theorem SelectorList.yields_check (t : Tree) (list : SelectorList) (n : NodeId) :
    Memo.Yields (Memo.Sound t list.clauses) (list.check t n)
      (list.clauses.any fun sel => sel.fits t n) := by
  have hask : Memo.Yields (Memo.Sound t list.clauses) (list.check t n)
      (list.clauses.zipIdx.any fun p => p.1.fits t n) :=
    Memo.Yields.anyM fun p hp =>
      Selector.yields_check (List.mem_zipIdx_iff_getElem?.mp hp) n
  -- The numbers of the clauses name the questions and are of no use afresh.
  have hany : (list.clauses.zipIdx.any fun p => p.1.fits t n) =
      ((list.clauses.zipIdx.map Prod.fst).any fun sel => sel.fits t n) := by
    rw [List.any_map]
    rfl
  rwa [hany, List.zipIdx_map_fst] at hask

theorem Selector.matches_eq_fits (sel : Selector) (t : Tree) (n : NodeId) :
    sel.matches t n = sel.fits t n :=
  (@Selector.yields_check t [sel] 0 sel rfl n).eq Memo.Sound.blank

theorem Complex.matches_eq_matches (c : Complex) (t : Tree) (n : NodeId) :
    c.matches t n = c.toSelector.matches t n := by
  -- The links of the split clause are those of the clause it was split from.
  have hhold : Memo.Yields (Memo.Sound t [c.toSelector])
      (Link.hold t 0 (c.left.depth + 1) c.toSelector.links n)
      (Link.satisfied t c.toSelector.links n) :=
    Link.yields_hold rfl List.suffix_rfl rfl
  rw [Selector.matches_eq_fits]
  exact congrArg (c.right.matches t n && ·) (hhold.eq Memo.Sound.blank)

theorem SelectorList.matches_eq_any (list : SelectorList) (t : Tree) (n : NodeId) :
    list.matches t n = list.clauses.any fun sel => sel.matches t n := by
  simp only [Selector.matches_eq_fits]
  exact (list.yields_check t n).eq Memo.Sound.blank

theorem SelectorList.matches_iff_fits {list : SelectorList} {t : Tree} {n : NodeId} :
    list.matches t n = true ↔ ∃ sel ∈ list.clauses, sel.fits t n = true := by
  simp only [SelectorList.matches_eq_any, List.any_eq_true, Selector.matches_eq_fits]

namespace Selector

variable {t : Tree} {first : Compound} {steps : List (Combinator × Compound)} {n : NodeId}

theorem chain_concat (first : Compound) (steps : List (Combinator × Compound)) (comb : Combinator)
    (right : Compound) :
    chain first (steps ++ [(comb, right)]) = (chain first steps).combine comb right :=
  extend_concat (.ofCompound first) steps comb right

namespace Placement

variable {place : Nat → NodeId} {comb : Combinator} {right : Compound}

/-- Without the rightmost compound, what is left of a placement is a placement at
    the node next to last. -/
theorem of_concat (h : Placement t first (steps ++ [(comb, right)]) n place) :
    Placement t first steps (place steps.length) place := by
  have hlen : steps.length < (steps ++ [(comb, right)]).length := by
    rw [List.length_append, List.length_singleton]
    omega
  refine ⟨rfl, h.leftmost, fun i hi => ?_, fun i hi => ?_⟩
  · have hholds := h.holds i (by omega)
    rwa [List.getElem_append_left hi] at hholds
  · have hrelates := h.relates i (by omega)
    rwa [List.getElem_append_left hi] at hrelates

/-- A placement of a chain goes on to a compound on its right. -/
theorem concat {m : NodeId} (h : Placement t first steps m place) (hright : right.HoldsAt t n)
    (hrel : t.Relates comb m n) :
    Placement t first (steps ++ [(comb, right)]) n
      fun i => if i ≤ steps.length then place i else n := by
  have hlen : (steps ++ [(comb, right)]).length = steps.length + 1 := by
    rw [List.length_append, List.length_singleton]
  refine ⟨?_, ?_, fun i hi => ?_, fun i hi => ?_⟩
  · simp only [hlen]
    rw [if_neg (by omega)]
  · simp only [Nat.zero_le, if_true]
    exact h.leftmost
  · by_cases hlast : i < steps.length
    · rw [List.getElem_append_left hlast, if_pos (by omega)]
      exact h.holds i hlast
    · -- The compound added last is placed at the node that is matched.
      have heq : i = steps.length := by omega
      subst heq
      rw [List.getElem_concat_length rfl, if_neg (by omega)]
      exact hright
  · by_cases hlast : i < steps.length
    · rw [List.getElem_append_left hlast, if_pos (by omega), if_pos (by omega)]
      exact h.relates i hlast
    · have heq : i = steps.length := by omega
      subst heq
      rw [List.getElem_concat_length rfl, if_pos (Nat.le_refl _), if_neg (by omega), h.last]
      exact hrel

end Placement

/-- A clause fits at a node where its compounds can be placed so that the last
    one is at the node. -/
theorem fits_chain_iff (ht : t.Acyclic) :
    (chain first steps).fits t n = true ↔ ∃ place, Placement t first steps n place := by
  induction steps using List.reverseRecOn generalizing n with
  | nil =>
      have hfits : (chain first []).fits t n = first.matches t n := Bool.and_true _
      rw [hfits, Compound.matches_iff_holdsAt]
      constructor
      · intro h
        exact ⟨fun _ => n, rfl, h, fun i hi => absurd hi (Nat.not_lt_zero i),
          fun i hi => absurd hi (Nat.not_lt_zero i)⟩
      · rintro ⟨place, h⟩
        rw [← h.last]
        exact h.leftmost
  | append_singleton steps step ih =>
      rcases step with ⟨comb, right⟩
      rw [chain_concat, fits_combine, Bool.and_eq_true, List.any_eq_true,
        Compound.matches_iff_holdsAt]
      constructor
      · rintro ⟨hright, m, hm, hfits⟩
        rcases ih.mp hfits with ⟨place, hplace⟩
        exact ⟨_, hplace.concat hright (ht.mem_related_iff.mp hm)⟩
      · rintro ⟨place, h⟩
        have hlen : steps.length < (steps ++ [(comb, right)]).length := by
          rw [List.length_append, List.length_singleton]
          omega
        -- The place next to last is the candidate, and the last one the node.
        have hlast := h.last
        rw [List.length_append, List.length_singleton] at hlast
        have hright := h.holds steps.length hlen
        have hrel := h.relates steps.length hlen
        rw [List.getElem_concat_length rfl, hlast] at hright hrel
        exact ⟨hright, place steps.length, ht.mem_related_iff.mpr hrel, ih.mpr ⟨place, h.of_concat⟩⟩

end Selector

/-- The meaning of a match. In a tree without cycles a clause matches the nodes
    at which its compounds can be placed, a split clause matches what the clause
    does, and a list matches what one of its clauses does. -/
theorem matches_iff_placement {t : Tree} (ht : t.Acyclic) :
    (∀ first steps n, (Selector.chain first steps).matches t n = true ↔
      ∃ place, Selector.Placement t first steps n place) ∧
    (∀ (c : Complex) n, c.matches t n = c.toSelector.matches t n) ∧
    (∀ (list : SelectorList) n,
      list.matches t n = true ↔ ∃ sel ∈ list.clauses, sel.matches t n = true) := by
  refine ⟨fun first steps n => ?_, fun c n => c.matches_eq_matches t n, fun list n => ?_⟩
  · rw [Selector.matches_eq_fits]
    exact Selector.fits_chain_iff ht
  · rw [SelectorList.matches_eq_any, List.any_eq_true]

/-- The tree that grows from the document by new nodes, each told with its
    parent. -/
def Tree.grown (nodes : List (NodeId × Content)) : Tree :=
  nodes.foldl (fun t node => (t.add node.1 node.2).1) .new

/-- The elements `a`, `b`, `d`, `b` and `c` below one another, and behind `c` a
    text and the element `e`. -/
def nestedElements : Tree :=
  .grown [(0, .element { tag := "a" }), (1, .element { tag := "b" }), (2, .element { tag := "d" }),
    (3, .element { tag := "b" }), (4, .element { tag := "c" }), (4, .text "."),
    (4, .element { tag := "e" })]

theorem nestedElements_acyclic : nestedElements.Acyclic := .of_forall_lt (by decide)

/-- In `a > b c ~ e` the nearest `b` above `c` is no child of an `a`, and the
    placement goes past it to the one that is. -/
theorem nestedElements_placement : nestedElements.Acyclic ∧
    ∃ place, Selector.Placement nestedElements ⟨[.tag "a"]⟩
      [(.child, ⟨[.tag "B"]⟩), (.descendant, ⟨[.tag "c"]⟩), (.sibling, ⟨[.tag "e"]⟩)] 7 place :=
  ⟨nestedElements_acyclic, ((matches_iff_placement nestedElements_acyclic).1 _ _ 7).mp (by decide)⟩

end DomQuery
