import DomQuery.Proofs.Query

/-!
# Compounds without Conditions

What a clause means that has a compound without a condition in it.

No text is read as such a compound, but a clause can be built by hand from any, at the
subject or at any depth of its chain. Having no condition that could fail, a bare
compound still asks for one thing, as every compound does: the node at its place has
to be an element. So it is closed to documents, texts and comments, and open to every
element there is. A chain is read as always. Where it has a bare compound, some element
must stand in the relation that the combinators ask for, and which one it is does not
matter; where no element stands there the clause matches nothing.

That is why matching can be said place by place, with one demand at all places and the
conditions at those only that are not bare. What a query finds is then elements, be the
clauses as they may, and below a root with no element below it there is nothing to find.

## Main definitions

* `Compound.Bare`: There is no condition.

## Theorems

* `Compound.holdsAt_iff`: What a compound asks for besides its conditions.
* `Selector.placement_iff`: A placement told by one list of compounds.
* `Selector.matches_eq_false`: Nothing but elements match.
* `bare_placed_at_element`: What clauses match and queries find.
* `bare_matches_element`: A bare compound matches an element.
-/

namespace DomQuery

/-- The compound asks for no condition. -/
def Compound.Bare (c : Compound) : Prop := c.parts = []

instance : DecidablePred Compound.Bare := fun c => inferInstanceAs (Decidable (c.parts = []))

section Matching

variable {t : Tree} {n : NodeId}

/-- A compound asks for an element, and for its conditions if it has any. -/
theorem Compound.holdsAt_iff {c : Compound} :
    c.HoldsAt t n ↔ t.isElement n = true ∧ (¬ c.Bare → c.HoldsAt t n) := by
  constructor
  · intro h
    exact ⟨h.1, fun _ => h⟩
  · rintro ⟨helement, hholds⟩
    by_cases hbare : c.Bare
    · -- Without conditions there is nothing else to show.
      unfold Bare at hbare
      refine ⟨helement, fun s hs => ?_⟩
      rw [hbare] at hs
      exact absurd hs List.not_mem_nil
    · exact hholds hbare

/-- Every compound of a chain holds at its place, the leftmost one at the first. -/
theorem Selector.placement_iff {first : Compound} {steps : List (Combinator × Compound)}
    {place : Nat → NodeId} :
    Placement t first steps n place ↔ place steps.length = n ∧
      (∀ (i : Nat) (c : Compound), (first :: steps.map Prod.snd)[i]? = some c →
        c.HoldsAt t (place i)) ∧
      ∀ i (hi : i < steps.length), t.Relates steps[i].1 (place i) (place (i + 1)) := by
  constructor
  · rintro ⟨hlast, hleftmost, hholds, hrelates⟩
    refine ⟨hlast, ?_, hrelates⟩
    intro i c hc
    cases i with
    | zero =>
        simp only [List.getElem?_cons_zero, Option.some.injEq] at hc
        rw [← hc]
        exact hleftmost
    | succ i =>
        simp only [List.getElem?_cons_succ, List.getElem?_map, Option.map_eq_some_iff] at hc
        rcases hc with ⟨step, hstep, rfl⟩
        rcases List.getElem?_eq_some_iff.mp hstep with ⟨hi, rfl⟩
        exact hholds i hi
  · rintro ⟨hlast, hholds, hrelates⟩
    refine ⟨hlast, hholds 0 first rfl, ?_, hrelates⟩
    intro i hi
    refine hholds (i + 1) _ ?_
    simp only [List.getElem?_cons_succ, List.getElem?_map, List.getElem?_eq_getElem hi,
      Option.map_some]

/-- What is no element matches no clause, however few conditions there are. -/
theorem Selector.matches_eq_false (sel : Selector) (hn : t.isElement n = false) :
    sel.matches t n = false := by
  rw [Selector.matches_eq_fits, Selector.fits]
  have hsubject : sel.subject.matches t n = false := by
    rw [Bool.eq_false_iff]
    intro hmatches
    have helement := (Compound.matches_iff_holdsAt.mp hmatches).1
    rw [hn] at helement
    exact Bool.false_ne_true helement
  rw [hsubject, Bool.false_and]

theorem SelectorList.mem_queryAll_iff_matches {list : SelectorList} {root : NodeId} :
    n ∈ list.queryAll t root ↔
      n ∈ t.descendants root ∧ ∃ sel ∈ list.clauses, sel.matches t n = true := by
  rw [queryAll_eq_eraseDups, List.mem_eraseDups, List.mem_filter, matches_eq_any, List.any_eq_true]

end Matching

/-- What clauses match that may have bare compounds in them. A clause matches the nodes
    at which its compounds can be placed so that there is an element at every place,
    and the conditions of every compound that is not bare hold there. So nothing
    matches that is no element, and a clause whose places no elements can take matches
    nothing. A query finds elements only, those that one of its clauses matches, and it
    is empty where there is no element below its root. -/
theorem bare_placed_at_element {t : Tree} (ht : t.Acyclic) :
    (∀ first steps n, (Selector.chain first steps).matches t n = true ↔
      ∃ place : Nat → NodeId, place steps.length = n ∧
        (∀ (i : Nat) (c : Compound), (first :: steps.map Prod.snd)[i]? = some c →
          t.isElement (place i) = true ∧ (¬ c.Bare → c.HoldsAt t (place i))) ∧
        ∀ i (hi : i < steps.length), t.Relates steps[i].1 (place i) (place (i + 1))) ∧
    (∀ (sel : Selector) n, t.isElement n = false → sel.matches t n = false) ∧
    ∀ (list : SelectorList) root,
      (∀ n, n ∈ list.queryAll t root ↔ n ∈ t.descendants root ∧ t.isElement n = true ∧
        ∃ sel ∈ list.clauses, sel.matches t n = true) ∧
      ((∀ n ∈ t.descendants root, t.isElement n = false) → list.queryAll t root = []) := by
  have hfound : ∀ (list : SelectorList) root n, n ∈ list.queryAll t root ↔
      n ∈ t.descendants root ∧ t.isElement n = true ∧
        ∃ sel ∈ list.clauses, sel.matches t n = true := by
    intro list root n
    rw [SelectorList.mem_queryAll_iff_matches]
    refine and_congr_right fun _ => ⟨?_, And.right⟩
    rintro ⟨sel, hsel, hmatches⟩
    refine ⟨?_, sel, hsel, hmatches⟩
    by_contra hn
    rw [sel.matches_eq_false (Bool.eq_false_iff.mpr hn)] at hmatches
    exact Bool.false_ne_true hmatches
  refine ⟨?_, fun sel n hn => sel.matches_eq_false hn, fun list root => ⟨hfound list root, ?_⟩⟩
  · intro first steps n
    rw [Selector.matches_eq_fits, Selector.fits_chain_iff ht]
    refine exists_congr fun place => ?_
    rw [Selector.placement_iff]
    simp only [← Compound.holdsAt_iff]
  · intro hnone
    rw [List.eq_nil_iff_forall_not_mem]
    intro n hn
    rcases (hfound list root n).mp hn with ⟨hbelow, helement, _⟩
    rw [hnone n hbelow] at helement
    exact Bool.false_ne_true helement

/-- The places that a bare left operand can take in front of a `c` are the elements above
    it. The parent of the outermost element is the document, so no `a` has a bare
    compound for its parent, and neither has a text anything in its own place. -/
theorem nestedElements_bare : nestedElements.Acyclic ∧
    (∃ place : Nat → NodeId, place 2 = 5 ∧ nestedElements.isElement (place 0) = true ∧
      nestedElements.Relates .child (place 0) (place 1)) ∧
    (Selector.chain ⟨[]⟩ [(.child, ⟨[.tag "a"]⟩)]).matches nestedElements 1 = false ∧
    (Selector.chain ⟨[]⟩ []).matches nestedElements 6 = false := by
  rcases bare_placed_at_element nestedElements_acyclic with ⟨hplaced, hclosed, _⟩
  have hmatches : (Selector.chain ⟨[]⟩ [(.child, ⟨[.tag "b"]⟩),
      (.descendant, ⟨[.tag "c"]⟩)]).matches nestedElements 5 = true := by decide
  rcases (hplaced _ _ _).mp hmatches with ⟨place, hlast, hholds, hrelates⟩
  exact ⟨nestedElements_acyclic, ⟨place, hlast, (hholds 0 _ rfl).1, hrelates 0 (by decide)⟩,
    by decide, hclosed _ 6 (by decide)⟩

/-- The clause of one bare compound matches an element and is found by a query; so do
    clauses with a bare left operand, next to the subject or behind another one. -/
theorem bare_matches_element : nestedElements.Acyclic ∧ (⟨[]⟩ : Compound).Bare ∧
    (Selector.chain ⟨[]⟩ []).matches nestedElements 1 = true ∧
    (Selector.chain ⟨[]⟩ [(.child, ⟨[.tag "b"]⟩), (.descendant, ⟨[.tag "c"]⟩)]).matches
      nestedElements 5 = true ∧
    SelectorList.queryAll ⟨[Selector.chain ⟨[]⟩ []]⟩ nestedElements 4 = [5, 7] := by
  exact ⟨nestedElements_acyclic, rfl, by decide, by decide, by decide⟩

end DomQuery
