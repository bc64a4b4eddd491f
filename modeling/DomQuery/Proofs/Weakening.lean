import DomQuery.Proofs.Query

/-!
# Weaker Selectors

A selector that asks for less finds no less.

There are five ways of asking for less. A combinator can be replaced by the one that
allows any distance where the first allows one step; a condition can be taken out
of a compound; a chain can be cut off, so that only its part at the subject is
left; and a clause can be added to a list. `SelectorList.Weakens` is one such
change, anywhere in a list.

A change inside of a chain is somewhere among the links behind the subject, and
the relation says so as the chain itself is built: it happens at the nearest link,
or further out behind a link that stays. Matching goes along the same list. Up to
the change both chains ask for the same candidates and differ in what they ask
about them, so the argument follows the relation, with one case for each change
at the nearest link and one step for a link that stays. What is found is then a
matter of filters. Both queries go through the same traversal, and the weaker one
keeps whatever the other one keeps.

Nothing here depends on the links of the tree. A candidate of the combinator for
one step is the first candidate of the one for any distance, however the walk goes
on from there.

## Main definitions

* `Compound.Weakens`, `Link.Weakens`, `Selector.Weakens`, `SelectorList.Weakens`: One
  change to ask for less.

## Theorems

* `Tree.related_child_subset`, `Tree.related_adjacent_subset`: One step and any distance.
* `Link.Weakens.satisfied`, `Selector.Weakens.fits`, `SelectorList.Weakens.matches`: What
  matches still matches after one change.
* `NodeId.eraseDups_filter`: First places in what a filter keeps.
* `SelectorList.queryAll_sublist`: A query for more.
* `query_grows_of_weakens`: What matches and what a query finds after any changes.
-/

namespace DomQuery

/-- A compound without one of its conditions. -/
inductive Compound.Weakens : Compound → Compound → Prop where
  | drop (front : List Simple) (s : Simple) (back : List Simple) :
      Weakens ⟨front ++ s :: back⟩ ⟨front ++ back⟩

/-- Links with one change, at the nearest of them or further out. -/
inductive Link.Weakens : List Link → List Link → Prop where
  | child (far : Compound) (links : List Link) :
      Weakens (⟨.child, far⟩ :: links) (⟨.descendant, far⟩ :: links)
  | adjacent (far : Compound) (links : List Link) :
      Weakens (⟨.adjacent, far⟩ :: links) (⟨.sibling, far⟩ :: links)
  | compound (comb : Combinator) {far far' : Compound} (links : List Link)
      (h : far.Weakens far') : Weakens (⟨comb, far⟩ :: links) (⟨comb, far'⟩ :: links)
  | cut (links : List Link) : Weakens links []
  | further (link : Link) {links links' : List Link} (h : Weakens links links') :
      Weakens (link :: links) (link :: links')

/-- A clause with one change, in its subject or among its links. -/
inductive Selector.Weakens : Selector → Selector → Prop where
  | subject {c c' : Compound} (links : List Link) (h : c.Weakens c') :
      Weakens ⟨c, links⟩ ⟨c', links⟩
  | links (c : Compound) {links links' : List Link} (h : Link.Weakens links links') :
      Weakens ⟨c, links⟩ ⟨c, links'⟩

/-- A list with one change in one of its clauses, or with one more clause. -/
inductive SelectorList.Weakens : SelectorList → SelectorList → Prop where
  | clause (front : List Selector) {sel sel' : Selector} (back : List Selector)
      (h : sel.Weakens sel') : Weakens ⟨front ++ sel :: back⟩ ⟨front ++ sel' :: back⟩
  | add (front : List Selector) (sel : Selector) (back : List Selector) :
      Weakens ⟨front ++ back⟩ ⟨front ++ sel :: back⟩

section Matching

variable {t : Tree} {n m : NodeId}

/-- The first step of a walk is a step of the longer ones. -/
theorem Tree.walk_one_subset {step : NodeId → Option NodeId} {size : Nat}
    (hlt : ∀ a b, step a = some b → a < size) : walk step 1 n ⊆ walk step size n := by
  rcases hstep : step n with _ | m
  · simp only [walk, hstep, List.nil_subset]
  · cases size with
    | zero => exact absurd (hlt n m hstep) (Nat.not_lt_zero n)
    | succ fuel =>
        simp only [walk, hstep]
        exact List.cons_subset_cons m (List.nil_subset _)

theorem Tree.related_child_subset : t.related .child n ⊆ t.related .descendant n :=
  walk_one_subset fun _ _ hstep => lt_size_of_parent? (parent?_of_parentElement? hstep)

theorem Tree.related_adjacent_subset : t.related .adjacent n ⊆ t.related .sibling n :=
  walk_one_subset fun _ _ hstep => lt_size_of_prevElement? hstep

theorem Compound.Weakens.matches {c c' : Compound} (h : c.Weakens c')
    (hmatches : c.matches t n = true) : c'.matches t n = true := by
  cases h with
  | drop front s back =>
      rw [Compound.matches, Option.any_eq_true] at hmatches ⊢
      rcases hmatches with ⟨e, he, hall⟩
      refine ⟨e, he, ?_⟩
      rw [List.all_append, List.all_cons, Bool.and_eq_true, Bool.and_eq_true] at hall
      rw [List.all_append, hall.1, hall.2.2]
      rfl

/-- Links that are satisfied are satisfied after a change, at the nearest of them by
    the same candidate. -/
theorem Link.Weakens.satisfied {links links' : List Link} (h : Weakens links links')
    (hlinks : Link.satisfied t links n = true) : Link.satisfied t links' n = true := by
  -- In front of the change both chains walk to the same candidates.
  induction h generalizing n with
  | child far links =>
      rcases satisfied_cons.mp hlinks with ⟨m, hm, hfar⟩
      exact satisfied_cons.mpr ⟨m, Tree.related_child_subset hm, hfar⟩
  | adjacent far links =>
      rcases satisfied_cons.mp hlinks with ⟨m, hm, hfar⟩
      exact satisfied_cons.mpr ⟨m, Tree.related_adjacent_subset hm, hfar⟩
  | compound comb links h =>
      rcases satisfied_cons.mp hlinks with ⟨m, hm, hfar, hrest⟩
      exact satisfied_cons.mpr ⟨m, hm, h.matches hfar, hrest⟩
  | cut links => rfl
  | further link _ ih =>
      rcases satisfied_cons.mp hlinks with ⟨m, hm, hfar, hrest⟩
      exact satisfied_cons.mpr ⟨m, hm, hfar, ih hrest⟩

theorem Selector.Weakens.fits {sel sel' : Selector} (h : sel.Weakens sel')
    (hfits : sel.fits t n = true) : sel'.fits t n = true := by
  rw [Selector.fits, Bool.and_eq_true] at hfits ⊢
  cases h with
  | subject links h => exact ⟨h.matches hfits.1, hfits.2⟩
  | links c h => exact ⟨hfits.1, h.satisfied hfits.2⟩

theorem SelectorList.Weakens.matches {list list' : SelectorList} (h : list.Weakens list')
    (hmatches : list.matches t n = true) : list'.matches t n = true := by
  rw [matches_iff_fits] at hmatches ⊢
  rcases hmatches with ⟨found, hfound, hfits⟩
  cases h with
  | @clause front sel sel' back h =>
      rcases List.mem_append.mp hfound with hfront | hback
      · exact ⟨found, List.mem_append_left _ hfront, hfits⟩
      · rcases List.mem_cons.mp hback with rfl | hback
        · exact ⟨sel', List.mem_append_right _ List.mem_cons_self, h.fits hfits⟩
        · exact ⟨found, List.mem_append_right _ (List.mem_cons_of_mem _ hback), hfits⟩
  | add front sel back =>
      rw [List.mem_append] at hfound
      exact ⟨found, List.mem_append.mpr (hfound.imp_right (List.mem_cons_of_mem _)), hfits⟩

end Matching

/-- The first places in what a filter keeps are what it keeps of the first places. -/
theorem NodeId.eraseDups_filter (p : NodeId → Bool) (ns : List NodeId) :
    (ns.filter p).eraseDups = ns.eraseDups.filter p := by
  induction ns generalizing p with
  | nil => rfl
  | cons n ns ih =>
      -- Behind its first place a node is filtered out, which is one filter more on the rest.
      rw [List.eraseDups_cons, ih]
      by_cases hn : p n = true
      · rw [List.filter_cons_of_pos hn, List.filter_cons_of_pos hn, List.eraseDups_cons,
          List.filter_filter, List.filter_filter, ih]
        simp only [Bool.and_comm]
      · rw [List.filter_cons_of_neg hn, List.filter_cons_of_neg hn, List.filter_filter, ih]
        refine List.filter_congr fun m _ => ?_
        by_cases hm : m = n
        · rw [hm, Bool.eq_false_iff.mpr hn, Bool.false_and]
        · rw [beq_eq_false_iff_ne.mpr hm, Bool.not_false, Bool.and_true]

/-- A list that matches wherever another one does finds what the other one finds, in
    the same order. -/
theorem SelectorList.queryAll_sublist {t : Tree} {list list' : SelectorList}
    (h : ∀ n, list.matches t n = true → list'.matches t n = true) (root : NodeId) :
    (list.queryAll t root).Sublist (list'.queryAll t root) := by
  rw [queryAll_eq_eraseDups, queryAll_eq_eraseDups, NodeId.eraseDups_filter,
    NodeId.eraseDups_filter]
  exact List.monotone_filter_right _ h

/-- What matches and what a query finds after any number of changes to ask for less.
    In any tree, a node that matched still matches, and a query from any root still
    finds what it found, in its order. -/
theorem query_grows_of_weakens {list list' : SelectorList}
    (h : Relation.ReflTransGen SelectorList.Weakens list list') (t : Tree) :
    (∀ n, list.matches t n = true → list'.matches t n = true) ∧
    ∀ root, (list.queryAll t root).Sublist (list'.queryAll t root) := by
  have hmatches : ∀ n, list.matches t n = true → list'.matches t n = true := by
    intro n hn
    induction h with
    | refl => exact hn
    | tail _ hstep ih => exact hstep.matches ih
  exact ⟨hmatches, SelectorList.queryAll_sublist hmatches⟩

/-- The list `a > b c + e`. -/
def strongList : SelectorList :=
  ⟨[⟨⟨[.tag "e"]⟩, [⟨.adjacent, ⟨[.tag "c"]⟩⟩, ⟨.descendant, ⟨[.tag "b"]⟩⟩,
    ⟨.child, ⟨[.tag "a"]⟩⟩]⟩]⟩

/-- The list `d, a b c ~ e`, which asks for less. -/
def weakList : SelectorList :=
  ⟨[⟨⟨[.tag "d"]⟩, []⟩, ⟨⟨[.tag "e"]⟩, [⟨.sibling, ⟨[.tag "c"]⟩⟩, ⟨.descendant, ⟨[.tag "b"]⟩⟩,
    ⟨.descendant, ⟨[.tag "a"]⟩⟩]⟩]⟩

theorem strongList_weakens : Relation.ReflTransGen SelectorList.Weakens strongList weakList :=
  ((Relation.ReflTransGen.single (.clause [] [] (.links _ (.adjacent _ _)))).tail
    (.clause [] [] (.links _ (.further _ (.further _ (.child _ _)))))).tail (.add [] _ _)

/-- With the nearest link and the one furthest out changed and a clause added, the query
    still finds the element `e`, behind what it finds besides. -/
theorem nestedElements_grows : Relation.ReflTransGen SelectorList.Weakens strongList weakList ∧
    strongList.queryAll nestedElements 0 = [7] ∧ weakList.queryAll nestedElements 0 = [3, 7] ∧
    [7].Sublist [3, 7] := by
  have hstrong : strongList.queryAll nestedElements 0 = [7] := by decide +kernel
  have hweak : weakList.queryAll nestedElements 0 = [3, 7] := by decide +kernel
  have hgrows := (query_grows_of_weakens strongList_weakens nestedElements).2 0
  rw [hstrong, hweak] at hgrows
  exact ⟨strongList_weakens, hstrong, hweak, hgrows⟩

end DomQuery
