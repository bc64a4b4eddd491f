import DomQuery.Proofs.Query
import DomQuery.Proofs.Subtree

/-!
# Matching in a Tree That Grows

What attaching a node changes about matches, which is nothing outside of what was
attached.

A match walks upwards and backwards only. Whatever a chain asks for, the nodes
it passes through are reached from the node under test by links to parents and
to neighbours in front, so two trees agree on a match as far as they agree on
those links. `Tree.Simulates` is one half of such an agreement: from every node
with some property, the second tree has the links that the first one has, and
they lead to nodes with the property again. A match in the first tree is then a
match in the second, chain by chain and link by link, because a chain asks for
nodes that are there and never for nodes that are missing.

Attaching gives two agreements of this kind. All links upwards and backwards are
still there, since the node attached had none; so no match is lost anywhere.
And from outside of the subtree that was attached there is no new one, the child
being the last of its parent and in front of nothing, and none that leads into
the subtree; so no match is gained there either.

## Main definitions

* `Tree.Tracks`: One step leads wherever another one does.
* `Tree.Simulates`: One tree has the links of another one.

## Theorems

* `Tree.Simulates.list_matches`: A match is a match in a tree that has the links.
* `Tree.Forest.simulates_attach`, `Tree.Forest.simulates_outside`: What attaching
  keeps, and what it does not add.
* `matches_grow_of_appendChild`: What attaching does to matches and to queries.
-/

namespace DomQuery

namespace Tree

/-- From nodes with a property, the second step leads wherever the first one does,
    and to a node with the property again. -/
def Tracks (P : NodeId → Prop) (step step' : NodeId → Option NodeId) : Prop :=
  ∀ n m, P n → step n = some m → step' n = some m ∧ P m

/-- The second tree has the nodes of the first one, and from nodes with a property
    it has all the links upwards and backwards that the first one has. -/
structure Simulates (P : NodeId → Prop) (t t' : Tree) : Prop where
  size_eq : t'.size = t.size
  content_eq : ∀ n, t'.content? n = t.content? n
  parent : Tracks P t.parent? t'.parent?
  prev : Tracks P t.prev? t'.prev?

variable {P : NodeId → Prop} {t t' : Tree} {parent child n m : NodeId}

/-- A walk goes as far as the one that it tracks, and meets the same nodes. -/
theorem Tracks.isPrefix_walk {step step' : NodeId → Option NodeId} (h : Tracks P step step')
    (hn : P n) (fuel : Nat) :
    walk step fuel n <+: walk step' fuel n ∧ ∀ m ∈ walk step fuel n, P m := by
  induction fuel generalizing n with
  | zero => exact ⟨List.prefix_rfl, fun m hm => absurd hm List.not_mem_nil⟩
  | succ fuel ih =>
      rw [walk, walk]
      rcases hstep : step n with _ | k
      · exact ⟨List.nil_prefix, fun m hm => absurd hm List.not_mem_nil⟩
      · rcases h n k hn hstep with ⟨hstep', hk⟩
        rcases ih hk with ⟨hstart, hall⟩
        rw [hstep']
        exact ⟨(List.prefix_cons_inj k).mpr hstart, List.forall_mem_cons.mpr ⟨hk, hall⟩⟩

namespace Simulates

theorem element?_eq (h : Simulates P t t') (n : NodeId) : t'.element? n = t.element? n := by
  rw [element?, element?, h.content_eq]

theorem isElement_eq (h : Simulates P t t') : t'.isElement = t.isElement := by
  funext n
  rw [isElement, isElement, h.element?_eq]

theorem parentElement (h : Simulates P t t') : Tracks P t.parentElement? t'.parentElement? := by
  intro n m hn hstep
  rcases Option.filter_eq_some_iff.mp hstep with ⟨hparent, helement⟩
  rcases h.parent n m hn hparent with ⟨hparent', hm⟩
  rw [← h.isElement_eq] at helement
  exact ⟨Option.filter_eq_some_iff.mpr ⟨hparent', helement⟩, hm⟩

theorem prevElement (h : Simulates P t t') : Tracks P t.prevElement? t'.prevElement? := by
  intro n m hn hstep
  -- The element in front is the first one on a walk, and the walk only becomes longer.
  rcases h.prev.isPrefix_walk hn t.size with ⟨hstart, hall⟩
  rw [prevElement?_eq_find?, precedingSiblings] at hstep ⊢
  rw [h.size_eq, h.isElement_eq]
  exact ⟨hstart.find?_eq_some hstep, hall m (List.mem_of_find?_eq_some hstep)⟩

theorem toward (h : Simulates P t t') (comb : Combinator) :
    Tracks P (t.toward comb) (t'.toward comb) := by
  cases comb with
  | descendant => exact h.parentElement
  | child => exact h.parentElement
  | adjacent => exact h.prevElement
  | sibling => exact h.prevElement

theorem reach_eq (h : Simulates P t t') (comb : Combinator) : t'.reach comb = t.reach comb := by
  cases comb with
  | descendant => exact h.size_eq
  | child => rfl
  | adjacent => rfl
  | sibling => exact h.size_eq

/-- A candidate of a combinator is one in the second tree too. -/
theorem mem_related (h : Simulates P t t') {comb : Combinator} (hn : P n)
    (hm : m ∈ t.related comb n) : m ∈ t'.related comb n ∧ P m := by
  rcases (h.toward comb).isPrefix_walk hn (t.reach comb) with ⟨hstart, hall⟩
  rw [related, h.reach_eq]
  exact ⟨hstart.subset hm, hall m hm⟩

theorem compound_matches_eq (h : Simulates P t t') (c : Compound) (n : NodeId) :
    c.matches t' n = c.matches t n := by
  rw [Compound.matches, Compound.matches, h.element?_eq]

/-- Links that are satisfied are satisfied in the second tree, by the same nodes. -/
theorem satisfied (h : Simulates P t t') {links : List Link} (hn : P n)
    (hlinks : Link.satisfied t links n = true) : Link.satisfied t' links n = true := by
  induction links generalizing n with
  | nil => rfl
  | cons link links ih =>
      rcases link with ⟨comb, far⟩
      rcases Link.satisfied_cons.mp hlinks with ⟨m, hm, hfar, hrest⟩
      rcases h.mem_related hn hm with ⟨hm', hPm⟩
      have hfar' : far.matches t' m = true := (h.compound_matches_eq far m).trans hfar
      exact Link.satisfied_cons.mpr ⟨m, hm', hfar', ih hPm hrest⟩

/-- A match is a match in the second tree. -/
theorem list_matches (h : Simulates P t t') {list : SelectorList} (hn : P n)
    (hmatches : list.matches t n = true) : list.matches t' n = true := by
  rw [SelectorList.matches_iff_fits] at hmatches ⊢
  rcases hmatches with ⟨sel, hsel, hfits⟩
  refine ⟨sel, hsel, ?_⟩
  rw [Selector.fits, Bool.and_eq_true] at hfits ⊢
  exact ⟨(h.compound_matches_eq _ n).trans hfits.1, h.satisfied hn hfits.2⟩

end Simulates

namespace Forest

variable (h : t.Forest) (hchild : child < t.size) (hdetached : t.parent? child = none)

include h hchild hdetached

/-- Attaching keeps all links upwards and backwards. -/
theorem simulates_attach : Simulates (fun _ => True) t (t.attach parent child) := by
  refine ⟨size_attach, fun n => content?_attach, fun n m _ hstep => ⟨?_, trivial⟩,
    fun n m _ hstep => ⟨?_, trivial⟩⟩
  · have hne : n ≠ child := by
      rintro rfl
      rw [hdetached] at hstep
      cases hstep
    rw [parent?_attach hchild, if_neg hne, hstep]
  · have hne : n ≠ child := by
      rintro rfl
      rw [(h.detached n hdetached).2] at hstep
      cases hstep
    rw [prev?_attach hchild, if_neg hne, hstep]

/-- Outside of the subtree that is attached there are no new links upwards or
    backwards, and none leads into it. -/
theorem simulates_outside :
    Simulates (fun n => ¬ Relation.ReflTransGen t.HasChild child n) (t.attach parent child) t := by
  have hne : ∀ {n : NodeId}, ¬ Relation.ReflTransGen t.HasChild child n → n ≠ child := by
    rintro n hout rfl
    exact hout .refl
  refine ⟨size_attach.symm, fun n => content?_attach.symm, fun n m hout hstep => ?_,
    fun n m hout hstep => ?_⟩
  · rw [parent?_attach hchild, if_neg (hne hout)] at hstep
    exact ⟨hstep, fun hm => hout (hm.tail ((h.mem_children_iff m n).mpr hstep))⟩
  · rw [prev?_attach hchild, if_neg (hne hout)] at hstep
    refine ⟨hstep, fun hm => hout ?_⟩
    -- The neighbours have one parent, which is in the subtree if the one in front is.
    rcases h.prev?_eq_some_iff.mp hstep with ⟨p, i, hmi, hni⟩
    have hmp : t.parent? m = some p := (h.mem_children_iff p m).mp (List.mem_of_getElem? hmi)
    have hchildm : child ≠ m := by
      rintro rfl
      rw [hdetached] at hmp
      cases hmp
    exact (h.reflTransGen_parent hm hchildm hmp).tail (List.mem_of_getElem? hni)

end Forest

end Tree

/-- What attaching does to matches and to queries. In a tree that was built, a node
    without a parent can be attached to a node that is not below it, and what is
    below it stays the same. Outside of its subtree every list matches what it
    matched before, and no match is lost anywhere. A query keeps what it found, in
    its order, and what it finds besides is in the subtree, each node once. -/
theorem matches_grow_of_appendChild {t : Tree} (ht : t.Built) {parent child : NodeId}
    (hparent : parent < t.size) (hchild : child < t.size) (hdetached : t.parent? child = none)
    (hbelow : ¬ Relation.ReflTransGen t.HasChild child parent) :
    ∃ t', t.appendChild? parent child = some t' ∧
      (∀ n, Relation.ReflTransGen t'.HasChild child n ↔ Relation.ReflTransGen t.HasChild child n) ∧
      ∀ list : SelectorList,
        (∀ n, ¬ Relation.ReflTransGen t.HasChild child n →
          list.matches t' n = list.matches t n) ∧
        (∀ n, list.matches t n = true → list.matches t' n = true) ∧
        ∀ root, (list.queryAll t root).Sublist (list.queryAll t' root) ∧
          (list.queryAll t' root).Nodup ∧
          ∀ m ∈ list.queryAll t' root, m ∉ list.queryAll t root →
            Relation.ReflTransGen t.HasChild child m := by
  have h : t.Forest := ht.forest
  have h' : (t.attach parent child).Forest := h.attach hparent hchild hdetached hbelow
  have hkept : Tree.Simulates _ t (t.attach parent child) := h.simulates_attach hchild hdetached
  have hlocal : Tree.Simulates _ (t.attach parent child) t := h.simulates_outside hchild hdetached
  refine ⟨t.attach parent child, h.appendChild?_eq hparent hchild,
    fun n => Tree.reflTransGen_attach_iff hparent hbelow, fun list => ?_⟩
  have hsame : ∀ n, ¬ Relation.ReflTransGen t.HasChild child n →
      list.matches (t.attach parent child) n = list.matches t n := fun n hout =>
    Bool.eq_iff_iff.mpr ⟨hlocal.list_matches hout, hkept.list_matches trivial⟩
  refine ⟨hsame, fun n => hkept.list_matches trivial, fun root => ?_⟩
  rw [list.queryAll_eq_filter (h.nodup_descendants root),
    list.queryAll_eq_filter (h'.nodup_descendants root)]
  refine ⟨?_, (h'.nodup_descendants root).filter _, fun m hm hnew => ?_⟩
  · -- More candidates, and more of them that match.
    exact ((h.descendants_sublist_attach hparent h' root).filter _).trans
      (List.monotone_filter_right _ fun n => hkept.list_matches trivial)
  · by_contra hout
    rw [List.mem_filter, Tree.mem_descendants_iff h'.noCycle_hasChild, hsame m hout] at hm
    refine hnew (List.mem_filter.mpr ⟨?_, hm.2⟩)
    exact (Tree.mem_descendants_iff h.noCycle_hasChild).mpr
      (Tree.transGen_of_attach hparent hm.1 hout)

/-- The element `a` with an element `c` below it, and without a place the element `b`,
    which has an element `c` below it too. -/
def unplacedSubtree : Tree :=
  (((Tree.grown [(0, .element { tag := "a" }), (1, .element { tag := "c" })]).alloc
    (.element { tag := "b" })).1.add 3 (.element { tag := "c" })).1

theorem unplacedSubtree_built : unplacedSubtree.Built :=
  ((((Tree.Built.new.addElement (by decide) _).addElement (by decide) _).alloc _).addElement
    (by decide) _)

/-- What `a c` and `c + b` find is there before `b` is attached behind the first `c`,
    and is still there afterwards. -/
theorem unplacedSubtree_grows : unplacedSubtree.Built ∧ unplacedSubtree.parent? 3 = none ∧
    ¬ Relation.ReflTransGen unplacedSubtree.HasChild 3 1 ∧
    ∃ t', unplacedSubtree.appendChild? 1 3 = some t' ∧
      [2].Sublist (SelectorList.queryAll ⟨[⟨⟨[.tag "c"]⟩, [⟨.descendant, ⟨[.tag "a"]⟩⟩]⟩,
        ⟨⟨[.tag "b"]⟩, [⟨.adjacent, ⟨[.tag "c"]⟩⟩]⟩]⟩ t' 0) := by
  have hfound : SelectorList.queryAll ⟨[⟨⟨[.tag "c"]⟩, [⟨.descendant, ⟨[.tag "a"]⟩⟩]⟩,
      ⟨⟨[.tag "b"]⟩, [⟨.adjacent, ⟨[.tag "c"]⟩⟩]⟩]⟩ unplacedSubtree 0 = [2] := by decide
  have hbelow : ¬ Relation.ReflTransGen unplacedSubtree.HasChild 3 1 := fun hbelow =>
    absurd (Tree.le_of_reflTransGen_hasChild (by decide) hbelow) (by decide)
  rcases matches_grow_of_appendChild unplacedSubtree_built (by decide) (by decide) (by decide)
    hbelow with ⟨t', hstep, _, hgrow⟩
  exact ⟨unplacedSubtree_built, by decide, hbelow, t', hstep, hfound ▸ ((hgrow _).2.2 0).1⟩

end DomQuery
