import DomQuery.Proofs.Layout
import DomQuery.Proofs.Matching
import DomQuery.Proofs.Subtree

/-!
# Links and Lists of Children

The walks along links meet what the lists of children say.

A combinator is worked out by walking along links to parents and to neighbours
in front, and what it means is said of ancestors and siblings, which the lists
of children define. In a forest the two come to the same. The chain of parents
of a node holds the nodes that have it below them, from the inside outwards. The
chain of neighbours in front of it is the part of its list in front of it, read
backwards (`Tree.Forest.chain_prev`), one step for each place.

The elements among them are met by walks of their own, and the two kinds of walk
skip differently. Looking for an element in front goes past whatever is none,
so repeating it meets exactly the elements of the part in front. A parent that
is no element ends the walk instead. That this leaves no element out needs a
condition on the shape of the tree, which `Tree.Rooted` states: nothing has
children but the document and elements, and the document has no parent, so the
one node above that is no element is also the last. Every loaded document is of
this shape.

Both walks are thereby cases of one lemma (`Tree.Chain.filter`): a step that
always leads to the first node of a kind on a chain leads along the nodes of
that kind when it is repeated.

## Main definitions

* `Tree.Rooted`: The document is on top, and only it and elements have children.
* `Tree.InFront`: The nodes in front of a node in the list that holds it.
* `Tree.Places`: What the combinators mean, told by lists of children.

## Theorems

* `Tree.Chain.filter`: Steps to the first node of a kind.
* `Tree.Forest.mem_ancestors_iff`, `Tree.Forest.pairwise_ancestors`: The chain of
  parents.
* `Tree.Forest.inFront_iff`: The chain of neighbours in front.
* `Tree.Forest.elementAncestors_eq`, `Tree.Forest.precedingElements_eq`: The walks
  along elements.
* `Tree.Forest.relates_iff_places`: What the combinators mean.
* `Tree.Rooted.attach`: The shape is kept where only elements are given children.
* `Document.built_rooted_toTree`: The shape of a loaded document.
* `navigation_of_built`: All of it for what is built.
-/

namespace DomQuery

namespace Tree

/-- The document has no parent, and nothing but the document and elements has
    children. A link to a parent is never taken back, so a document without one
    was never attached. -/
structure Rooted (t : Tree) : Prop where
  parent?_root : t.parent? root = none
  inner : ∀ n, t.children n ≠ [] → n = root ∨ t.isElement n = true

/-- The nodes in front of a node in the list of children that holds it, or no nodes
    if there is no such list. -/
inductive InFront (t : Tree) (n : NodeId) : List NodeId → Prop where
  | among {p : NodeId} {front back : List NodeId} (h : t.children p = front ++ n :: back) :
      InFront t n front
  | alone (h : ∀ p, n ∉ t.children p) : InFront t n []

/-- How a combinator places the node on its left relative to the node on its right,
    told by the lists of children. -/
def Places (t : Tree) : Combinator → NodeId → NodeId → Prop
  | .descendant, m, n => Relation.TransGen t.HasChild m n
  | .child, m, n => t.HasChild m n
  | .adjacent, m, n => ∃ front between, t.InFront n (front ++ m :: between) ∧
      ∀ k ∈ between, t.isElement k = false
  | .sibling, m, n => ∃ front, t.InFront n front ∧ m ∈ front

section Chain

variable {step step' : NodeId → Option NodeId} {p : NodeId → Bool} {n n' : NodeId}
  {path : List NodeId}

/-- Nodes that lead to the same node have the same chain. -/
theorem Chain.of_step_eq (h : Chain step n' path) (heq : step n = step n') :
    Chain step n path := by
  cases h with
  | nil hstep => exact .nil (heq.trans hstep)
  | cons hstep hrest => exact .cons (heq.trans hstep) hrest

/-- A step that always leads to the first node of a kind on a chain leads along the
    nodes of that kind. -/
theorem Chain.filter (h : Chain step n path)
    (hfirst : ∀ {n path}, Chain step n path → step' n = path.find? p) :
    Chain step' n (path.filter p) := by
  induction h with
  | nil hstep => exact .nil (hfirst (.nil hstep))
  | @cons n m path hstep hrest ih =>
      have hn := hfirst (.cons hstep hrest)
      by_cases hp : p m = true
      · rw [List.find?_cons_of_pos hp] at hn
        rw [List.filter_cons_of_pos hp]
        exact .cons hn ih
      · -- The node is passed over, so the step leads on as it does from there.
        rw [List.find?_cons_of_neg hp, ← hfirst hrest] at hn
        rw [List.filter_cons_of_neg hp]
        exact ih.of_step_eq hn

end Chain

variable {t t' : Tree} {a m n p parent child : NodeId} {front back path : List NodeId}
  {comb : Combinator}

/-! ### The shape of a tree -/

theorem isElement_congr (h : t'.content? n = t.content? n) : t'.isElement n = t.isElement n := by
  rw [isElement, isElement, element?, element?, h]

namespace Rooted

theorem new : Rooted .new := by
  refine ⟨rfl, fun n hn => ?_⟩
  cases n with
  | zero => exact .inl rfl
  | succ n => exact absurd rfl hn

theorem alloc (h : t.Rooted) (content : Content) : (t.alloc content).1.Rooted := by
  refine ⟨?_, fun n hn => ?_⟩
  · rw [parent?_alloc, h.parent?_root]
  · rw [children_alloc] at hn
    -- What has children was there before.
    have hne : n ≠ t.size := by
      rintro rfl
      exact hn (children_eq_nil (Nat.le_refl _))
    have hcontent : (t.alloc content).1.content? n = t.content? n := by
      rw [content?_alloc, if_neg hne]
    rw [isElement_congr hcontent]
    exact h.inner n hn

/-- Attaching something else than the document to the document or to an element. -/
theorem attach (h : t.Rooted) (hparent : parent < t.size) (hchild : child < t.size)
    (hne : child ≠ root) (hinner : parent = root ∨ t.isElement parent = true) :
    (t.attach parent child).Rooted := by
  refine ⟨?_, fun n hn => ?_⟩
  · rw [parent?_attach hchild, if_neg hne.symm, h.parent?_root]
  · rw [children_attach hparent] at hn
    rw [isElement_congr content?_attach]
    by_cases hnp : n = parent
    · rwa [hnp]
    · rw [if_neg hnp] at hn
      exact h.inner n hn

theorem add (h : t.Rooted) (hparent : parent < t.size)
    (hinner : parent = root ∨ t.isElement parent = true) (content : Content) :
    (t.add parent content).1.Rooted := by
  have hcontent : (t.alloc content).1.content? parent = t.content? parent := by
    rw [content?_alloc, if_neg (Nat.ne_of_lt hparent)]
  refine (h.alloc content).attach ?_ ?_ (Nat.ne_of_gt (Nat.zero_lt_of_lt hparent)) ?_
  · rw [size_alloc]
    exact Nat.lt_succ_of_lt hparent
  · rw [size_alloc]
    exact Nat.lt_succ_self _
  · rwa [isElement_congr hcontent]

end Rooted

/-! ### Links and lists -/

namespace Forest

theorem mem_ancestors_iff (h : t.Forest) :
    a ∈ t.ancestors n ↔ Relation.TransGen t.HasChild a n := by
  rw [ancestors, mem_walk_iff h.noCycle_parent fun _ _ => lt_size_of_parent?, h.follows_parent?_eq,
    Relation.transGen_swap]

/-- The ancestors of a node come from the inside outwards. -/
theorem pairwise_ancestors (h : t.Forest) (n : NodeId) :
    (t.ancestors n).Pairwise fun a b => Relation.TransGen t.HasChild b a := by
  have hchain := (h.acyclic.chain_ancestors n).isChain.of_cons
  have htrans : (t.ancestors n).IsChain (Relation.TransGen (Follows t.parent?)) :=
    hchain.imp fun _ _ hab => .single hab
  refine htrans.pairwise.imp fun hab => ?_
  rwa [h.follows_parent?_eq, Relation.transGen_swap] at hab

/-- The neighbours in front of a node are the part of the list in front of it, read
    backwards. -/
theorem chain_prev (h : t.Forest) (hc : t.children p = front ++ n :: back) :
    Chain t.prev? n front.reverse := by
  induction front using List.reverseRecOn generalizing n back with
  | nil => exact .nil (h.prev_head p n (by rw [hc]; rfl))
  | append_singleton front m ih =>
      rw [List.append_assoc, List.singleton_append] at hc
      -- The last node of the part in front is the neighbour, and has the others in front of it.
      have hm : (t.children p)[front.length]? = some m := by
        rw [hc, List.getElem?_append_right (Nat.le_refl _), Nat.sub_self]
        rfl
      have hn : (t.children p)[front.length + 1]? = some n := by
        rw [hc, List.getElem?_append_right (Nat.le_add_right _ 1), Nat.add_sub_cancel_left]
        rfl
      rw [List.reverse_append]
      exact .cons ((h.prev_succ p front.length n hn).trans hm) (ih hc)

theorem precedingSiblings_eq (h : t.Forest) (hfront : t.InFront n front) :
    t.precedingSiblings n = front.reverse := by
  refine (h.acyclic.chain_precedingSiblings n).unique ?_
  cases hfront with
  | among hc => exact h.chain_prev hc
  | alone hnone =>
      -- A node that no list holds has no parent, and so no neighbours.
      refine .nil (h.detached n ?_).2
      rw [Option.eq_none_iff_forall_ne_some]
      exact fun p hp => hnone p ((h.mem_children_iff p n).mpr hp)

theorem exists_inFront (h : t.Forest) (n : NodeId) : ∃ front, t.InFront n front := by
  rcases hp : t.parent? n with _ | p
  · refine ⟨[], .alone fun p hmem => ?_⟩
    rw [h.mem_children_iff, hp] at hmem
    cases hmem
  · rcases List.append_of_mem ((h.mem_children_iff p n).mpr hp) with ⟨front, back, hc⟩
    exact ⟨front, .among hc⟩

/-- The walk along the neighbours in front meets the part of the list in front,
    read backwards. -/
theorem inFront_iff (h : t.Forest) : t.InFront n front ↔ t.precedingSiblings n = front.reverse := by
  refine ⟨h.precedingSiblings_eq, fun heq => ?_⟩
  rcases h.exists_inFront n with ⟨front', hfront'⟩
  rw [h.precedingSiblings_eq hfront', List.reverse_inj] at heq
  rwa [← heq]

/-- The parent that is an element is the first element on the chain of parents, what
    is no element being the end of it. -/
theorem parentElement?_eq_find? (h : t.Forest) (hroot : t.Rooted) (hpath : Chain t.parent? n path) :
    t.parentElement? n = path.find? t.isElement := by
  cases hpath with
  | nil hstep => rw [parentElement?, hstep, Option.filter_none, List.find?_nil]
  | @cons _ m path hstep hrest =>
      rw [parentElement?, hstep]
      by_cases helement : t.isElement m = true
      · rw [Option.filter_some_pos helement, List.find?_cons_of_pos helement]
      · -- What has a child and is no element is the document.
        have hm := hroot.inner m (List.ne_nil_of_mem ((h.mem_children_iff m n).mpr hstep))
        rcases hm with rfl | hm
        · have hend := hrest.unique (.nil hroot.parent?_root)
          rw [hend, Option.filter_some_neg (Bool.eq_false_iff.mpr helement),
            List.find?_cons_of_neg helement, List.find?_nil]
        · exact absurd hm helement

theorem elementAncestors_eq (h : t.Forest) (hroot : t.Rooted) (n : NodeId) :
    t.elementAncestors n = (t.ancestors n).filter t.isElement :=
  (chain_elementAncestors h.noCycle_parent n).unique
    ((h.acyclic.chain_ancestors n).filter (h.parentElement?_eq_find? hroot))

theorem precedingElements_eq (h : t.Forest) (n : NodeId) :
    t.precedingElements n = (t.precedingSiblings n).filter t.isElement := by
  refine (h.acyclic.chain_precedingElements n).unique
    ((h.acyclic.chain_precedingSiblings n).filter fun {m path} hpath => ?_)
  rw [prevElement?_eq_find?, (h.acyclic.chain_precedingSiblings m).unique hpath]

/-- What the combinators mean. They relate a node to the elements that the lists of
    children place it relative to. -/
theorem relates_iff_places (h : t.Forest) (hroot : t.Rooted) :
    t.Relates comb m n ↔ t.isElement m = true ∧ t.Places comb m n := by
  cases comb with
  | descendant =>
      rw [Relates, ← h.acyclic.mem_elementAncestors_iff, h.elementAncestors_eq hroot,
        List.mem_filter, h.mem_ancestors_iff, and_comm]
      rfl
  | child =>
      rw [Relates, parentElement?, Option.filter_eq_some_iff, ← h.mem_children_iff, and_comm]
      rfl
  | adjacent =>
      -- The first element on the walk is the last one in the part in front.
      rw [Relates, prevElement?_eq_find?, List.find?_eq_some_iff_append]
      refine and_congr_right fun _ => ⟨?_, ?_⟩
      · rintro ⟨between, front, hsiblings, hbetween⟩
        refine ⟨front.reverse, between.reverse, h.inFront_iff.mpr ?_, fun k hk => ?_⟩
        · rw [hsiblings]
          simp
        · simpa using hbetween k (List.mem_reverse.mp hk)
      · rintro ⟨front, between, hfront, hbetween⟩
        refine ⟨between.reverse, front.reverse, ?_, fun k hk => ?_⟩
        · rw [h.precedingSiblings_eq hfront]
          simp
        · rw [hbetween k (List.mem_reverse.mp hk)]
          rfl
  | sibling =>
      rw [Relates, ← h.acyclic.mem_precedingElements_iff, h.precedingElements_eq, List.mem_filter,
        and_comm]
      refine and_congr_right fun _ => ⟨fun hm => ?_, ?_⟩
      · rcases h.exists_inFront n with ⟨front, hfront⟩
        rw [h.precedingSiblings_eq hfront, List.mem_reverse] at hm
        exact ⟨front, hfront, hm⟩
      · rintro ⟨front, hfront, hm⟩
        rw [h.precedingSiblings_eq hfront, List.mem_reverse]
        exact hm

end Forest

end Tree

/-! ### Documents -/

namespace Document

/-- The node appended to is still there, and still an element if it was one. -/
theorem Item.Appended.inner {t t' : Tree} {parent : NodeId} {items : List Item}
    (h : Appended t parent items t') (hparent : parent < t.size)
    (hinner : parent = Tree.root ∨ t.isElement parent = true) :
    parent < t'.size ∧ (parent = Tree.root ∨ t'.isElement parent = true) := by
  rw [Tree.isElement_congr (h.content_eq parent hparent), h.size_eq]
  exact ⟨Nat.lt_of_lt_of_le hparent (Nat.le_add_right _ _), hinner⟩

/-- Appending items to the document or to an element builds on, and keeps the
    shape. -/
theorem Item.built_rooted_addAll {t : Tree} {parent : NodeId} {items : List Item} (ht : t.Built)
    (hroot : t.Rooted) (hparent : parent < t.size)
    (hinner : parent = Tree.root ∨ t.isElement parent = true) :
    (addAll t parent items).Built ∧ (addAll t parent items).Rooted := by
  induction items using Item.induction generalizing t parent with
  | nil => exact ⟨ht, hroot⟩
  | text s items ih =>
      have hstill := (appended_text hparent s).inner hparent hinner
      exact ih (ht.addText hparent s) (hroot.add hparent hinner _) hstill.1 hstill.2
  | element data children items ihchildren ih =>
      have hsize : t.size < (t.add parent (.element data)).1.size := by
        rw [Tree.size_add]
        exact Nat.lt_succ_self _
      have hnew : (t.add parent (.element data)).1.isElement t.size = true := by
        rw [Tree.isElement, Tree.element?, Tree.content?_add, if_pos rfl]
        rfl
      -- The items inside go to the new node, which is an element.
      have hinside := ihchildren (ht.addElement hparent data) (hroot.add hparent hinner _)
        hsize (.inr hnew)
      have hbelow : Appended _ t.size children _ := appended_addAll hsize
      have hstill := (appended_element hparent hbelow).inner hparent hinner
      exact ih hinside.1 hinside.2 hstill.1 hstill.2

theorem built_rooted_toTree (items : List Item) : (toTree items).Built ∧ (toTree items).Rooted :=
  Item.built_rooted_addAll .new .new Nat.zero_lt_one (.inl rfl)

end Document

/-! ### Matching -/

/-- A clause that ends in a combinator and a compound matches where the compound does
    and the rest of it matches an element that is placed as the combinator says. -/
theorem Tree.Forest.combine_matches_iff {t : Tree} (h : t.Forest) (hroot : t.Rooted)
    {left : Selector} {comb : Combinator} {right : Compound} {n : NodeId} :
    (left.combine comb right).matches t n = true ↔
      right.matches t n = true ∧
        ∃ m, t.isElement m = true ∧ t.Places comb m n ∧ left.matches t m = true := by
  simp only [Selector.matches_eq_fits, Selector.fits_combine, Bool.and_eq_true, List.any_eq_true,
    h.acyclic.mem_related_iff, h.relates_iff_places hroot, and_assoc]

/-- What walking along links meets, told by the lists of children. Documents are built
    and of the right shape. In what is built and of that shape, the ancestors of a node
    are the nodes that have it below them, the inner ones first, and the siblings in
    front of it are the part of the list in front of it, read backwards. What the steps
    to elements meet when they are repeated is the elements among these, in the same
    order. So a clause that ends in a combinator matches where its last compound does
    and the rest matches an element that the lists of children place accordingly. -/
theorem navigation_of_built :
    (∀ items, (Document.toTree items).Built ∧ (Document.toTree items).Rooted) ∧
    ∀ t : Tree, t.Built → t.Rooted →
      (∀ n,
        ((∀ a, a ∈ t.ancestors n ↔ Relation.TransGen t.HasChild a n) ∧
          (t.ancestors n).Pairwise (fun a b => Relation.TransGen t.HasChild b a) ∧
          Tree.Chain t.parent? n (t.ancestors n) ∧
          Tree.Chain t.parentElement? n ((t.ancestors n).filter t.isElement)) ∧
        (∀ front, t.precedingSiblings n = front.reverse ↔ t.InFront n front) ∧
          Tree.Chain t.prev? n (t.precedingSiblings n) ∧
          Tree.Chain t.prevElement? n ((t.precedingSiblings n).filter t.isElement)) ∧
      ∀ (left : Selector) (comb : Combinator) (right : Compound) (n : NodeId),
        (left.combine comb right).matches t n = true ↔
          right.matches t n = true ∧
            ∃ m, t.isElement m = true ∧ t.Places comb m n ∧ left.matches t m = true := by
  refine ⟨Document.built_rooted_toTree, fun t ht hroot => ?_⟩
  have h : t.Forest := ht.forest
  refine ⟨fun n => ⟨⟨fun a => h.mem_ancestors_iff, h.pairwise_ancestors n,
    h.acyclic.chain_ancestors n, ?_⟩, fun front => h.inFront_iff.symm,
    h.acyclic.chain_precedingSiblings n, ?_⟩, fun left comb right n => h.combine_matches_iff hroot⟩
  · rw [← h.elementAncestors_eq hroot]
    exact Tree.chain_elementAncestors h.noCycle_parent n
  · rw [← h.precedingElements_eq]
    exact h.acyclic.chain_precedingElements n

/-- A list of two elements `li` with a text in front of each, and in front of the list
    a text. -/
def twoListItems : List Document.Item :=
  [.text "t", .element { tag := "ul" } [.text "t", .element { tag := "li" } [],
    .text "t", .element { tag := "li" } []]]

/-- In it the last element follows the other one, the text between them apart. -/
theorem twoListItems_adjacent :
    (Document.toTree twoListItems).Places .adjacent 4 6 ∧
      (Document.toTree twoListItems).ancestors 6 = [2, 0] ∧
      Tree.Chain (Document.toTree twoListItems).parentElement? 6 [2] ∧
      Tree.Chain (Document.toTree twoListItems).prevElement? 6 [4] ∧
      (Selector.combine (.ofCompound ⟨[.tag "li"]⟩) .adjacent ⟨[.tag "li"]⟩).matches
        (Document.toTree twoListItems) 6 = true := by
  rcases navigation_of_built.1 twoListItems with ⟨ht, hroot⟩
  rcases navigation_of_built.2 _ ht hroot with ⟨hwalks, hmatch⟩
  have hplaces : (Document.toTree twoListItems).Places .adjacent 4 6 :=
    ⟨[3], [5], @Tree.InFront.among _ _ 2 _ [] (by decide +kernel), by decide +kernel⟩
  refine ⟨hplaces, by decide +kernel, ?_, ?_, ?_⟩
  · exact (by decide +kernel :
      ((Document.toTree twoListItems).ancestors 6).filter (Document.toTree twoListItems).isElement =
        [2]) ▸ (hwalks 6).1.2.2.2
  · exact (by decide +kernel :
      ((Document.toTree twoListItems).precedingSiblings 6).filter
        (Document.toTree twoListItems).isElement = [4]) ▸ (hwalks 6).2.2.2
  · exact (hmatch _ _ _ _).mpr ⟨by decide +kernel, 4, by decide +kernel, hplaces, by decide +kernel⟩

end DomQuery
