import DomQuery.Proofs.Navigation
import DomQuery.Proofs.Query

/-!
# Subtrees as Blocks

Where the traversal of a subtree stands in the traversal of what is around it.

The traversal holds its place in a stack, and no step of it knows which subtree
it is in. What makes a subtree come out in one piece is that the stack is
emptied from the top: whatever a node pushes is gone before the nodes that lay
under it are looked at. So a stack stands for a sequence, each node on it for
itself and what is below it (`Tree.traverses_flatMap`), and with the children of
a node as the stack that is the rule by which document order is defined. In a
tree without a cycle the rule has one solution only, which the traversal
thereby is.

Going down along the children, what is below a node is a block in what is below
each of its ancestors, with the node itself in front of the block. A forest has
nothing twice, so outside of the block there is nothing that belongs in it.

Queries inherit this as filters of the traversal. Whether a node matches is
asked of the whole tree and of no root, so a query from a smaller root keeps in
the block what the larger one keeps there.

## Main definitions

* `Tree.IsPreorder`: The rule of document order.

## Theorems

* `Tree.traverses_flatMap`: What a stack stands for.
* `Tree.isPreorder_descendants`, `Tree.IsPreorder.eq_descendants`: The traversal is
  the one order that follows the rule.
* `Tree.cons_descendants_infix`: A subtree is a block.
* `SelectorList.mem_queryAll_iff`: What a query finds below its root.
* `preorder_of_built`: Traversals of what is built.
* `query_block_of_built`: Queries from a root and from one below it.
-/

namespace DomQuery

namespace Tree

variable {t : Tree} {m n : NodeId}

/-- The rule of document order: what is below a node is its children in their order,
    each followed by what is below it. -/
def IsPreorder (t : Tree) (order : NodeId → List NodeId) : Prop :=
  ∀ n, order n = (t.children n).flatMap fun child => child :: order child

/-- From any stack, a traversal visits each node on it, the topmost first, followed
    by what is below that node. -/
theorem traverses_flatMap (hno : NoCycle t.HasChild) (stack : List NodeId) :
    t.Traverses stack (stack.flatMap fun n => n :: t.descendants n) := by
  induction stack with
  | nil => exact .done
  | cons n stack ih =>
      -- The children go on top, so they are done with before the rest is looked at.
      have hbelow := Traverses.preorder_append (endsBelow_size hno n) ih
      rw [← descendants_eq_preorder hno] at hbelow
      rw [List.flatMap_cons, List.cons_append]
      exact .visit hbelow

theorem isPreorder_descendants (hno : NoCycle t.HasChild) : t.IsPreorder t.descendants :=
  fun n => (traverses_descendants hno n).unique (traverses_flatMap hno (t.children n))

/-- An order that follows the rule is the depth-bounded one where that is deep
    enough. -/
theorem IsPreorder.eq_preorder {order : NodeId → List NodeId} (h : t.IsPreorder order)
    {depth : Nat} (hends : t.EndsBelow depth n) : order n = t.preorder depth n := by
  induction depth generalizing n with
  | zero =>
      rw [EndsBelow] at hends
      rw [h n, hends, preorder, List.flatMap_nil]
  | succ depth ih =>
      rw [h n, preorder]
      exact List.flatMap_congr fun child hchild => by rw [ih (hends child hchild)]

theorem IsPreorder.eq_descendants {order : NodeId → List NodeId} (h : t.IsPreorder order)
    (hno : NoCycle t.HasChild) : order = t.descendants := by
  funext n
  rw [descendants_eq_preorder hno, h.eq_preorder (endsBelow_size hno n)]

/-- A node and what is below it are a block in what is below its ancestors. -/
theorem cons_descendants_infix (hno : NoCycle t.HasChild) (h : m ∈ t.descendants n) :
    m :: t.descendants m <:+: t.descendants n := by
  have hchild : ∀ {p c : NodeId}, t.HasChild p c → c :: t.descendants c <:+: t.descendants p := by
    intro p c hc
    rw [isPreorder_descendants hno p]
    exact List.infix_flatMap_of_mem hc fun child => child :: t.descendants child
  rw [mem_descendants_iff hno] at h
  -- The block of a child holds, behind the child itself, the blocks further down.
  induction h using Relation.TransGen.head_induction_on with
  | single hstep => exact hchild hstep
  | head hstep _ ih => exact (List.infix_cons ih).trans (hchild hstep)

namespace Forest

/-- What is below a node are the nodes that have it as an ancestor. -/
theorem mem_descendants_iff_ancestors (h : t.Forest) : m ∈ t.descendants n ↔ n ∈ t.ancestors m := by
  rw [mem_descendants_iff h.noCycle_hasChild, h.mem_ancestors_iff]

theorem not_mem_descendants_self (h : t.Forest) (n : NodeId) : n ∉ t.descendants n := by
  rw [mem_descendants_iff h.noCycle_hasChild]
  exact h.noCycle_hasChild n

/-- The traversal of a subtree cuts the larger one in three, and what is not in the
    middle is not below the root of the subtree. -/
theorem exists_descendants_eq_append (h : t.Forest) (hm : m ∈ t.descendants n) :
    ∃ before after, t.descendants n = before ++ t.descendants m ++ after ∧
      ∀ k ∈ before ++ after, m ∉ t.ancestors k := by
  rcases cons_descendants_infix h.noCycle_hasChild hm with ⟨front, back, hcut⟩
  have hsplit : t.descendants n = (front ++ [m]) ++ t.descendants m ++ back := by
    rw [← hcut, List.append_cons front m]
  have hnodup := h.nodup_descendants n
  rw [hsplit, List.nodup_append, List.nodup_append] at hnodup
  refine ⟨front ++ [m], back, hsplit, fun k hk hbelow => ?_⟩
  -- A node outside that is below the root of the subtree would be met twice.
  rw [← h.mem_descendants_iff_ancestors] at hbelow
  rcases List.mem_append.mp hk with hfront | hback
  · exact hnodup.1.2.2 k hfront k hbelow rfl
  · exact hnodup.2.2 k (List.mem_append_right _ hbelow) k hback rfl

end Forest

end Tree

/-- Traversals of what is built are in document order. From a node the traversal goes
    on until its stack is empty, and what it visits follows the rule of document
    order, which nothing else does. It visits the nodes that have the first one as an
    ancestor, each once, and not that node itself; and what is below a node that it
    visits comes in one piece directly behind that node. -/
theorem preorder_of_built {t : Tree} (ht : t.Built) :
    (∀ r, t.Traverses (t.children r) (t.descendants r)) ∧
    (t.IsPreorder t.descendants ∧ ∀ order, t.IsPreorder order → order = t.descendants) ∧
    (∀ r, (∀ x, x ∈ t.descendants r ↔ r ∈ t.ancestors x) ∧ (t.descendants r).Nodup ∧
      r ∉ t.descendants r) ∧
    ∀ r, ∀ x ∈ t.descendants r, x :: t.descendants x <:+: t.descendants r := by
  have h : t.Forest := ht.forest
  have hno : Tree.NoCycle t.HasChild := h.noCycle_hasChild
  exact ⟨Tree.traverses_descendants hno,
    ⟨Tree.isPreorder_descendants hno, fun _ horder => horder.eq_descendants hno⟩,
    fun r => ⟨fun x => h.mem_descendants_iff_ancestors, h.nodup_descendants r,
      h.not_mem_descendants_self r⟩,
    fun r x hx => Tree.cons_descendants_infix hno hx⟩

/-- The element that was attached last comes behind the text, though its position is
    smaller, and what was below it before comes directly behind it. -/
theorem elementBehindText_preorder : elementBehindText.Built ∧
    elementBehindText.descendants 1 = [4, 2, 3] ∧ [2, 3] <:+: elementBehindText.descendants 1 ∧
    (3 ∈ elementBehindText.descendants 1 ↔ 1 ∈ elementBehindText.ancestors 3) := by
  rcases preorder_of_built elementBehindText_built with ⟨_, _, hmem, hblock⟩
  exact ⟨elementBehindText_built, by decide, hblock 1 2 (by decide), (hmem 1).1 3⟩

/-! ### Queries -/

/-- What a query finds below its root are the nodes there that match. -/
theorem SelectorList.mem_queryAll_iff {t : Tree} (h : t.Forest) {list : SelectorList}
    {root n : NodeId} :
    n ∈ list.queryAll t root ↔ root ∈ t.ancestors n ∧ list.matches t n = true := by
  rw [list.queryAll_eq_filter (h.nodup_descendants root), List.mem_filter,
    h.mem_descendants_iff_ancestors]

/-- Queries from a root and from one below it. What the smaller query finds is a block
    in what the larger one finds, and the rest is not below the smaller root. So the
    smaller query finds what the larger one finds there, nothing more and nothing
    less; for a node is found when it is below the root and matches, and the nodes at
    which the compounds of a clause are placed may be anywhere in the tree. -/
theorem query_block_of_built {t : Tree} (ht : t.Built) (list : SelectorList) :
    (∀ q, ∀ r ∈ t.descendants q, ∃ before after,
      list.queryAll t q = before ++ list.queryAll t r ++ after ∧
      (∀ n ∈ before ++ after, r ∉ t.ancestors n) ∧
      ∀ n, n ∈ list.queryAll t r ↔ n ∈ list.queryAll t q ∧ r ∈ t.ancestors n) ∧
    (∀ root n, n ∈ list.queryAll t root ↔ root ∈ t.ancestors n ∧ list.matches t n = true) ∧
    ∀ first steps root n, n ∈ SelectorList.queryAll ⟨[Selector.chain first steps]⟩ t root ↔
      root ∈ t.ancestors n ∧ ∃ place, Selector.Placement t first steps n place := by
  have h : t.Forest := ht.forest
  refine ⟨fun q r hr => ?_, fun root n => SelectorList.mem_queryAll_iff h,
    fun first steps root n => ?_⟩
  · rcases h.exists_descendants_eq_append hr with ⟨before, after, hcut, houtside⟩
    have hquery : list.queryAll t q = before.filter (list.matches t) ++ list.queryAll t r ++
        after.filter (list.matches t) := by
      rw [list.queryAll_eq_filter (h.nodup_descendants q),
        list.queryAll_eq_filter (h.nodup_descendants r), hcut, List.filter_append,
        List.filter_append]
    refine ⟨_, _, hquery, fun n hn => houtside n ?_, fun n => ?_⟩
    · rw [← List.filter_append] at hn
      exact List.mem_of_mem_filter hn
    · have hq : r ∈ t.ancestors n → q ∈ t.ancestors n := by
        simp only [h.mem_ancestors_iff]
        exact fun hrn => ((Tree.mem_descendants_iff h.noCycle_hasChild).mp hr).trans hrn
      rw [SelectorList.mem_queryAll_iff h, SelectorList.mem_queryAll_iff h]
      exact ⟨fun hn => ⟨⟨hq hn.1, hn.2⟩, hn.1⟩, fun hn => ⟨hn.2, hn.1.2⟩⟩
  · rw [SelectorList.mem_queryAll_iff h, SelectorList.matches_eq_any, List.any_cons, List.any_nil,
      Bool.or_false, Selector.matches_eq_fits, Selector.fits_chain_iff h.acyclic]

/-- An element `div` with three elements `p` in it, the second of them in an `ul`. -/
def threeParagraphs : List Document.Item :=
  [.element { tag := "div" } [.element { tag := "p" } [],
    .element { tag := "ul" } [.element { tag := "p" } []], .element { tag := "p" } []]]

/-- From inside of the `ul`, `div p` finds the `p` there, though both the `div` and the
    root are outside. From the document it finds one more on either side. -/
theorem threeParagraphs_query : (Document.toTree threeParagraphs).Built ∧
    3 ∈ (Document.toTree threeParagraphs).descendants 0 ∧
    SelectorList.queryAll ⟨[⟨⟨[.tag "p"]⟩, [⟨.descendant, ⟨[.tag "div"]⟩⟩]⟩]⟩
      (Document.toTree threeParagraphs) 3 = [4] ∧
    ∃ before after, [2, 4, 5] = before ++ [4] ++ after ∧
      ∀ n ∈ before ++ after, 3 ∉ (Document.toTree threeParagraphs).ancestors n := by
  have ht : (Document.toTree threeParagraphs).Built :=
    (Document.built_rooted_toTree threeParagraphs).1
  have hbelow : 3 ∈ (Document.toTree threeParagraphs).descendants 0 := by decide +kernel
  have hinner : SelectorList.queryAll ⟨[⟨⟨[.tag "p"]⟩, [⟨.descendant, ⟨[.tag "div"]⟩⟩]⟩]⟩
      (Document.toTree threeParagraphs) 3 = [4] := by decide +kernel
  have houter : SelectorList.queryAll ⟨[⟨⟨[.tag "p"]⟩, [⟨.descendant, ⟨[.tag "div"]⟩⟩]⟩]⟩
      (Document.toTree threeParagraphs) 0 = [2, 4, 5] := by decide +kernel
  rcases (query_block_of_built ht _).1 0 3 hbelow with ⟨before, after, hcut, houtside, _⟩
  rw [hinner, houter] at hcut
  exact ⟨ht, hbelow, hinner, before, after, hcut, houtside⟩

end DomQuery
