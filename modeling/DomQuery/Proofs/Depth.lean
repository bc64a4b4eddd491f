import DomQuery.Proofs.Blocks

/-!
# Depths

How far down the nodes of a subtree are, and what that says about its shape.

The depth of a node below another is counted upwards, along parents, as the number of
steps from the one to the other. A subtree written out as an outline counts it
downwards: every node is told with a level, and the nodes below it with the next one.
In a forest the two agree, since the first step up from a node leads to where the
last step down came from, and the nodes of an outline are those of the traversal.

An outline without its nodes is a list of levels, and nothing of the shape is lost in
it. What is below a node has greater levels than the node, and what follows has not.
So the levels behind a node up to the first one that is not greater are those of what
is below it, and two lists of levels that are the same come apart in the same places.

## Main definitions

* `Tree.depthBelow`: The number of steps up from one node to another.
* `Tree.outlineTo`, `Tree.levelsTo`: The nodes of a subtree with their levels, and the
  levels alone.
* `Tree.SameShape`: Two subtrees have the same shape.

## Theorems

* `Tree.Forest.depthBelow_of_hasChild`: A child is one step deeper.
* `Tree.Forest.endsBelow_pred_size`: How deep a forest is.
* `Tree.Forest.outlineTo_eq`, `Tree.Forest.outlineTo_pred_size`: An outline is the
  traversal with depths.
* `Tree.sameShape_of_levelsTo_eq`: Levels tell the shape.
-/

namespace DomQuery

namespace Tree

/-- The number of steps to parents that lead from a node to one that it is below. -/
def depthBelow (t : Tree) (r n : NodeId) : Nat := (n :: t.ancestors n).idxOf r

/-- A node and what is below it to a depth, each with its level, in document order. -/
def outlineTo (t : Tree) : Nat → Nat → NodeId → List (Nat × NodeId)
  | 0, level, n => [(level, n)]
  | depth + 1, level, n => (level, n) :: (t.children n).flatMap (outlineTo t depth (level + 1))

/-- The levels of a node and of what is below it to a depth, in document order. -/
def levelsTo (t : Tree) (depth level : Nat) (n : NodeId) : List Nat :=
  (t.outlineTo depth level n).map Prod.fst

/-- Two nodes have equally many children, and these have the same shape one by one. -/
inductive SameShape (t t' : Tree) : NodeId → NodeId → Prop where
  | children {n n' : NodeId} (h : List.Forall₂ (SameShape t t') (t.children n) (t'.children n')) :
      SameShape t t' n n'

variable {t t' : Tree} {r n m c : NodeId} {depth depth' level : Nat}

theorem depthBelow_self (t : Tree) (n : NodeId) : t.depthBelow n n = 0 := List.idxOf_cons_self

namespace Forest

/-- The ancestors of a child are its parent and the ancestors of that. -/
theorem ancestors_eq_cons (h : t.Forest) (hm : t.HasChild n m) :
    t.ancestors m = n :: t.ancestors n :=
  (h.acyclic.chain_ancestors m).unique
    (.cons ((h.mem_children_iff n m).mp hm) (h.acyclic.chain_ancestors n))

/-- A child is one step deeper than its parent. -/
theorem depthBelow_of_hasChild (h : t.Forest) (hm : t.HasChild n m) (hne : r ≠ m) :
    t.depthBelow r m = t.depthBelow r n + 1 := by
  rw [depthBelow, depthBelow, h.ancestors_eq_cons hm, List.idxOf_cons_ne _ hne.symm]

/-- What is below a child of a node is one step deeper below the node. -/
theorem depthBelow_of_below_child (h : t.Forest) (hc : t.HasChild n c)
    (hm : Relation.ReflTransGen t.HasChild c m) : t.depthBelow n m = t.depthBelow c m + 1 := by
  have hno := h.noCycle_hasChild
  induction hm with
  | refl =>
      have hne : n ≠ c := fun heq => hno c (.single (heq ▸ hc))
      rw [h.depthBelow_of_hasChild hc hne, depthBelow_self, depthBelow_self]
  | @tail p m hp hm ih =>
      -- Neither the node nor its child is the last one, which is below both.
      have hcm : Relation.TransGen t.HasChild c m := .tail' hp hm
      have hnec : c ≠ m := fun heq => hno m (by rwa [heq] at hcm)
      have hnen : n ≠ m := fun heq => hno m (by rw [heq] at hc; exact .head hc hcm)
      rw [h.depthBelow_of_hasChild hm hnen, h.depthBelow_of_hasChild hm hnec, ih]

/-- From a node that is there, no path leads down through as many steps as there are
    nodes. -/
theorem endsBelow_pred_size (h : t.Forest) (hn : n < t.size) : t.EndsBelow (t.size - 1) n := by
  by_contra hdeep
  rcases exists_path_of_not_endsBelow hdeep with ⟨path, hpath, hlen⟩
  -- All nodes of the path are there, the first one by assumption and the others as children.
  have hsubset : n :: path ⊆ List.range t.size := by
    intro m hm
    rw [List.mem_range]
    rcases List.mem_cons.mp hm with rfl | hm
    · exact hn
    · rcases List.mem_iff_getElem.mp hm with ⟨i, hi, rfl⟩
      exact h.lt_size_of_mem_children (hpath.getElem i (Nat.succ_lt_succ hi))
  have hle := ((nodup_of_isChain h.noCycle_hasChild hpath).subperm hsubset).length_le
  rw [List.length_cons, List.length_range] at hle
  omega

/-- An outline is the traversal, every node with its depth. -/
theorem outlineTo_eq (h : t.Forest) (depth level : Nat) (n : NodeId) :
    t.outlineTo depth level n =
      (n :: t.preorder depth n).map fun m => (level + t.depthBelow n m, m) := by
  induction depth generalizing level n with
  | zero => rw [outlineTo, preorder, List.map_singleton, depthBelow_self, Nat.add_zero]
  | succ depth ih =>
      rw [outlineTo, preorder, List.map_cons, depthBelow_self, Nat.add_zero, List.map_flatMap]
      congr 1
      refine List.flatMap_congr fun c hc => ?_
      rw [ih]
      refine List.map_congr_left fun m hm => ?_
      have hbelow : Relation.ReflTransGen t.HasChild c m := by
        rcases List.mem_cons.mp hm with rfl | hm
        · exact .refl
        · exact (transGen_of_mem_preorder hm).to_reflTransGen
      rw [h.depthBelow_of_below_child hc hbelow]
      congr 1
      omega

/-- An outline that is deep enough is the traversal of the subtree. -/
theorem outlineTo_pred_size (h : t.Forest) (hn : n < t.size) : t.outlineTo (t.size - 1) 0 n =
    (n :: t.descendants n).map fun m => (t.depthBelow n m, m) := by
  rw [h.outlineTo_eq,
    (isPreorder_descendants h.noCycle_hasChild).eq_preorder (h.endsBelow_pred_size hn)]
  simp only [Nat.zero_add]

/-- Levels are depths. -/
theorem levelsTo_pred_size (h : t.Forest) (hn : n < t.size) :
    t.levelsTo (t.size - 1) 0 n = (n :: t.descendants n).map (t.depthBelow n) := by
  rw [levelsTo, h.outlineTo_pred_size hn, List.map_map]
  rfl

end Forest

theorem levelsTo_succ : t.levelsTo (depth + 1) level n =
    level :: (t.children n).flatMap (t.levelsTo depth (level + 1)) := by
  rw [levelsTo, outlineTo, List.map_cons, List.map_flatMap]
  rfl

/-- Levels begin with the one of the node, and what is behind it is greater. -/
theorem exists_levelsTo_eq_cons (t : Tree) (depth level : Nat) (n : NodeId) :
    ∃ below, t.levelsTo depth level n = level :: below ∧ ∀ l ∈ below, level < l := by
  induction depth generalizing level n with
  | zero => exact ⟨[], rfl, fun l hl => absurd hl List.not_mem_nil⟩
  | succ depth ih =>
      refine ⟨_, levelsTo_succ, fun l hl => ?_⟩
      rcases List.mem_flatMap.mp hl with ⟨c, _, hl⟩
      rcases ih (level + 1) c with ⟨below, heq, hgreater⟩
      rw [heq] at hl
      rcases List.mem_cons.mp hl with rfl | hl
      · exact Nat.lt_succ_self level
      · exact Nat.lt_of_succ_lt (hgreater l hl)

/-- The levels of several nodes begin with the one that these have in common. -/
theorem head?_flatMap_levelsTo (t : Tree) (depth level : Nat) (ns : List NodeId) :
    ∀ l ∈ (ns.flatMap (t.levelsTo depth level)).head?, l = level := by
  intro l hl
  cases ns with
  | nil => cases hl
  | cons n ns =>
      rcases t.exists_levelsTo_eq_cons depth level n with ⟨below, heq, _⟩
      rw [List.flatMap_cons, heq] at hl
      cases hl
      rfl

/-- A list is cut in one way only in front of its first level that is not greater. -/
theorem append_inj_of_greater {below below' rest rest' : List Nat}
    (hbelow : ∀ l ∈ below, level < l) (hbelow' : ∀ l ∈ below', level < l)
    (hrest : ∀ l ∈ rest.head?, l = level) (hrest' : ∀ l ∈ rest'.head?, l = level)
    (heq : below ++ rest = below' ++ rest') : below = below' ∧ rest = rest' := by
  induction below generalizing below' with
  | nil =>
      cases below' with
      | nil => exact ⟨rfl, heq⟩
      | cons l below' =>
          rw [List.nil_append] at heq
          rw [heq] at hrest
          exact absurd (hrest l rfl) (Nat.ne_of_gt (hbelow' l List.mem_cons_self))
  | cons l below ih =>
      cases below' with
      | nil =>
          rw [List.nil_append] at heq
          rw [← heq] at hrest'
          exact absurd (hrest' l rfl) (Nat.ne_of_gt (hbelow l List.mem_cons_self))
      | cons l' below' =>
          rw [List.cons_append, List.cons_append, List.cons.injEq] at heq
          have hcut := ih (fun k hk => hbelow k (List.mem_cons_of_mem _ hk))
            (fun k hk => hbelow' k (List.mem_cons_of_mem _ hk)) heq.2
          exact ⟨by rw [heq.1, hcut.1], hcut.2⟩

/-- Nodes whose levels are the same together have the same shape one by one, if those
    with the same levels have. -/
theorem forall₂_sameShape {ns ns' : List NodeId}
    (h : ∀ n ∈ ns, ∀ n' ∈ ns', t.levelsTo depth level n = t'.levelsTo depth' level n' →
      SameShape t t' n n')
    (heq : ns.flatMap (t.levelsTo depth level) = ns'.flatMap (t'.levelsTo depth' level)) :
    List.Forall₂ (SameShape t t') ns ns' := by
  induction ns generalizing ns' with
  | nil =>
      cases ns' with
      | nil => exact .nil
      | cons n' ns' =>
          rcases t'.exists_levelsTo_eq_cons depth' level n' with ⟨below', hn', _⟩
          rw [List.flatMap_cons, hn'] at heq
          cases heq
  | cons n ns ih =>
      rcases t.exists_levelsTo_eq_cons depth level n with ⟨below, hn, hbelow⟩
      cases ns' with
      | nil =>
          rw [List.flatMap_cons, hn] at heq
          cases heq
      | cons n' ns' =>
          rcases t'.exists_levelsTo_eq_cons depth' level n' with ⟨below', hn', hbelow'⟩
          rw [List.flatMap_cons, List.flatMap_cons, hn, hn', List.cons_append, List.cons_append,
            List.cons.injEq] at heq
          -- What is below the first nodes is cut off in the same place on both sides.
          have hcut := append_inj_of_greater hbelow hbelow'
            (t.head?_flatMap_levelsTo depth level ns)
            (t'.head?_flatMap_levelsTo depth' level ns') heq.2
          refine .cons (h n List.mem_cons_self n' List.mem_cons_self ?_) (ih ?_ hcut.2)
          · rw [hn, hn', hcut.1]
          · exact fun m hm m' hm' => h m (List.mem_cons_of_mem _ hm) m' (List.mem_cons_of_mem _ hm')

/-- Where nothing is deeper below a node, the levels below it are those of its
    children. -/
theorem EndsBelow.levelsTo_eq (h : t.EndsBelow depth n) (level : Nat) : t.levelsTo depth level n =
    level :: (t.children n).flatMap (t.levelsTo (depth - 1) (level + 1)) := by
  cases depth with
  | zero =>
      rw [EndsBelow] at h
      rw [h]
      rfl
  | succ depth => exact levelsTo_succ

theorem EndsBelow.of_hasChild (h : t.EndsBelow depth n) (hc : t.HasChild n c) :
    t.EndsBelow (depth - 1) c := by
  cases depth with
  | zero =>
      rw [EndsBelow] at h
      rw [HasChild, h] at hc
      exact absurd hc List.not_mem_nil
  | succ depth => exact h c hc

/-- Levels tell the shape. -/
theorem sameShape_of_levelsTo_eq {n' : NodeId} (h : t.EndsBelow depth n)
    (h' : t'.EndsBelow depth' n')
    (heq : t.levelsTo depth level n = t'.levelsTo depth' level n') : SameShape t t' n n' := by
  induction depth generalizing depth' level n n' with
  | zero =>
      -- There are no children on one side, so there are no levels below on either.
      rw [h.levelsTo_eq, h'.levelsTo_eq, List.cons.injEq] at heq
      refine .children (forall₂_sameShape (fun c hc => ?_) heq.2)
      rw [EndsBelow] at h
      rw [h] at hc
      exact absurd hc List.not_mem_nil
  | succ depth ih =>
      rw [h.levelsTo_eq, h'.levelsTo_eq, List.cons.injEq] at heq
      refine .children (forall₂_sameShape (fun c hc c' hc' hlevels => ?_) heq.2)
      exact ih (h.of_hasChild hc) (h'.of_hasChild hc') hlevels

end Tree

end DomQuery
