import DomQuery.Proofs.Acyclic

/-!
# Document Order

What the traversal of a tree visits.

The traversal keeps a stack and is allowed a number of visits that was counted
beforehand. `Tree.Traverses` is the same traversal without the count: it goes
on until the stack is empty. When children form no cycle the two agree, because
nothing is deeper below a node than the tree is large, so the count, which goes
to that depth, has counted everything.

Both are compared with the order itself. `Tree.preorder` puts every node in
front of what is below it and follows the children in their order. What a
traversal visits from a whole stack is the preorder of the topmost node
followed by what it visits from the rest of the stack, and that is the form in
which the induction goes through: over the depth, and for each depth over the
children that are pushed together.

## Main definitions

* `Tree.HasChild`: One node holds another as a child.
* `Tree.Traverses`: A traversal that goes on until its stack is empty.
* `Tree.preorder`: What is below a node to a depth.
* `Tree.EndsBelow`: Nothing is below a node past a depth.

## Theorems

* `Tree.length_preorder`: The visits that are counted beforehand are those of the
  order.
* `Tree.visit_eq_of_traverses`: Allowed enough visits, a traversal goes on until
  its stack is empty.
* `Tree.endsBelow_size`: Without a cycle nothing is deeper than the tree is
  large.
* `Tree.descendants_eq_preorder`: A traversal visits in document order.
* `Tree.traverses_descendants`: What is below a node is all that a traversal
  visits.
* `Tree.Traverses.unique`: There is one traversal from a stack.
* `Tree.mem_descendants_iff`: What is below a node are the nodes that steps to
  children lead to.
-/

namespace DomQuery

namespace Tree

/-- One node holds another as a child. -/
def HasChild (t : Tree) (n m : NodeId) : Prop := m ∈ t.children n

/-- From a stack, the next node to be visited first, the traversal visits these
    nodes until the stack is empty. -/
inductive Traverses (t : Tree) : List NodeId → List NodeId → Prop where
  | done : Traverses t [] []
  | visit {n : NodeId} {stack visits : List NodeId}
      (h : Traverses t (t.children n ++ stack) visits) : Traverses t (n :: stack) (n :: visits)

/-- What is below a node to a depth, every node in front of what is below it and
    the children in their order. -/
def preorder (t : Tree) : Nat → NodeId → List NodeId
  | 0, _ => []
  | depth + 1, n => (t.children n).flatMap fun child => child :: preorder t depth child

/-- Nothing is below a node past a depth. -/
def EndsBelow (t : Tree) : Nat → NodeId → Prop
  | 0, n => t.children n = []
  | depth + 1, n => ∀ child ∈ t.children n, EndsBelow t depth child

variable {t : Tree}

theorem length_preorder (depth : Nat) (n : NodeId) :
    (t.preorder depth n).length = t.countTo depth n := by
  induction depth generalizing n with
  | zero => rfl
  | succ depth ih =>
      rw [preorder, countTo, List.length_flatMap, List.sum_eq_foldr, List.foldr_map]
      simp only [List.length_cons, ih]

/-- From the children of a node on top of a stack, a traversal visits what is
    below the node and then what it visits from the rest. -/
theorem Traverses.preorder_append {depth : Nat} {n : NodeId} {stack visits : List NodeId}
    (hends : t.EndsBelow depth n) (hrest : t.Traverses stack visits) :
    t.Traverses (t.children n ++ stack) (t.preorder depth n ++ visits) := by
  induction depth generalizing n stack visits with
  | zero =>
      rw [EndsBelow] at hends
      rw [hends, preorder, List.nil_append, List.nil_append]
      exact hrest
  | succ depth ih =>
      -- The children lie on the stack together, so each is visited with its
      -- later siblings below it.
      have hsiblings : ∀ cs : List NodeId, (∀ c ∈ cs, t.EndsBelow depth c) →
          t.Traverses (cs ++ stack)
            ((cs.flatMap fun child => child :: t.preorder depth child) ++ visits) := by
        intro cs
        induction cs with
        | nil => exact fun _ => hrest
        | cons c cs ihcs =>
            intro hcs
            have hlater := ihcs fun d hd => hcs d (List.mem_cons_of_mem _ hd)
            rw [List.flatMap_cons, List.cons_append, List.cons_append, List.cons_append,
              List.append_assoc]
            exact Traverses.visit (ih (hcs c List.mem_cons_self) hlater)
      exact hsiblings (t.children n) hends

/-- Allowed enough visits, a traversal goes on until its stack is empty. -/
theorem visit_eq_of_traverses {stack visits visited : List NodeId} {fuel : Nat}
    (h : t.Traverses stack visits) (hfuel : visits.length ≤ fuel) :
    t.visit visited fuel stack = visited.reverse ++ visits := by
  induction h generalizing visited fuel with
  | done =>
      rw [List.append_nil]
      cases fuel with
      | zero => rfl
      | succ fuel => rfl
  | visit _ ih =>
      rw [List.length_cons] at hfuel
      cases fuel with
      | zero => omega
      | succ fuel =>
          rw [Tree.visit, ih (by omega), List.reverse_cons, List.append_assoc]
          rfl

theorem lt_size_of_hasChild {n m : NodeId} (h : t.HasChild n m) : n < t.size := by
  rw [HasChild, children] at h
  rcases hcell : t.cell? n with _ | cell
  · rw [hcell] at h
    exact absurd h List.not_mem_nil
  · exact (Array.getElem?_eq_some_iff.mp hcell).1

/-- Where something is below a node past a depth, a path leads past that depth. -/
theorem exists_path_of_not_endsBelow {depth : Nat} {n : NodeId} (h : ¬ t.EndsBelow depth n) :
    ∃ path, (n :: path).IsChain t.HasChild ∧ path.length = depth + 1 := by
  induction depth generalizing n with
  | zero =>
      rcases List.exists_cons_of_ne_nil h with ⟨child, rest, hchildren⟩
      have hchild : t.HasChild n child := by
        rw [HasChild, hchildren]
        exact List.mem_cons_self
      exact ⟨[child], List.IsChain.cons_cons hchild (List.IsChain.singleton child), rfl⟩
  | succ depth ih =>
      rw [EndsBelow] at h
      push Not at h
      rcases h with ⟨child, hchild, hdeep⟩
      rcases ih hdeep with ⟨path, hpath, hlen⟩
      exact ⟨child :: path, List.IsChain.cons_cons hchild hpath, by rw [List.length_cons, hlen]⟩

/-- Without a cycle nothing is deeper than the tree is large. -/
theorem endsBelow_size (hno : NoCycle t.HasChild) (n : NodeId) : t.EndsBelow t.size n := by
  by_contra hdeep
  rcases exists_path_of_not_endsBelow hdeep with ⟨path, hpath, hlen⟩
  have hle := length_le_of_isChain hno (fun _ _ h => lt_size_of_hasChild h) hpath
  omega

theorem traverses_preorder (hno : NoCycle t.HasChild) (n : NodeId) :
    t.Traverses (t.children n) (t.preorder t.size n) := by
  have h := Traverses.preorder_append (endsBelow_size hno n) Traverses.done
  rwa [List.append_nil, List.append_nil] at h

theorem descendants_eq_preorder (hno : NoCycle t.HasChild) (n : NodeId) :
    t.descendants n = t.preorder t.size n := by
  have hcount : (t.preorder t.size n).length ≤ t.countTo t.size n :=
    Nat.le_of_eq (length_preorder t.size n)
  rw [descendants, countBelow, visit_eq_of_traverses (traverses_preorder hno n) hcount]
  rfl

/-- What is below a node is all that a traversal visits. -/
theorem traverses_descendants (hno : NoCycle t.HasChild) (n : NodeId) :
    t.Traverses (t.children n) (t.descendants n) := by
  rw [descendants_eq_preorder hno]
  exact traverses_preorder hno n

/-- There is one traversal from a stack. -/
theorem Traverses.unique {stack visits visits' : List NodeId} (h : t.Traverses stack visits)
    (h' : t.Traverses stack visits') : visits = visits' := by
  induction h generalizing visits' with
  | done =>
      cases h'
      rfl
  | visit _ ih =>
      cases h' with
      | visit h' => rw [ih h']

/-- A traversal visits what is on its stack and what is below that. -/
theorem Traverses.mem_iff {stack visits : List NodeId} {m : NodeId} (h : t.Traverses stack visits) :
    m ∈ visits ↔ ∃ n ∈ stack, Relation.ReflTransGen t.HasChild n m := by
  induction h with
  | done => simp only [List.not_mem_nil, false_and, exists_false]
  | @visit n stack visits _ ih =>
      rw [List.mem_cons, ih]
      constructor
      · rintro (rfl | ⟨k, hk, hkm⟩)
        · exact ⟨m, List.mem_cons_self, .refl⟩
        · rcases List.mem_append.mp hk with hchild | hlater
          · exact ⟨n, List.mem_cons_self, .head hchild hkm⟩
          · exact ⟨k, List.mem_cons_of_mem _ hlater, hkm⟩
      · rintro ⟨k, hk, hkm⟩
        rcases List.mem_cons.mp hk with rfl | hlater
        · -- The node itself is visited now, and what is below it from its children.
          rcases Relation.ReflTransGen.cases_head hkm with heq | ⟨child, hchild, hrest⟩
          · exact .inl heq.symm
          · exact .inr ⟨child, List.mem_append_left _ hchild, hrest⟩
        · exact .inr ⟨k, List.mem_append_right _ hlater, hkm⟩

theorem mem_descendants_iff (hno : NoCycle t.HasChild) {n m : NodeId} :
    m ∈ t.descendants n ↔ Relation.TransGen t.HasChild n m := by
  rw [(traverses_descendants hno n).mem_iff, Relation.TransGen.head'_iff]
  rfl

/-- Children that have greater positions form no cycle. -/
theorem noCycle_hasChild_of_forall_lt (h : ∀ n < t.size, ∀ m ∈ t.children n, n < m) :
    NoCycle t.HasChild := by
  refine noCycle_of_rank (fun n => t.size - n) fun n m hm => ?_
  have hn := lt_size_of_hasChild hm
  exact Nat.sub_lt_sub_left hn (h n hn m hm)

/-- Where children have greater positions, so has all that is below a node. -/
theorem le_of_reflTransGen_hasChild (h : ∀ n < t.size, ∀ m ∈ t.children n, n < m) {a b : NodeId}
    (hab : Relation.ReflTransGen t.HasChild a b) : a ≤ b := by
  induction hab with
  | refl => exact Nat.le_refl a
  | tail _ hchild ih =>
      have hlt := h _ (lt_size_of_hasChild hchild) _ hchild
      exact Nat.le_trans ih (Nat.le_of_lt hlt)

end Tree

end DomQuery
