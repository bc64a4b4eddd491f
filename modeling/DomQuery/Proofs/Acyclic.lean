import DomQuery.Tree.Walk
import Mathlib.Data.List.Chain
import Mathlib.Data.List.Perm.Subperm
import Mathlib.Logic.Relation

/-!
# Walks That End

What makes the walks of a tree complete.

A walk is allowed as many steps as the tree has nodes, and the links of a tree
are free to form a cycle, in which case no number of steps is enough. So there
are two notions of what a walk meets: the nodes on a list that was cut off
after so many steps, and the nodes that some number of steps leads to. They
agree when no node is met again from itself. A path of links then passes
through pairwise different nodes, each of which stores a link and is therefore
one of the nodes of the tree, so the path is no longer than the tree is large
(`length_le_of_isChain`), and the walk has met all of it.

Acyclicity is stated for the stored links, one relation at a time, and passed
on to the walks along elements: a step to a parent element is a step to a
parent, and a step to the element in front is one or more steps to the
neighbour in front.

## Main definitions

* `Tree.Follows`: One node leads to another by a step.
* `Tree.NoCycle`: No node is met again from itself.
* `Tree.Acyclic`: Neither the parents nor the neighbours in front form a cycle.
* `Tree.Chain`: The whole chain that a step leads along.

## Theorems

* `Tree.length_le_of_isChain`: A path without repetition is no longer than the
  tree is large.
* `Tree.noCycle_of_step`: What one step more needs to make no cycle.
* `Tree.chain_walk`: A walk without a cycle is a whole chain.
* `Tree.mem_walk_iff`: A walk without a cycle meets all that steps lead to.
* `Tree.search_eq_find?`: A search is a walk that is looked through.
* `Tree.chain_elementAncestors`, `Tree.Acyclic.chain_ancestors`,
  `Tree.Acyclic.chain_precedingSiblings`, `Tree.Acyclic.chain_precedingElements`: The
  walks of a tree are whole chains.
* `Tree.Acyclic.mem_elementAncestors_iff`, `Tree.Acyclic.mem_precedingElements_iff`:
  The walks along elements are complete.
* `Tree.Acyclic.of_forall_lt`: Links that lead to smaller positions form no cycle.
-/

namespace DomQuery

namespace Tree

/-- One node leads to another by a step. -/
def Follows (step : NodeId → Option NodeId) (n m : NodeId) : Prop := step n = some m

/-- No node is met again from itself. -/
def NoCycle (R : NodeId → NodeId → Prop) : Prop := ∀ n, ¬ Relation.TransGen R n n

/-- Neither the parents nor the neighbours in front form a cycle. -/
structure Acyclic (t : Tree) : Prop where
  parent : NoCycle (Follows t.parent?)
  prev : NoCycle (Follows t.prev?)

/-- The whole chain from a node: what a step leads to when it is repeated until it
    leads nowhere. -/
inductive Chain (step : NodeId → Option NodeId) : NodeId → List NodeId → Prop where
  | nil {n : NodeId} (h : step n = none) : Chain step n []
  | cons {n m : NodeId} {path : List NodeId} (h : step n = some m) (hrest : Chain step m path) :
      Chain step n (m :: path)

section Path

variable {R : NodeId → NodeId → Prop} {size : Nat}

theorem nodup_of_isChain (hno : NoCycle R) {path : List NodeId} (h : path.IsChain R) :
    path.Nodup := by
  have htrans : path.IsChain (Relation.TransGen R) :=
    h.imp fun _ _ hab => Relation.TransGen.single hab
  refine htrans.pairwise.imp fun {a b} hab heq => ?_
  rw [heq] at hab
  exact hno b hab

/-- A path is no longer than the tree is large. All nodes on it but the last
    lead on, so they are nodes of the tree, and no two of them are the same. -/
theorem length_le_of_isChain (hno : NoCycle R) (hlt : ∀ a b, R a b → a < size)
    {n : NodeId} {path : List NodeId} (h : (n :: path).IsChain R) : path.length ≤ size := by
  have hnodup : (n :: path).dropLast.Nodup :=
    (nodup_of_isChain hno h).sublist (List.dropLast_sublist _)
  have hsubset : (n :: path).dropLast ⊆ List.range size := by
    intro a ha
    -- A node that is not the last one leads on to the next.
    rcases List.mem_iff_getElem.mp ha with ⟨i, hi, rfl⟩
    rw [List.length_dropLast, List.length_cons, Nat.add_sub_cancel] at hi
    rw [List.getElem_dropLast, List.mem_range]
    exact hlt _ _ (h.getElem i (by rw [List.length_cons]; omega))
  have hle := (hnodup.subperm hsubset).length_le
  rwa [List.length_dropLast, List.length_cons, Nat.add_sub_cancel, List.length_range] at hle

/-- A relation along which some rank falls has no cycle. -/
theorem noCycle_of_rank (rank : NodeId → Nat) (hfalls : ∀ a b, R a b → rank b < rank a) :
    NoCycle R := by
  have hpath : ∀ a b, Relation.TransGen R a b → rank b < rank a := by
    intro a b h
    induction h with
    | single hab => exact hfalls _ _ hab
    | tail _ hbc ih => exact Nat.lt_trans (hfalls _ _ hbc) ih
  intro n hn
  exact Nat.lt_irrefl (rank n) (hpath n n hn)

/-- One step more, from `a` to `b`, makes no cycle where no steps led from `b` to
    `a`. -/
theorem noCycle_of_step {R' : NodeId → NodeId → Prop} {a b : NodeId} (hno : NoCycle R)
    (hnew : ¬ Relation.ReflTransGen R b a) (hstep : ∀ x y, R' x y → R x y ∨ x = a ∧ y = b) :
    NoCycle R' := by
  -- A path with the new step in it goes to `a` before the step and on from `b` behind it.
  have hpath : ∀ x y, Relation.TransGen R' x y →
      Relation.TransGen R x y ∨ Relation.ReflTransGen R x a ∧ Relation.ReflTransGen R b y := by
    intro x y h
    induction h with
    | single hxy =>
        rcases hstep _ _ hxy with hold | ⟨rfl, rfl⟩
        · exact .inl (.single hold)
        · exact .inr ⟨.refl, .refl⟩
    | tail _ hyz ih =>
        rcases hstep _ _ hyz with hold | ⟨rfl, rfl⟩
        · exact ih.imp (·.tail hold) fun h => ⟨h.1, h.2.tail hold⟩
        · exact .inr ⟨ih.elim (·.to_reflTransGen) (·.1), .refl⟩
  intro n hn
  rcases hpath n n hn with hold | ⟨hto, hfrom⟩
  · exact hno n hold
  · exact hnew (hfrom.trans hto)

end Path

section Walk

variable {step : NodeId → Option NodeId} {n m : NodeId}

theorem transGen_of_mem_walk {fuel : Nat} (h : m ∈ walk step fuel n) :
    Relation.TransGen (Follows step) n m := by
  induction fuel generalizing n with
  | zero => exact absurd h List.not_mem_nil
  | succ fuel ih =>
      rw [walk] at h
      rcases hstep : step n with _ | k
      · rw [hstep] at h
        exact absurd h List.not_mem_nil
      · rw [hstep] at h
        rcases List.mem_cons.mp h with heq | hmem
        · rw [heq]
          exact Relation.TransGen.single hstep
        · exact Relation.TransGen.head hstep (ih hmem)

/-- A walk starts with every path that it has the steps for. -/
theorem isPrefix_walk_of_isChain {fuel : Nat} {path : List NodeId}
    (h : (n :: path).IsChain (Follows step)) (hlen : path.length ≤ fuel) :
    path <+: walk step fuel n := by
  induction path generalizing n fuel with
  | nil => exact List.nil_prefix
  | cons k path ih =>
      rw [List.length_cons] at hlen
      cases fuel with
      | zero => omega
      | succ fuel =>
          have hstep : step n = some k := h.rel
          rw [walk, hstep, List.prefix_cons_inj]
          exact ih h.of_cons (by omega)

/-- A walk without a cycle meets all that steps lead to. -/
theorem mem_walk_iff {size : Nat} (hno : NoCycle (Follows step))
    (hlt : ∀ a b, step a = some b → a < size) :
    m ∈ walk step size n ↔ Relation.TransGen (Follows step) n m := by
  refine ⟨transGen_of_mem_walk, fun h => ?_⟩
  -- Some path leads from the first step to the node, and the walk starts with it.
  rcases Relation.TransGen.head'_iff.mp h with ⟨k, hk, hrest⟩
  rcases List.exists_isChain_cons_of_relationReflTransGen hrest with ⟨path, hpath, hlast⟩
  have hchain : (n :: k :: path).IsChain (Follows step) := List.IsChain.cons_cons hk hpath
  have hprefix := isPrefix_walk_of_isChain hchain (length_le_of_isChain hno hlt hchain)
  refine hprefix.subset ?_
  rw [← hlast]
  exact List.getLast_mem _

/-- A search is a walk that is looked through. -/
theorem search_eq_find? (step : NodeId → Option NodeId) (p : NodeId → Bool) (fuel : Nat)
    (n : NodeId) : search step p fuel n = (walk step fuel n).find? p := by
  induction fuel generalizing n with
  | zero => rfl
  | succ fuel ih =>
      rw [search, walk]
      rcases step n with _ | k
      · rfl
      · simp only [List.find?_cons]
        by_cases hp : p k = true
        · simp only [hp, if_true]
        · simp only [hp, if_false, ih, Bool.false_eq_true]

theorem Chain.isChain {path : List NodeId} (h : Chain step n path) :
    (n :: path).IsChain (Follows step) := by
  induction h with
  | nil _ => exact List.IsChain.singleton _
  | cons hstep _ ih => exact List.IsChain.cons_cons hstep ih

/-- There is one whole chain only. -/
theorem Chain.unique {path path' : List NodeId} (h : Chain step n path) (h' : Chain step n path') :
    path = path' := by
  induction h generalizing path' with
  | nil hstep =>
      cases h' with
      | nil _ => rfl
      | cons hstep' _ =>
          rw [hstep] at hstep'
          cases hstep'
  | cons hstep _ ih =>
      cases h' with
      | nil hstep' =>
          rw [hstep] at hstep'
          cases hstep'
      | cons hstep' hrest =>
          rw [hstep, Option.some.injEq] at hstep'
          subst hstep'
          exact congrArg _ (ih hrest)

/-- A walk is a whole chain unless there is a path that is longer. -/
theorem chain_walk_or_path (step : NodeId → Option NodeId) (fuel : Nat) (n : NodeId) :
    Chain step n (walk step fuel n) ∨
      ∃ path, (n :: path).IsChain (Follows step) ∧ path.length = fuel + 1 := by
  induction fuel generalizing n with
  | zero =>
      rcases hstep : step n with _ | m
      · exact .inl (.nil hstep)
      · exact .inr ⟨[m], List.IsChain.cons_cons hstep (List.IsChain.singleton m), rfl⟩
  | succ fuel ih =>
      rw [walk]
      rcases hstep : step n with _ | m
      · exact .inl (.nil hstep)
      · rcases ih m with hchain | ⟨path, hpath, hlen⟩
        · exact .inl (.cons hstep hchain)
        · exact .inr ⟨m :: path, List.IsChain.cons_cons hstep hpath, by rw [List.length_cons, hlen]⟩

/-- Without a cycle a walk is a whole chain. -/
theorem chain_walk {size : Nat} (hno : NoCycle (Follows step))
    (hlt : ∀ a b, step a = some b → a < size) (n : NodeId) : Chain step n (walk step size n) := by
  rcases chain_walk_or_path step size n with hchain | ⟨path, hpath, hlen⟩
  · exact hchain
  · have hle := length_le_of_isChain hno hlt hpath
    omega

end Walk

variable {t : Tree} {n m : NodeId}

/-- Only nodes of the tree store links. -/
theorem lt_size_of_link {link : Cell → Option NodeId} (h : (t.cell? n).bind link = some m) :
    n < t.size := by
  rcases Option.bind_eq_some_iff.mp h with ⟨cell, hcell, _⟩
  exact (Array.getElem?_eq_some_iff.mp hcell).1

theorem lt_size_of_parent? (h : t.parent? n = some m) : n < t.size := lt_size_of_link h

theorem lt_size_of_next? (h : t.next? n = some m) : n < t.size := lt_size_of_link h

theorem lt_size_of_prev? (h : t.prev? n = some m) : n < t.size := lt_size_of_link h

theorem parent?_of_parentElement? (h : t.parentElement? n = some m) : t.parent? n = some m :=
  Option.eq_some_of_filter_eq_some h

theorem noCycle_parentElement (h : NoCycle (Follows t.parent?)) :
    NoCycle (Follows t.parentElement?) := by
  intro n hn
  exact h n (Relation.TransGen.mono (fun _ _ hstep => parent?_of_parentElement? hstep) n n hn)

/-- The element in front is the first element among the siblings in front. -/
theorem prevElement?_eq_find? (t : Tree) (n : NodeId) :
    t.prevElement? n = (t.precedingSiblings n).find? t.isElement := search_eq_find? _ _ _ _

theorem transGen_of_prevElement? (h : t.prevElement? n = some m) :
    Relation.TransGen (Follows t.prev?) n m := by
  rw [prevElement?_eq_find?] at h
  exact transGen_of_mem_walk (List.mem_of_find?_eq_some h)

theorem lt_size_of_prevElement? (h : t.prevElement? n = some m) : n < t.size := by
  rcases Relation.TransGen.head'_iff.mp (transGen_of_prevElement? h) with ⟨k, hk, _⟩
  exact lt_size_of_prev? hk

/-- The chain of elements above a node is all of it when parents form no cycle. -/
theorem chain_elementAncestors (ht : NoCycle (Follows t.parent?)) (n : NodeId) :
    Chain t.parentElement? n (t.elementAncestors n) :=
  chain_walk (noCycle_parentElement ht)
    (fun _ _ hstep => lt_size_of_parent? (parent?_of_parentElement? hstep)) n

namespace Acyclic

/-- Links that lead to smaller positions form no cycle. It is enough to look at
    the nodes of the tree, no other position storing a link. -/
theorem of_forall_lt (h : ∀ n < t.size, (∀ m ∈ t.parent? n, m < n) ∧ ∀ m ∈ t.prev? n, m < n) :
    t.Acyclic :=
  ⟨noCycle_of_rank id fun n m hm => (h n (lt_size_of_parent? hm)).1 m hm,
    noCycle_of_rank id fun n m hm => (h n (lt_size_of_prev? hm)).2 m hm⟩

theorem parentElement (h : t.Acyclic) : NoCycle (Follows t.parentElement?) :=
  noCycle_parentElement h.parent

theorem prevElement (h : t.Acyclic) : NoCycle (Follows t.prevElement?) := by
  intro n hn
  exact h.prev n
    (Relation.TransGen.lift' id (fun _ _ hstep => transGen_of_prevElement? hstep) n n hn)

theorem chain_ancestors (h : t.Acyclic) (n : NodeId) : Chain t.parent? n (t.ancestors n) :=
  chain_walk h.parent (fun _ _ => lt_size_of_parent?) n

theorem chain_precedingSiblings (h : t.Acyclic) (n : NodeId) :
    Chain t.prev? n (t.precedingSiblings n) :=
  chain_walk h.prev (fun _ _ => lt_size_of_prev?) n

theorem chain_precedingElements (h : t.Acyclic) (n : NodeId) :
    Chain t.prevElement? n (t.precedingElements n) :=
  chain_walk h.prevElement (fun _ _ => lt_size_of_prevElement?) n

theorem mem_elementAncestors_iff (h : t.Acyclic) :
    m ∈ t.elementAncestors n ↔ Relation.TransGen (Follows t.parentElement?) n m :=
  mem_walk_iff h.parentElement fun _ _ hstep => lt_size_of_parent? (parent?_of_parentElement? hstep)

theorem mem_precedingElements_iff (h : t.Acyclic) :
    m ∈ t.precedingElements n ↔ Relation.TransGen (Follows t.prevElement?) n m :=
  mem_walk_iff h.prevElement fun _ _ hstep => lt_size_of_prevElement? hstep

end Acyclic

end Tree

end DomQuery
