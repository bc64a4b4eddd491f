import DomQuery.Proofs.Forest
import Mathlib.Data.List.Flatten
import Mathlib.Data.List.Nodup

/-!
# Subtrees

What is below the nodes of a forest, and what becomes of it when a node is
attached.

Two nodes of a forest that have a third one below them lie one below the other,
since the way up from the third is the only one. So the children of a node have
nothing in common below them, and a traversal, which goes through one child
after the other, meets no node twice.

Attaching adds one step down, from the parent to the child. A path that takes
it ends in the subtree of the child, and a path that ends elsewhere was there
before. In the other direction nothing is lost: every list of children is still
there in its order, and with it everything below a node in its order.

## Theorems

* `Tree.Forest.comparable`: Nodes above the same node lie one below the other.
* `Tree.Forest.nodup_descendants`: A traversal meets no node twice.
* `Tree.hasChild_attach`: Attaching adds one step down.
* `Tree.transGen_of_attach`: Outside of the subtree of the node attached, nothing
  comes to be below another node.
* `Tree.reflTransGen_attach_iff`: The subtree of the node attached stays the same.
* `Tree.Forest.descendants_sublist_attach`: What is below a node stays there in its
  order.
-/

namespace DomQuery

namespace Tree

variable {t t' : Tree} {parent child a b m n p : NodeId}

theorem transGen_of_mem_preorder {depth : Nat} (h : m ∈ t.preorder depth n) :
    Relation.TransGen t.HasChild n m := by
  induction depth generalizing n with
  | zero => exact absurd h List.not_mem_nil
  | succ depth ih =>
      rw [preorder] at h
      rcases List.mem_flatMap.mp h with ⟨c, hc, hm⟩
      rcases List.mem_cons.mp hm with rfl | hm
      · exact .single hc
      · exact .head hc (ih hm)

namespace Forest

/-- A step up along a link is a step down in a list taken back. -/
theorem follows_parent?_eq (h : t.Forest) : Follows t.parent? = Function.swap t.HasChild := by
  funext c p
  exact propext (h.mem_children_iff p c).symm

theorem noCycle_hasChild (h : t.Forest) : NoCycle t.HasChild := by
  intro n hn
  refine h.noCycle_parent n ?_
  rwa [h.follows_parent?_eq, Relation.transGen_swap]

/-- What has a node below it, and is not that node, has its parent below it. -/
theorem reflTransGen_parent (h : t.Forest) (hab : Relation.ReflTransGen t.HasChild a b)
    (hne : a ≠ b) (hp : t.parent? b = some p) : Relation.ReflTransGen t.HasChild a p := by
  rcases Relation.ReflTransGen.cases_tail hab with heq | ⟨q, haq, hqb⟩
  · exact absurd heq.symm hne
  · have hq : t.parent? b = some q := (h.mem_children_iff q b).mp hqb
    rw [hp, Option.some.injEq] at hq
    rwa [hq]

/-- Of two nodes that have the same node below them, one has the other below it. -/
theorem comparable (h : t.Forest) (ha : Relation.ReflTransGen t.HasChild a m)
    (hb : Relation.ReflTransGen t.HasChild b m) :
    Relation.ReflTransGen t.HasChild a b ∨ Relation.ReflTransGen t.HasChild b a := by
  have hunique : Relator.RightUnique (Function.swap t.HasChild) := by
    intro c p q hp hq
    have hparents := (h.mem_children_iff p c).mp hp
    rw [(h.mem_children_iff q c).mp hq, Option.some.injEq] at hparents
    exact hparents.symm
  -- The way up from the common node passes one of the two first.
  have htotal := Relation.ReflTransGen.total_of_right_unique hunique
    (Relation.reflTransGen_swap.mpr ha) (Relation.reflTransGen_swap.mpr hb)
  exact (htotal.imp Relation.reflTransGen_swap.mp Relation.reflTransGen_swap.mp).symm

/-- A child of a node is not below another one. -/
theorem eq_of_child_below_child (h : t.Forest) (ha : t.HasChild n a) (hb : t.HasChild n b)
    (hab : Relation.ReflTransGen t.HasChild a b) : a = b := by
  by_contra hne
  have hup := h.reflTransGen_parent hab hne ((h.mem_children_iff n b).mp hb)
  exact h.noCycle_hasChild n (.head' ha hup)

/-- Two children of a node have nothing in common below them. -/
theorem eq_of_common_below (h : t.Forest) (ha : t.HasChild n a) (hb : t.HasChild n b)
    (ham : Relation.ReflTransGen t.HasChild a m) (hbm : Relation.ReflTransGen t.HasChild b m) :
    a = b := by
  rcases h.comparable ham hbm with hab | hba
  · exact h.eq_of_child_below_child ha hb hab
  · exact (h.eq_of_child_below_child hb ha hba).symm

theorem nodup_preorder (h : t.Forest) (depth : Nat) (n : NodeId) :
    (t.preorder depth n).Nodup := by
  induction depth generalizing n with
  | zero => exact List.nodup_nil
  | succ depth ih =>
      have hbelow : ∀ {c m : NodeId}, m ∈ c :: t.preorder depth c →
          Relation.ReflTransGen t.HasChild c m := by
        intro c m hm
        rcases List.mem_cons.mp hm with rfl | hm
        · exact .refl
        · exact (transGen_of_mem_preorder hm).to_reflTransGen
      rw [preorder, List.nodup_flatMap]
      refine ⟨fun c _ => List.nodup_cons.mpr ⟨fun hc => ?_, ih c⟩, ?_⟩
      · exact h.noCycle_hasChild c (transGen_of_mem_preorder hc)
      · refine List.Pairwise.imp_of_mem (fun {c d} hc hd hcd => ?_) (h.nodup_children n)
        intro m hcm hdm
        exact hcd (h.eq_of_common_below hc hd (hbelow hcm) (hbelow hdm))

/-- A traversal of a forest meets no node twice. -/
theorem nodup_descendants (h : t.Forest) (n : NodeId) : (t.descendants n).Nodup := by
  rw [descendants_eq_preorder h.noCycle_hasChild]
  exact h.nodup_preorder t.size n

end Forest

/-- Where every node keeps its children in their order, everything below a node
    keeps its order. -/
theorem preorder_sublist (h : ∀ n, (t.children n).Sublist (t'.children n)) (depth : Nat)
    (n : NodeId) : (t.preorder depth n).Sublist (t'.preorder depth n) := by
  induction depth generalizing n with
  | zero => exact List.Sublist.refl []
  | succ depth ih =>
      rw [preorder, preorder]
      exact ((h n).flatMap _).trans (List.Sublist.flatMap_right _ fun c _ => (ih c).cons_cons c)

section Attach

variable (hparent : parent < t.size)

include hparent

/-- Attaching adds one step down. -/
theorem hasChild_attach :
    (t.attach parent child).HasChild n m ↔ t.HasChild n m ∨ n = parent ∧ m = child := by
  rw [HasChild, HasChild, children_attach hparent]
  by_cases hn : n = parent
  · rw [if_pos hn, List.mem_append, List.mem_singleton, and_iff_right hn]
  · rw [if_neg hn, or_iff_left fun h => hn h.1]

/-- What is outside of the subtree of the node attached is below no node that it
    was not below before. -/
theorem transGen_of_attach (hab : Relation.TransGen (t.attach parent child).HasChild a b)
    (houtside : ¬ Relation.ReflTransGen t.HasChild child b) : Relation.TransGen t.HasChild a b := by
  induction hab with
  | single hstep =>
      rcases (hasChild_attach hparent).mp hstep with hold | ⟨_, rfl⟩
      · exact .single hold
      · exact absurd .refl houtside
  | tail _ hstep ih =>
      rcases (hasChild_attach hparent).mp hstep with hold | ⟨_, rfl⟩
      · exact (ih fun hbelow => houtside (hbelow.tail hold)).tail hold
      · exact absurd .refl houtside

/-- The subtree of the node attached stays the same, the parent not being in it. -/
theorem reflTransGen_attach_iff (hbelow : ¬ Relation.ReflTransGen t.HasChild child parent) :
    Relation.ReflTransGen (t.attach parent child).HasChild child n ↔
      Relation.ReflTransGen t.HasChild child n := by
  constructor
  · intro h
    induction h with
    | refl => exact .refl
    | tail _ hstep ih =>
        rcases (hasChild_attach hparent).mp hstep with hold | ⟨rfl, _⟩
        · exact ih.tail hold
        · exact absurd ih hbelow
  · exact Relation.ReflTransGen.mono (fun _ _ hold => (hasChild_attach hparent).mpr (.inl hold)) _ _

/-- What is below a node of a forest stays there in its order. -/
theorem Forest.descendants_sublist_attach (h : t.Forest) (h' : (t.attach parent child).Forest)
    (n : NodeId) : (t.descendants n).Sublist ((t.attach parent child).descendants n) := by
  rw [descendants_eq_preorder h.noCycle_hasChild, descendants_eq_preorder h'.noCycle_hasChild,
    size_attach]
  refine preorder_sublist (fun m => ?_) t.size n
  rw [children_attach hparent]
  by_cases hm : m = parent
  · rw [if_pos hm]
    exact List.sublist_append_left _ _
  · rw [if_neg hm]

end Attach

end Tree

end DomQuery
