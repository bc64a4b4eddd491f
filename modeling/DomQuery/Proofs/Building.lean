import DomQuery.Proofs.Acyclic
import DomQuery.Proofs.Attach

/-!
# Building Without Restrictions

What is true of every tree that can be built, however it was built.

A forest comes about only where nodes without a place are attached. Nothing stops
a node that has a place from being attached once more, below itself if need be,
or a new node from being made its own parent, and what the links of such a tree
say may be contradictory. Two things are never lost. Every link leads to a node
that is there, and no node ever turns into another.

The first is what makes building safe. Attaching writes to the two nodes that it
was given and to a third one that it reads from a list of children, so a link
that leads nowhere would be enough to have it refused for nodes that are there.
With `Tree.InRange` as the invariant it is refused for unknown nodes only
(`Tree.InRange.appendChild?_eq_none_iff`), and whatever it writes is one of the
two numbers that it has checked, which keeps the invariant in turn.

The second needs no invariant. The contents of a tree are a list that an
operation leaves as it is, or makes longer by one.

## Main definitions

* `Operation`: One call that builds a tree, with what it is given.
* `Operation.content?`: The content of the node that it makes, if it makes one.
* `Tree.perform?`: An operation carried out, unless it is refused.
* `Tree.InRange`: Every link leads to a node of the tree.
* `Tree.contents`: What the nodes are, in the order of their positions.

## Theorems

* `Tree.InRange.attach`, `Tree.InRange.perform`: Links stay in range.
* `Tree.InRange.appendChild?_eq_none_iff`, `Tree.InRange.append?_eq_none_iff`: What is
  refused.
* `Tree.contents_perform`, `Tree.contents_run`: What one operation makes of the
  contents, and what any number of them does.
* `in_range_of_performed`: All of it for every tree that can be built.
-/

namespace DomQuery

/-- One call that builds a tree. -/
inductive Operation where
  | alloc (content : Content)
  | appendElement (parent : NodeId) (data : Element)
  | appendText (parent : NodeId) (text : String)
  | appendChild (parent child : NodeId)
  deriving DecidableEq

/-- The content of the node that an operation makes, if it makes one. -/
def Operation.content? : Operation → Option Content
  | alloc content => some content
  | appendElement _ data => some (.element data)
  | appendText _ text => some (.text text)
  | appendChild _ _ => none

namespace Tree

/-- The tree after an operation, unless that is refused. -/
def perform? (t : Tree) : Operation → Option Tree
  | .alloc content => some (t.alloc content).1
  | .appendElement parent data => (t.appendElement? parent data).map Prod.fst
  | .appendText parent text => (t.appendText? parent text).map Prod.fst
  | .appendChild parent child => t.appendChild? parent child

/-- What the nodes are, in the order of their positions. -/
def contents (t : Tree) : List Content := t.cells.toList.map Cell.content

/-- Every link leads to a node of the tree. -/
structure InRange (t : Tree) : Prop where
  parent : ∀ n m, t.parent? n = some m → m < t.size
  children : ∀ n, ∀ m ∈ t.children n, m < t.size
  next : ∀ n m, t.next? n = some m → m < t.size
  prev : ∀ n m, t.prev? n = some m → m < t.size

variable {t t' : Tree} {parent child n : NodeId}

/-- Appending is attaching the node that was made. -/
theorem append?_eq_map (t : Tree) (parent : NodeId) (content : Content) :
    t.append? parent content =
      ((t.alloc content).1.appendChild? parent t.size).map (·, t.size) := rfl

namespace InRange

theorem lastChild (h : t.InRange) : ∀ last ∈ t.lastChild? n, last < t.size :=
  fun last hlast => h.children n last (mem_children_of_lastChild? hlast)

/-- The document alone has no links. -/
theorem new : Tree.new.InRange := by
  refine ⟨fun n m h => ?_, fun n m h => ?_, fun n m h => ?_, fun n m h => ?_⟩ <;>
    cases n <;> cases h

/-- A new node has no links either. -/
theorem alloc (h : t.InRange) (content : Content) : (t.alloc content).1.InRange := by
  have hlt : ∀ m < t.size, m < (t.alloc content).1.size := fun m hm => by
    rw [size_alloc]
    exact Nat.lt_succ_of_lt hm
  refine ⟨fun n m hm => hlt m (h.parent n m ?_), fun n m hm => hlt m (h.children n m ?_),
    fun n m hm => hlt m (h.next n m ?_), fun n m hm => hlt m (h.prev n m ?_)⟩
  · rwa [parent?_alloc] at hm
  · rwa [children_alloc] at hm
  · rwa [next?_alloc] at hm
  · rwa [prev?_alloc] at hm

/-- Whatever attaching writes is one of the nodes that it is given, or the one that
    was the last child before. -/
theorem attach (h : t.InRange) (hparent : parent < t.size) (hchild : child < t.size) :
    (t.attach parent child).InRange := by
  refine ⟨fun n m hm => ?_, fun n m hm => ?_, fun n m hm => ?_, fun n m hm => ?_⟩
  · rw [parent?_attach hchild] at hm
    rw [size_attach]
    split at hm
    · rw [← Option.some.inj hm]
      exact hparent
    · exact h.parent n m hm
  · rw [children_attach hparent] at hm
    rw [size_attach]
    split at hm
    · rcases List.mem_append.mp hm with hold | hnew
      · exact h.children n m hold
      · rw [List.mem_singleton.mp hnew]
        exact hchild
    · exact h.children n m hm
  · rw [next?_attach h.lastChild] at hm
    rw [size_attach]
    split at hm
    · rw [← Option.some.inj hm]
      exact hchild
    · exact h.next n m hm
  · -- In front of the child comes the one that was read from the list of children.
    rw [prev?_attach hchild] at hm
    rw [size_attach]
    split at hm
    · rcases Option.or_eq_some_iff.mp hm with hlast | ⟨_, hold⟩
      · exact h.lastChild m hlast
      · exact h.prev n m hold
    · exact h.prev n m hm

theorem canAttach_iff (h : t.InRange) :
    t.canAttach parent child = true ↔ parent < t.size ∧ child < t.size := by
  have hlast : (t.lastChild? parent).all (· < t.size) = true := by
    rw [Option.all_eq_true]
    exact fun last hl => decide_eq_true (h.lastChild last hl)
  rw [canAttach, hlast, Bool.and_true, Bool.and_eq_true, decide_eq_true_eq, decide_eq_true_eq]

/-- Attaching is refused for nodes that are not there, and for no others. -/
theorem appendChild?_eq_none_iff (h : t.InRange) :
    t.appendChild? parent child = none ↔ t.size ≤ parent ∨ t.size ≤ child := by
  rw [appendChild?, ite_eq_right_iff, h.canAttach_iff]
  simp only [reduceCtorEq, imp_false, not_and_or, Nat.not_lt]

/-- A new node is there when it is attached, so one parent more is known. -/
theorem append?_eq_none_iff (h : t.InRange) (content : Content) :
    t.append? parent content = none ↔ t.size + 1 ≤ parent := by
  have hattach : (t.alloc content).1.appendChild? parent t.size = none ↔ t.size + 1 ≤ parent := by
    rw [(h.alloc content).appendChild?_eq_none_iff, size_alloc]
    omega
  rw [append?_eq_map, Option.map_eq_none_iff, hattach]

end InRange

/-- What attaching comes to where it is not refused. -/
theorem eq_attach_of_appendChild? (h : t.appendChild? parent child = some t') :
    parent < t.size ∧ child < t.size ∧ t' = t.attach parent child := by
  rw [appendChild?] at h
  split at h
  · next hcan =>
    simp only [canAttach, Bool.and_eq_true, decide_eq_true_eq] at hcan
    exact ⟨hcan.1.1, hcan.1.2, (Option.some.inj h).symm⟩
  · cases h

/-- What appending comes to where it is not refused. -/
theorem eq_add_of_append? {content : Content}
    (h : (t.append? parent content).map Prod.fst = some t') :
    parent < t.size + 1 ∧ t' = (t.add parent content).1 := by
  rw [append?_eq_map, Option.map_map, Option.map_eq_some_iff] at h
  rcases h with ⟨t'', hattach, rfl⟩
  rcases eq_attach_of_appendChild? hattach with ⟨hparent, _, rfl⟩
  rw [size_alloc] at hparent
  exact ⟨hparent, rfl⟩

theorem InRange.add (h : t.InRange) (hparent : parent < t.size + 1) (content : Content) :
    (t.add parent content).1.InRange := by
  rw [← size_alloc t content] at hparent
  refine (h.alloc content).attach hparent ?_
  rw [size_alloc]
  exact Nat.lt_succ_self t.size

theorem InRange.append {content : Content} (h : t.InRange)
    (happend : (t.append? parent content).map Prod.fst = some t') : t'.InRange := by
  rcases eq_add_of_append? happend with ⟨hparent, rfl⟩
  exact h.add hparent content

theorem contents_alloc (content : Content) :
    (t.alloc content).1.contents = t.contents ++ [content] := by
  simp only [contents, alloc, Array.toList_push, List.map_append, List.map_cons, List.map_nil]

theorem getElem?_contents (t : Tree) (n : NodeId) : t.contents[n]? = t.content? n := by
  rw [contents, List.getElem?_map, Array.getElem?_toList]
  rfl

theorem contents_attach : (t.attach parent child).contents = t.contents := by
  refine List.ext_getElem? fun n => ?_
  rw [getElem?_contents, getElem?_contents, content?_attach]

theorem contents_add (parent : NodeId) (content : Content) :
    (t.add parent content).1.contents = t.contents ++ [content] := by
  rw [add, contents_attach, contents_alloc]

theorem contents_append {content : Content}
    (h : (t.append? parent content).map Prod.fst = some t') :
    t'.contents = t.contents ++ [content] := by
  rcases eq_add_of_append? h with ⟨_, rfl⟩
  exact contents_add parent content

theorem length_contents (t : Tree) : t.contents.length = t.size := by
  rw [contents, List.length_map, Array.length_toList]
  rfl

/-- An operation that is not refused keeps every link in range. -/
theorem InRange.perform {op : Operation} (h : t.InRange) (hop : t.perform? op = some t') :
    t'.InRange := by
  cases op with
  | alloc content =>
      cases hop
      exact h.alloc content
  | appendElement parent data => exact h.append hop
  | appendText parent text => exact h.append hop
  | appendChild parent child =>
      rcases eq_attach_of_appendChild? hop with ⟨hparent, hchild, rfl⟩
      exact h.attach hparent hchild

/-- An operation makes the contents longer by the node that it makes, and does
    nothing else to them. -/
theorem contents_perform {op : Operation} (hop : t.perform? op = some t') :
    t'.contents = t.contents ++ op.content?.toList := by
  cases op with
  | alloc content =>
      cases hop
      exact contents_alloc content
  | appendElement parent data => exact contents_append hop
  | appendText parent text => exact contents_append hop
  | appendChild parent child =>
      rcases eq_attach_of_appendChild? hop with ⟨_, _, rfl⟩
      rw [contents_attach, Operation.content?, Option.toList_none, List.append_nil]

/-- Any number of operations keep every link in range. -/
theorem InRange.run {ops : List Operation} (h : t.InRange)
    (hops : ops.foldlM perform? t = some t') : t'.InRange := by
  -- Each operation is carried out on what the ones before it left, so the tree varies.
  induction ops generalizing t with
  | nil =>
      cases hops
      exact h
  | cons op ops ih =>
      rcases Option.bind_eq_some_iff.mp hops with ⟨t₁, hop, hrest⟩
      exact ih (h.perform hop) hrest

theorem contents_run {ops : List Operation} (hops : ops.foldlM perform? t = some t') :
    t'.contents = t.contents ++ ops.filterMap Operation.content? := by
  induction ops generalizing t with
  | nil =>
      cases hops
      rw [List.filterMap_nil, List.append_nil]
  | cons op ops ih =>
      rcases Option.bind_eq_some_iff.mp hops with ⟨t₁, hop, hrest⟩
      rw [ih hrest, contents_perform hop, List.append_assoc, List.filterMap_cons]
      rcases op.content? with _ | content
      · rfl
      · rfl

end Tree

/-- Every tree that can be built, by any operations in any order as long as none is
    refused. Its links lead to nodes that are there; attaching and appending are
    refused for unknown nodes only, where the new node counts as known; an operation
    makes the tree larger by the node that it makes, and changes no content; and the
    contents are the document and what was made, in this order. -/
theorem in_range_of_performed {ops : List Operation} {t : Tree}
    (ht : ops.foldlM Tree.perform? .new = some t) :
    (∀ n m, t.parent? n = some m ∨ m ∈ t.children n ∨ t.next? n = some m ∨ t.prev? n = some m →
      m < t.size) ∧
    (∀ p c, t.appendChild? p c = none ↔ t.size ≤ p ∨ t.size ≤ c) ∧
    (∀ p data, t.appendElement? p data = none ↔ t.size + 1 ≤ p) ∧
    (∀ p text, t.appendText? p text = none ↔ t.size + 1 ≤ p) ∧
    (∀ op t', t.perform? op = some t' →
      t'.size = t.size + (if op.content?.isSome then 1 else 0) ∧
      ∀ n < t.size, t'.content? n = t.content? n) ∧
    t.contents = .document :: ops.filterMap Operation.content? := by
  have h : t.InRange := Tree.InRange.new.run ht
  refine ⟨?_, fun p c => h.appendChild?_eq_none_iff, fun p data => h.append?_eq_none_iff _,
    fun p text => h.append?_eq_none_iff _, fun op t' hop => ⟨?_, fun n hn => ?_⟩,
    Tree.contents_run ht⟩
  · rintro n m (hparent | hchild | hnext | hprev)
    · exact h.parent n m hparent
    · exact h.children n m hchild
    · exact h.next n m hnext
    · exact h.prev n m hprev
  · rw [← t'.length_contents, Tree.contents_perform hop, List.length_append, t.length_contents]
    rcases op.content? with _ | content
    · rfl
    · rfl
  · rw [← t'.getElem?_contents, Tree.contents_perform hop, ← t.getElem?_contents,
      List.getElem?_append_left (by rw [t.length_contents]; exact hn)]

/-- The element `b` is made its own parent, and it and `a` are made children of each
    other, `b` twice. -/
def cyclicBuild : List Operation :=
  [.appendElement 0 { tag := "a" }, .appendElement 2 { tag := "b" }, .appendChild 1 2,
    .appendText 1 ".", .appendChild 2 1, .appendChild 1 2]

/-- What comes out of it. -/
def cyclicTree : Tree :=
  let a : Tree := (Tree.new.add 0 (.element { tag := "a" })).1
  let b : Tree := (a.add 2 (.element { tag := "b" })).1
  (((b.attach 1 2).add 1 (.text ".")).1.attach 2 1).attach 1 2

theorem cyclicBuild_performed : cyclicBuild.foldlM Tree.perform? .new = some cyclicTree := by decide

/-- Where links contradict one another, only unknown nodes are refused all the same. -/
theorem cyclicTree_refuses : cyclicBuild.foldlM Tree.perform? .new = some cyclicTree ∧
    cyclicTree.children 1 = [2, 3, 2] ∧ cyclicTree.children 2 = [2, 1] ∧
    cyclicTree.appendChild? 2 4 = none ∧ cyclicTree.appendText? 4 "," ≠ none ∧
    cyclicTree.appendText? 5 "," = none :=
  have h := in_range_of_performed cyclicBuild_performed
  ⟨cyclicBuild_performed, by decide, by decide, (h.2.1 2 4).mpr (by decide),
    mt (h.2.2.2.1 4 ",").mp (by decide), (h.2.2.2.1 5 ",").mpr (by decide)⟩

end DomQuery
