import DomQuery.Tree.Basic

/-!
# What Attaching Changes

The links of every node before and after a node is made the last child of
another.

Attaching writes to three nodes, one after the other and to the one attached
twice, and any two of them may be the same. `Tree.cell?_attach` says once, for
all nodes and without conditions, what comes out: each of the four links of a
node is either what it was or the one value that attaching puts there. What a
single link reads as afterwards follows from it, under the condition that the
node written to is there, and nothing further on looks into the writing itself.

A new node changes no link at all. Before it was there its links read as
missing, and that is how they read afterwards.

## Theorems

* `Tree.cell?_update`, `Tree.cell?_alloc`, `Tree.cell?_attach`: A node after a
  change to one node, a new node, and attaching.
* `Tree.children_alloc`, `Tree.parent?_alloc`, `Tree.next?_alloc`,
  `Tree.prev?_alloc`: A new node changes no link.
* `Tree.content?_attach`, `Tree.children_attach`, `Tree.parent?_attach`,
  `Tree.next?_attach`, `Tree.prev?_attach`: The links after attaching.
* `Tree.size_add`, `Tree.content?_add`, `Tree.children_add`: A new node as the
  last child of another.
-/

namespace DomQuery

namespace Tree

variable (t : Tree) (n m : NodeId)

theorem cell?_update (f : Cell → Cell) :
    (t.update n f).cell? m = (t.cell? m).map fun cell => if m = n then f cell else cell := by
  simp only [cell?, update, Array.getElem?_modify]
  by_cases hmn : m = n
  · simp only [hmn, if_true]
  · rw [if_neg fun heq => hmn heq.symm]
    simp only [hmn, if_false, Option.map_id']

theorem size_update (f : Cell → Cell) : (t.update n f).size = t.size := Array.size_modify

theorem cell?_size : t.cell? t.size = none := Array.getElem?_eq_none (Nat.le_refl _)

theorem cell?_join (left right : NodeId) :
    (t.join left right).cell? m = (t.cell? m).map fun cell =>
      { cell with
        next := if m = left then some right else cell.next
        prev := if m = right then some left else cell.prev } := by
  simp only [join, cell?_update, Option.map_map]
  congr 1
  funext cell
  by_cases hl : m = left
  · by_cases hr : m = right
    · simp only [Function.comp_apply, if_pos hl, if_pos hr]
    · simp only [Function.comp_apply, if_pos hl, if_neg hr]
  · by_cases hr : m = right
    · simp only [Function.comp_apply, if_neg hl, if_pos hr]
    · simp only [Function.comp_apply, if_neg hl, if_neg hr]

/-- The first two writes set the two links between parent and child. -/
theorem cell?_place (parent child : NodeId) :
    ((t.update parent fun cell => { cell with children := cell.children.push child }).update child
      ({ · with parent := some parent })).cell? m = (t.cell? m).map fun cell =>
        { cell with
          parent := if m = child then some parent else cell.parent
          children := if m = parent then cell.children.push child else cell.children } := by
  simp only [cell?_update, Option.map_map]
  congr 1
  funext cell
  by_cases hp : m = parent
  · by_cases hc : m = child
    · simp only [Function.comp_apply, if_pos hp, if_pos hc]
    · simp only [Function.comp_apply, if_pos hp, if_neg hc]
  · by_cases hc : m = child
    · simp only [Function.comp_apply, if_neg hp, if_pos hc]
    · simp only [Function.comp_apply, if_neg hp, if_neg hc]

/-- What attaching makes of each node. -/
theorem cell?_attach (parent child : NodeId) :
    (t.attach parent child).cell? m = (t.cell? m).map fun cell =>
      { content := cell.content
        parent := if m = child then some parent else cell.parent
        children := if m = parent then cell.children.push child else cell.children
        next := if t.lastChild? parent = some m then some child else cell.next
        prev := if m = child then (t.lastChild? parent).or cell.prev else cell.prev } := by
  unfold attach
  rcases hlast : t.lastChild? parent with _ | last
  · simp only [cell?_place, reduceCtorEq, if_false, Option.none_or, ite_self]
  · simp only [cell?_join, cell?_place, Option.map_map, Option.some.injEq, Option.some_or]
    congr 1
    funext cell
    simp only [Function.comp_apply, eq_comm]

section Alloc

variable (content : Content)

theorem size_alloc : (t.alloc content).1.size = t.size + 1 := Array.size_push _

theorem cell?_alloc :
    (t.alloc content).1.cell? m = if m = t.size then some { content } else t.cell? m :=
  Array.getElem?_push

theorem content?_alloc :
    (t.alloc content).1.content? m = if m = t.size then some content else t.content? m := by
  rw [content?, cell?_alloc]
  by_cases hm : m = t.size
  · rw [if_pos hm, if_pos hm]
    rfl
  · rw [if_neg hm, if_neg hm]
    rfl

/-- A link that a node does not have yet reads the same as if the node were not
    there. -/
theorem link_alloc (link : Cell → Option NodeId) (hlink : link { content } = none) :
    ((t.alloc content).1.cell? m).bind link = (t.cell? m).bind link := by
  rw [cell?_alloc]
  by_cases hm : m = t.size
  · rw [if_pos hm, hm, cell?_size, Option.bind_some, hlink, Option.bind_none]
  · rw [if_neg hm]

theorem children_alloc : (t.alloc content).1.children m = t.children m := by
  rw [children, children, cell?_alloc]
  by_cases hm : m = t.size
  · rw [if_pos hm, hm, cell?_size]
  · rw [if_neg hm]

theorem parent?_alloc : (t.alloc content).1.parent? m = t.parent? m :=
  link_alloc t m content Cell.parent rfl

theorem next?_alloc : (t.alloc content).1.next? m = t.next? m :=
  link_alloc t m content Cell.next rfl

theorem prev?_alloc : (t.alloc content).1.prev? m = t.prev? m :=
  link_alloc t m content Cell.prev rfl

end Alloc

variable {t n m}

theorem ne_of_cell?_eq_none (hn : n < t.size) (hm : t.cell? m = none) : m ≠ n := by
  rintro rfl
  exact Nat.not_le_of_lt hn (Array.getElem?_eq_none_iff.mp hm)

/-- What is no node has no children. -/
theorem children_eq_nil (hn : t.size ≤ n) : t.children n = [] := by
  have hmissing : t.cell? n = none := Array.getElem?_eq_none hn
  rw [children, hmissing]

theorem lastChild?_eq_getLast? : t.lastChild? n = (t.children n).getLast? := by
  rw [lastChild?, children]
  rcases t.cell? n with _ | cell
  · rfl
  · exact (Array.getLast?_toList cell.children).symm

theorem mem_children_of_lastChild? (h : t.lastChild? n = some m) : m ∈ t.children n := by
  rw [lastChild?_eq_getLast?] at h
  exact List.mem_of_getLast? h

section Attach

variable {parent child : NodeId}

theorem size_attach : (t.attach parent child).size = t.size := by
  rw [attach]
  rcases t.lastChild? parent with _ | last
  · simp only [size_update]
  · simp only [join, size_update]

theorem content?_attach : (t.attach parent child).content? m = t.content? m := by
  rw [content?, content?, cell?_attach, Option.map_map]
  rfl

theorem children_attach (hparent : parent < t.size) :
    (t.attach parent child).children m =
      if m = parent then t.children m ++ [child] else t.children m := by
  rw [children, children, cell?_attach]
  rcases hcell : t.cell? m with _ | cell
  · rw [if_neg (ne_of_cell?_eq_none hparent hcell)]
    rfl
  · simp only [Option.map_some]
    by_cases hm : m = parent
    · rw [if_pos hm, if_pos hm, Array.toList_push]
    · rw [if_neg hm, if_neg hm]

theorem parent?_attach (hchild : child < t.size) :
    (t.attach parent child).parent? m = if m = child then some parent else t.parent? m := by
  rw [parent?, parent?, cell?_attach]
  rcases hcell : t.cell? m with _ | cell
  · rw [if_neg (ne_of_cell?_eq_none hchild hcell)]
    rfl
  · rfl

theorem next?_attach (hlast : ∀ last ∈ t.lastChild? parent, last < t.size) :
    (t.attach parent child).next? m =
      if t.lastChild? parent = some m then some child else t.next? m := by
  rw [next?, next?, cell?_attach]
  rcases hcell : t.cell? m with _ | cell
  · have hne : t.lastChild? parent ≠ some m := fun hm =>
      ne_of_cell?_eq_none (hlast m hm) hcell rfl
    rw [if_neg hne]
    rfl
  · rfl

theorem prev?_attach (hchild : child < t.size) :
    (t.attach parent child).prev? m =
      if m = child then (t.lastChild? parent).or (t.prev? m) else t.prev? m := by
  rw [prev?, prev?, cell?_attach]
  rcases hcell : t.cell? m with _ | cell
  · rw [if_neg (ne_of_cell?_eq_none hchild hcell)]
    rfl
  · rfl

end Attach

section Add

variable {parent : NodeId} (content : Content)

theorem size_add : (t.add parent content).1.size = t.size + 1 := by
  rw [add, size_attach, size_alloc]

theorem content?_add : (t.add parent content).1.content? m =
    if m = t.size then some content else t.content? m := by
  rw [add, content?_attach, content?_alloc]

theorem children_add (hparent : parent < t.size) : (t.add parent content).1.children m =
    if m = parent then t.children m ++ [t.size] else t.children m := by
  have hin : parent < (t.alloc content).1.size := size_alloc t content ▸ Nat.lt_succ_of_lt hparent
  rw [add, children_attach hin, children_alloc]
  rfl

end Add

end Tree

end DomQuery
