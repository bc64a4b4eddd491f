import DomQuery.Document.Basic
import DomQuery.Proofs.Attach
import DomQuery.Proofs.Traversal

/-!
# The Layout of a Document

Where the items of a document are in its tree.

A new node takes the next position, and an element is appended before the items
inside it. So an item with everything inside it takes consecutive positions, its
own first, and the items of a list lie one behind the other. That fixes all
positions beforehand: `Item.positions` says where the items of a list are that
starts at a given position, and `Item.HeldFrom` says that they are there, with
their content and with the right children.

Appending items to a node of any tree puts them behind what is there and changes
nothing else, the children of the one node apart (`Item.Appended`). The
statement is about all trees because the recursion needs it: the items inside an
element are appended to a tree that is still growing. What was appended earlier
stays in place, since only the node appended to and new ones change.

A list of items is at the same time a sequence and, in its elements, a sequence
of sequences. The induction follows the first item of a list, going once into
what is inside of it and once on to what is behind it.

## Main definitions

* `Item.count`, `Item.countAll`: The number of nodes.
* `Item.positions`: The positions of items that lie one behind the other.
* `Item.HeldAt`, `Item.HeldFrom`: A tree holds items from a position on.
* `Item.HeldBelow`: The items below a node are these.
* `Item.Appended`: A tree is another one with items appended to a node.
* `ofTree?`: The items of a tree, read from the document through children.

## Theorems

* `Item.induction`: Into the first item and on to the others.
* `Item.appended_addAll`: What appending does.
* `Item.exists_heldBelow_toTree`: Below every node there are some items.
* `Item.HeldFrom.traverses`: Positions are in document order.
* `ofTree?_toTree`: A tree reads back as the items it was made of.
-/

namespace DomQuery

namespace Document

mutual

/-- The number of nodes of an item. -/
def Item.count : Item → Nat
  | .text _ => 1
  | .element _ children => Item.countAll children + 1

/-- The number of nodes of a list of items. -/
def Item.countAll : List Item → Nat
  | [] => 0
  | item :: items => item.count + Item.countAll items

end

/-- The items of a node, read to a depth. -/
def itemAt? (t : Tree) : Nat → NodeId → Option Item
  | 0, _ => none
  | depth + 1, n =>
    match t.content? n with
    | some (.text s) => some (.text s)
    | some (.element data) => ((t.children n).mapM (itemAt? t depth)).map (.element data)
    | _ => none

/-- The items of a tree, read from the document through children. -/
def ofTree? (t : Tree) : Option (List Item) := (t.children Tree.root).mapM (itemAt? t t.size)

namespace Item

/-- The positions of items that lie one behind the other. -/
def positions (start : NodeId) : List Item → List NodeId
  | [] => []
  | item :: items => start :: positions (start + item.count) items

mutual

/-- The tree holds the item with its own node at a position. -/
def HeldAt (t : Tree) (n : NodeId) : Item → Prop
  | .text s => t.content? n = some (.text s) ∧ t.children n = []
  | .element data children =>
    t.content? n = some (.element data) ∧ t.children n = positions (n + 1) children ∧
      HeldFrom t (n + 1) children

/-- The tree holds the items from a position on. -/
def HeldFrom (t : Tree) (start : NodeId) : List Item → Prop
  | [] => True
  | item :: items => HeldAt t start item ∧ HeldFrom t (start + item.count) items

end

/-- The items below a node are these, and they lie behind it. -/
structure HeldBelow (t : Tree) (n : NodeId) (items : List Item) : Prop where
  children_eq : t.children n = positions (n + 1) items
  held : HeldFrom t (n + 1) items

/-- The second tree is the first one with the items appended to a node. -/
structure Appended (t : Tree) (parent : NodeId) (items : List Item) (t' : Tree) : Prop where
  size_eq : t'.size = t.size + countAll items
  content_eq : ∀ m < t.size, t'.content? m = t.content? m
  children_eq : ∀ m < t.size, t'.children m =
    if m = parent then t.children m ++ positions t.size items else t.children m
  held : HeldFrom t' t.size items

/-- What holds of a list of items when it holds of the items inside the first one
    and of those behind it holds of all lists. -/
@[elab_as_elim]
theorem induction {motive : List Item → Prop} (nil : motive [])
    (text : ∀ s items, motive items → motive (.text s :: items))
    (element : ∀ data children items, motive children → motive items →
      motive (.element data children :: items)) : ∀ items, motive items
  | [] => nil
  | .text s :: items => text s items (induction nil text element items)
  | .element data children :: items =>
    element data children items (induction nil text element children)
      (induction nil text element items)

variable {t t' t'' : Tree} {parent n m start : Nat} {item : Item} {items : List Item}

theorem le_of_mem_positions (h : m ∈ positions start items) : start ≤ m := by
  induction items generalizing start with
  | nil => exact absurd h List.not_mem_nil
  | cons item items ih =>
      rcases List.mem_cons.mp h with rfl | h
      · exact Nat.le_refl _
      · exact Nat.le_trans (Nat.le_add_right start item.count) (ih h)

/-- What holds some items keeps holding them as long as their nodes do not change. -/
theorem HeldFrom.congr (h : HeldFrom t start items)
    (hsame : ∀ m, start ≤ m → m < start + countAll items →
      t'.content? m = t.content? m ∧ t'.children m = t.children m) : HeldFrom t' start items := by
  induction items using Item.induction generalizing start with
  | nil => trivial
  | text s items ih =>
      rw [countAll, count] at hsame
      rcases h with ⟨⟨hcontent, hchildren⟩, hrest⟩
      rcases hsame start (Nat.le_refl _) (by omega) with ⟨hcontent', hchildren'⟩
      refine ⟨⟨by rw [hcontent', hcontent], by rw [hchildren', hchildren]⟩, ih hrest ?_⟩
      intro m hlo hhi
      rw [count] at hlo hhi
      exact hsame m (by omega) (by omega)
  | element data children items ihchildren ih =>
      rw [countAll, count] at hsame
      rcases h with ⟨⟨hcontent, hchildren, hinside⟩, hrest⟩
      rcases hsame start (Nat.le_refl _) (by omega) with ⟨hcontent', hchildren'⟩
      refine ⟨⟨by rw [hcontent', hcontent], by rw [hchildren', hchildren], ihchildren hinside ?_⟩,
        ih hrest ?_⟩
      · intro m hlo hhi
        exact hsame m (by omega) (by omega)
      · intro m hlo hhi
        rw [count] at hlo hhi
        exact hsame m (by omega) (by omega)

/-! ### Appending -/

/-- Appending a list is appending its first item and then the others. -/
theorem Appended.cons (hparent : parent < t.size) (h : Appended t parent [item] t')
    (hrest : Appended t' parent items t'') : Appended t parent (item :: items) t'' := by
  have hsize : t'.size = t.size + item.count := by rw [h.size_eq, countAll, countAll, Nat.add_zero]
  refine ⟨?_, fun m hm => ?_, fun m hm => ?_, ?_⟩
  · rw [hrest.size_eq, hsize, countAll, Nat.add_assoc]
  · rw [hrest.content_eq m (by omega), h.content_eq m hm]
  · rw [hrest.children_eq m (by omega), h.children_eq m hm, hsize]
    by_cases hmp : m = parent
    · simp only [if_pos hmp, positions, List.append_assoc, List.singleton_append]
    · simp only [if_neg hmp]
  · -- The node appended to lies in front of all new ones.
    have hheld : HeldFrom t'' t.size [item] := h.held.congr fun m hlo hhi => by
      rw [countAll, countAll, Nat.add_zero] at hhi
      exact ⟨hrest.content_eq m (by omega), by
        rw [hrest.children_eq m (by omega), if_neg (by omega)]⟩
    refine ⟨hheld.1, ?_⟩
    rw [← hsize]
    exact hrest.held

theorem appended_text (hparent : parent < t.size) (s : String) :
    Appended t parent [.text s] (t.add parent (.text s)).1 := by
  refine ⟨?_, fun m hm => ?_, fun m hm => ?_, ⟨?_, ?_⟩, trivial⟩
  · rw [Tree.size_add]
    rfl
  · rw [Tree.content?_add, if_neg (Nat.ne_of_lt hm)]
  · rw [Tree.children_add _ hparent]
    rfl
  · rw [Tree.content?_add, if_pos rfl]
  · rw [Tree.children_add _ hparent, if_neg (Nat.ne_of_gt hparent),
      Tree.children_eq_nil (Nat.le_refl _)]

/-- An element is appended by appending its node and then to that the items inside
    it. -/
theorem appended_element {data : Element} {children : List Item} (hparent : parent < t.size)
    (h : Appended (t.add parent (.element data)).1 t.size children t') :
    Appended t parent [.element data children] t' := by
  have hsize : (t.add parent (.element data)).1.size = t.size + 1 := Tree.size_add _
  refine ⟨?_, fun m hm => ?_, fun m hm => ?_, ⟨?_, ?_, ?_⟩, trivial⟩
  · rw [h.size_eq, hsize]
    simp only [countAll, count]
    omega
  · rw [h.content_eq m (by omega), Tree.content?_add, if_neg (Nat.ne_of_lt hm)]
  · rw [h.children_eq m (by omega), if_neg (Nat.ne_of_lt hm), Tree.children_add _ hparent]
    rfl
  · rw [h.content_eq t.size (by omega), Tree.content?_add, if_pos rfl]
  · rw [h.children_eq t.size (by omega), if_pos rfl, Tree.children_add _ hparent,
      if_neg (Nat.ne_of_gt hparent), Tree.children_eq_nil (Nat.le_refl _), List.nil_append, hsize]
  · have hheld := h.held
    rwa [hsize] at hheld

/-- Appending items to a node of the tree puts them behind what is there, and
    changes nothing but the children of that node. -/
theorem appended_addAll (hparent : parent < t.size) :
    Appended t parent items (addAll t parent items) := by
  induction items using Item.induction generalizing t parent with
  | nil =>
      rw [addAll]
      refine ⟨rfl, fun _ _ => rfl, fun _ _ => ?_, trivial⟩
      rw [positions, List.append_nil, ite_self]
  | text s items ih =>
      have hfirst := appended_text hparent s
      rw [addAll, addTo]
      exact hfirst.cons hparent (ih (by rw [hfirst.size_eq]; omega))
  | element data children items ihchildren ih =>
      -- The items inside go to the new node, and then the others to the same parent.
      have hfirst := appended_element hparent
        (ihchildren (t := (t.add parent (.element data)).1) (by rw [Tree.size_add]; omega))
      rw [addAll, addTo]
      exact hfirst.cons hparent (ih (by rw [hfirst.size_eq]; omega))

theorem appended_toTree (items : List Item) : Appended .new Tree.root items (toTree items) :=
  appended_addAll Nat.zero_lt_one

/-! ### Positions -/

/-- Below every node among the items there are some items, and they lie among
    them. -/
theorem HeldFrom.exists_heldBelow (h : HeldFrom t start items) (hlo : start ≤ n)
    (hhi : n < start + countAll items) : ∃ below, HeldBelow t n below := by
  induction items using Item.induction generalizing start with
  | nil => exact absurd hhi (Nat.not_lt_of_le hlo)
  | text s items ih =>
      rw [countAll, count] at hhi
      -- The node is the text itself, or it lies among what is behind it.
      by_cases hn : n = start
      · exact ⟨[], by rw [hn]; exact h.1.2, trivial⟩
      · exact ih h.2 (by rw [count]; omega) (by rw [count]; omega)
  | element data children items ihchildren ih =>
      rw [countAll, count] at hhi
      rcases h with ⟨⟨_, hchildren, hinside⟩, hrest⟩
      -- The node is the element itself, or inside it, or behind it.
      by_cases hn : n = start
      · subst hn
        exact ⟨children, hchildren, hinside⟩
      · by_cases hin : n < start + 1 + countAll children
        · exact ihchildren hinside (by omega) hin
        · exact ih hrest (by rw [count]; omega) (by rw [count]; omega)

/-- In the tree of a document there are some items below every node, none where
    there is no node. -/
theorem exists_heldBelow_toTree (items : List Item) (n : NodeId) :
    ∃ below, HeldBelow (toTree items) n below := by
  have happended := appended_toTree items
  have hsize : (toTree items).size = 1 + countAll items := happended.size_eq
  by_cases hroot : n = 0
  · subst hroot
    exact ⟨items, (happended.children_eq 0 Nat.zero_lt_one).trans rfl, happended.held⟩
  · -- Every other node lies among the items, which reach up to the last one.
    by_cases hn : n < (toTree items).size
    · exact happended.held.exists_heldBelow (Nat.pos_of_ne_zero hroot) (hsize ▸ hn)
    · exact ⟨[], Tree.children_eq_nil (Nat.le_of_not_lt hn), trivial⟩

/-- A traversal visits the nodes of items in the order of their positions. -/
theorem HeldFrom.traverses {stack visits : List NodeId} (h : HeldFrom t start items)
    (hrest : t.Traverses stack visits) :
    t.Traverses (positions start items ++ stack)
      (List.range' start (countAll items) ++ visits) := by
  induction items using Item.induction generalizing start stack visits with
  | nil => exact hrest
  | text s items ih =>
      rw [positions, countAll, count, Nat.add_comm 1, List.range'_succ]
      refine .visit ?_
      rw [h.1.2]
      exact ih h.2 hrest
  | element data children items ihchildren ih =>
      rcases h with ⟨⟨_, hchildren, hinside⟩, hbehind⟩
      have hrange : List.range' start (countAll (.element data children :: items)) =
          start :: (List.range' (start + 1) (countAll children) ++
            List.range' (start + 1 + countAll children) (countAll items)) := by
        rw [List.range'_append_1, ← List.range'_succ, countAll, count, Nat.add_right_comm]
      rw [count, Nat.add_comm (countAll children), ← Nat.add_assoc] at hbehind
      -- What is inside is visited before what is behind.
      have hinner := ihchildren hinside (ih hbehind hrest)
      rw [← hchildren, ← List.append_assoc (List.range' _ _)] at hinner
      rw [hrange, positions, count, Nat.add_comm (countAll children), ← Nat.add_assoc]
      exact .visit hinner

end Item

/-- Positions of the tree of a document grow from a node to its children. -/
theorem noCycle_toTree (items : List Item) : Tree.NoCycle (toTree items).HasChild := by
  refine Tree.noCycle_hasChild_of_forall_lt fun n _ m hm => ?_
  rcases Item.exists_heldBelow_toTree items n with ⟨below, hbelow⟩
  rw [hbelow.children_eq] at hm
  exact Item.le_of_mem_positions hm

/-- The nodes below a node are the ones behind it, as many as there are, in the
    order of their positions. -/
theorem exists_descendants_toTree (items : List Item) (n : NodeId) :
    ∃ count, (toTree items).descendants n = List.range' (n + 1) count := by
  rcases Item.exists_heldBelow_toTree items n with ⟨below, hbelow⟩
  -- One traversal goes through the positions, and there is no other.
  have hall := hbelow.held.traverses Tree.Traverses.done
  rw [List.append_nil, List.append_nil, ← hbelow.children_eq] at hall
  exact ⟨Item.countAll below,
    (Tree.traverses_descendants (noCycle_toTree items) n).unique hall⟩

/-- Items that are held read back. -/
theorem Item.HeldFrom.mapM_itemAt? {t : Tree} {start depth : Nat} {items : List Item}
    (h : HeldFrom t start items) (hdepth : countAll items ≤ depth) :
    (positions start items).mapM (itemAt? t depth) = some items := by
  induction items using Item.induction generalizing start depth with
  | nil => rfl
  | text s items ih =>
      rw [countAll, count] at hdepth
      cases depth with
      | zero => omega
      | succ depth =>
          have hfirst : itemAt? t (depth + 1) start = some (.text s) := by rw [itemAt?, h.1.1]
          rw [positions, List.mapM_cons, hfirst, ih h.2 (by omega)]
          rfl
  | element data children items ihchildren ih =>
      rw [countAll, count] at hdepth
      rcases h with ⟨⟨hcontent, hchildren, hinside⟩, hbehind⟩
      cases depth with
      | zero => omega
      | succ depth =>
          -- What is inside is counted with the element, so one less is deep enough for it.
          have hfirst : itemAt? t (depth + 1) start = some (.element data children) := by
            have hread : (positions (start + 1) children).mapM (itemAt? t depth) = some children :=
              ihchildren hinside (by omega)
            simp only [itemAt?, hcontent, hchildren, hread, Option.map_some]
          rw [positions, List.mapM_cons, hfirst, ih hbehind (by omega)]
          rfl

/-- A tree reads back as the items it was made of. -/
theorem ofTree?_toTree (items : List Item) : ofTree? (toTree items) = some items := by
  have happended := Item.appended_toTree items
  have hchildren : (toTree items).children Tree.root = Item.positions 1 items :=
    (happended.children_eq 0 Nat.zero_lt_one).trans rfl
  rw [ofTree?, hchildren]
  exact happended.held.mapM_itemAt? (by rw [happended.size_eq]; exact Nat.le_add_left _ _)

end Document

end DomQuery
