import DomQuery.Proofs.Attach
import DomQuery.Proofs.Traversal

/-!
# Forests

The links of a tree that was built from nothing say the same thing.

Attaching overwrites links and resets none, so a node that has a place and is
attached again leaves links behind that contradict one another. Where only
nodes without a place are attached, and none below itself, nothing is ever left
behind. `Tree.Built` are the trees that come about in this way, and
`Tree.Forest` is what their links have in common: a child and its parent name
each other, a list of children holds no node twice, neighbours are neighbours
in that list, and parents form no cycle.

The invariant is kept by each operation for one reason. The node attached has
no links upwards or sideways before, so nothing written to it is lost, and the
only other link that may change its value is the one of the last child to what
is behind it, which was missing. The parents are the one point where the place
of attaching matters. The new link leads from the node to its parent, and it
would close a cycle exactly if the parent were below the node.

What the walks along siblings meet needs no invariant of its own. A step to a
neighbour goes up or down by one in a list, so it never comes back.

## Main definitions

* `Tree.Built`: The trees that come about from the document alone.
* `Tree.Forest`: What their links have in common.
* `Tree.place`: The place of a node among the children of its parent.
* `Tree.Terminates`: A walk from a node comes to an end and repeats no node.

## Theorems

* `Tree.Forest.attach`: Attaching a node without a place keeps a forest.
* `Tree.Forest.appendChild?_eq`, `Tree.Forest.append?_eq`: In a forest, nodes that are
  there can be attached and be given new children.
* `Tree.Built.forest`: What is built is a forest.
* `Tree.Built.addElement`, `Tree.Built.addText`: New nodes below ones that are there.
* `Tree.Forest.next?_eq_some_iff_prev?`: Neighbours name each other.
* `Tree.Forest.acyclic`, `Tree.Forest.noCycle_next`: No walk comes back.
* `links_agree_of_built`: All of it for what is built.
-/

namespace DomQuery

namespace Tree

/-- A walk from the node comes to an end and repeats no node. -/
def Terminates (step : NodeId → Option NodeId) (n : NodeId) : Prop :=
  ∃ path, Chain step n path ∧ (n :: path).Nodup

/-- The trees that come about from the document alone by allocating nodes, by
    appending new ones to nodes that are there, and by attaching nodes without a
    parent to nodes that are not below them. -/
inductive Built : Tree → Prop where
  | new : Built .new
  | alloc {t : Tree} (h : Built t) (content : Content) : Built (t.alloc content).1
  | appendElement {t t' : Tree} {parent n : NodeId} {data : Element} (h : Built t)
      (hparent : parent < t.size) (hstep : t.appendElement? parent data = some (t', n)) : Built t'
  | appendText {t t' : Tree} {parent n : NodeId} {text : String} (h : Built t)
      (hparent : parent < t.size) (hstep : t.appendText? parent text = some (t', n)) : Built t'
  | appendChild {t t' : Tree} {parent child : NodeId} (h : Built t)
      (hparent : parent < t.size) (hchild : child < t.size) (hdetached : t.parent? child = none)
      (hbelow : ¬ Relation.ReflTransGen t.HasChild child parent)
      (hstep : t.appendChild? parent child = some t') : Built t'

/-- The place of a node in the list of its parent's children. -/
def place (t : Tree) (n : NodeId) : Nat :=
  match t.parent? n with
  | some p => (t.children p).idxOf n
  | none => 0

/-- The links of the tree say the same thing. -/
structure Forest (t : Tree) : Prop where
  /-- A node is a child of its parent and of no other. -/
  mem_children_iff : ∀ p c, c ∈ t.children p ↔ t.parent? c = some p
  nodup_children : ∀ p, (t.children p).Nodup
  next_eq : ∀ p i c, (t.children p)[i]? = some c → t.next? c = (t.children p)[i + 1]?
  prev_head : ∀ p c, (t.children p)[0]? = some c → t.prev? c = none
  prev_succ : ∀ p i c, (t.children p)[i + 1]? = some c → t.prev? c = (t.children p)[i]?
  /-- A node without a parent has no neighbours. -/
  detached : ∀ c, t.parent? c = none → t.next? c = none ∧ t.prev? c = none
  noCycle_parent : NoCycle (Follows t.parent?)

variable {t : Tree} {parent child n m : NodeId}

/-- A tree whose links all read the same is a forest when the other one is. -/
theorem Forest.congr {t' : Tree} (h : t.Forest) (hchildren : ∀ n, t'.children n = t.children n)
    (hparent : ∀ n, t'.parent? n = t.parent? n) (hnext : ∀ n, t'.next? n = t.next? n)
    (hprev : ∀ n, t'.prev? n = t.prev? n) : t'.Forest := by
  have heq : t'.parent? = t.parent? := funext hparent
  refine ⟨?_, ?_, ?_, ?_, ?_, ?_, ?_⟩
  · simpa only [hchildren, hparent] using h.mem_children_iff
  · simpa only [hchildren] using h.nodup_children
  · simpa only [hchildren, hnext] using h.next_eq
  · simpa only [hchildren, hprev] using h.prev_head
  · simpa only [hchildren, hprev] using h.prev_succ
  · simpa only [hparent, hnext, hprev] using h.detached
  · rw [heq]
    exact h.noCycle_parent

theorem Forest.alloc (h : t.Forest) (content : Content) : (t.alloc content).1.Forest :=
  h.congr (fun _ => children_alloc t _ content) (fun _ => parent?_alloc t _ content)
    (fun _ => next?_alloc t _ content) (fun _ => prev?_alloc t _ content)

namespace Forest

theorem lt_size_of_mem_children (h : t.Forest) (hm : m ∈ t.children n) : m < t.size :=
  lt_size_of_parent? ((h.mem_children_iff n m).mp hm)

theorem lt_size_of_lastChild? (h : t.Forest) : ∀ last ∈ t.lastChild? n, last < t.size := by
  intro last hlast
  exact h.lt_size_of_mem_children (mem_children_of_lastChild? hlast)

section Attach

variable {q i d : Nat}

theorem not_mem_children (h : t.Forest) (hdetached : t.parent? child = none) :
    child ∉ t.children q := by
  intro hmem
  rw [h.mem_children_iff, hdetached] at hmem
  cases hmem

/-- A place in a list of children is one that was there before, or the last place
    in the list that became longer. -/
theorem place_attach (h : t.Forest) (hparent : parent < t.size) (hdetached : t.parent? child = none)
    (hd : ((t.attach parent child).children q)[i]? = some d) :
    (t.children q)[i]? = some d ∧ d ≠ child ∨
      q = parent ∧ d = child ∧ i = (t.children parent).length := by
  have hold : (t.children q)[i]? = some d → d ≠ child := by
    rintro hplace rfl
    exact h.not_mem_children hdetached (List.mem_of_getElem? hplace)
  rw [children_attach hparent] at hd
  by_cases hq : q = parent
  · rw [if_pos hq] at hd
    by_cases hi : i < (t.children q).length
    · rw [List.getElem?_append_left hi] at hd
      exact .inl ⟨hd, hold hd⟩
    · -- Behind the old children there is the one place of the node attached.
      rw [List.getElem?_append_right (Nat.le_of_not_lt hi), List.getElem?_singleton] at hd
      split at hd
      · next hi' =>
        cases hd
        subst hq
        exact .inr ⟨rfl, rfl, by omega⟩
      · cases hd
  · rw [if_neg hq] at hd
    exact .inl ⟨hd, hold hd⟩

/-- Nothing moves in a list of children. -/
theorem getElem?_children_attach (hparent : parent < t.size) (hi : i < (t.children q).length) :
    ((t.attach parent child).children q)[i]? = (t.children q)[i]? := by
  rw [children_attach hparent]
  by_cases hq : q = parent
  · rw [if_pos hq, List.getElem?_append_left hi]
  · rw [if_neg hq]

/-- A child is the last one of a node when its place is the last one in that node's
    list. -/
theorem lastChild?_eq_some_iff (h : t.Forest) (hd : (t.children q)[i]? = some d) :
    t.lastChild? m = some d ↔ q = m ∧ i + 1 = (t.children q).length := by
  have hi : i < (t.children q).length := (List.getElem?_eq_some_iff.mp hd).1
  constructor
  · intro hlast
    have hq : q = m := by
      have hparents := (h.mem_children_iff q d).mp (List.mem_of_getElem? hd)
      rw [(h.mem_children_iff m d).mp (mem_children_of_lastChild? hlast)] at hparents
      exact (Option.some.inj hparents).symm
    subst hq
    -- The list holds the child once, so the two places are the same.
    rw [lastChild?_eq_getLast?, List.getLast?_eq_getElem?, ← hd,
      List.getElem?_inj (by omega) (h.nodup_children q)] at hlast
    exact ⟨rfl, by omega⟩
  · rintro ⟨rfl, hlen⟩
    rw [lastChild?_eq_getLast?, List.getLast?_eq_getElem?, ← hlen, Nat.add_sub_cancel, hd]

theorem next_eq_attach (h : t.Forest) (hparent : parent < t.size)
    (hdetached : t.parent? child = none)
    (hd : ((t.attach parent child).children q)[i]? = some d) :
    (t.attach parent child).next? d = ((t.attach parent child).children q)[i + 1]? := by
  rw [next?_attach h.lt_size_of_lastChild?, children_attach hparent]
  rcases h.place_attach hparent hdetached hd with ⟨hold, _⟩ | ⟨rfl, rfl, rfl⟩
  · have hi : i < (t.children q).length := (List.getElem?_eq_some_iff.mp hold).1
    by_cases hlast : q = parent ∧ i + 1 = (t.children q).length
    · -- The last child has the node attached behind it.
      rw [if_pos ((h.lastChild?_eq_some_iff hold).mpr hlast), if_pos hlast.1, hlast.2,
        List.getElem?_concat_length]
    · rw [if_neg (mt (h.lastChild?_eq_some_iff hold).mp hlast), h.next_eq q i d hold]
      by_cases hq : q = parent
      · rw [if_pos hq, List.getElem?_append_left (by omega)]
      · rw [if_neg hq]
  · -- The node attached has nothing behind it, before and after.
    have hlast : t.lastChild? q ≠ some d := fun heq =>
      h.not_mem_children hdetached (mem_children_of_lastChild? heq)
    rw [if_neg hlast, (h.detached d hdetached).1, if_pos rfl,
      List.getElem?_eq_none (by rw [List.length_append, List.length_singleton])]

theorem prev_head_attach (h : t.Forest) (hparent : parent < t.size) (hchild : child < t.size)
    (hdetached : t.parent? child = none)
    (hd : ((t.attach parent child).children q)[0]? = some d) :
    (t.attach parent child).prev? d = none := by
  rw [prev?_attach hchild]
  rcases h.place_attach hparent hdetached hd with ⟨hold, hne⟩ | ⟨rfl, rfl, hlen⟩
  · rw [if_neg hne]
    exact h.prev_head q d hold
  · -- An only child has none in front of it.
    rw [if_pos rfl, lastChild?_eq_getLast?, List.eq_nil_of_length_eq_zero hlen.symm,
      (h.detached d hdetached).2]
    rfl

theorem prev_succ_attach (h : t.Forest) (hparent : parent < t.size) (hchild : child < t.size)
    (hdetached : t.parent? child = none)
    (hd : ((t.attach parent child).children q)[i + 1]? = some d) :
    (t.attach parent child).prev? d = ((t.attach parent child).children q)[i]? := by
  rw [prev?_attach hchild]
  rcases h.place_attach hparent hdetached hd with ⟨hold, hne⟩ | ⟨rfl, rfl, hlen⟩
  · have hi : i + 1 < (t.children q).length := (List.getElem?_eq_some_iff.mp hold).1
    rw [if_neg hne, getElem?_children_attach hparent (by omega)]
    exact h.prev_succ q i d hold
  · -- In front of the node attached there is the child that was last before.
    rw [if_pos rfl, lastChild?_eq_getLast?, (h.detached d hdetached).2, Option.or_none,
      getElem?_children_attach hparent (by omega), List.getLast?_eq_getElem?, ← hlen]
    rfl

/-- Attaching a node without a place to a node that is not below it keeps a
    forest. -/
theorem attach (h : t.Forest) (hparent : parent < t.size) (hchild : child < t.size)
    (hdetached : t.parent? child = none)
    (hbelow : ¬ Relation.ReflTransGen t.HasChild child parent) :
    (t.attach parent child).Forest where
  mem_children_iff p c := by
    rw [parent?_attach hchild, children_attach hparent]
    by_cases hc : c = child
    · subst hc
      rw [if_pos rfl, Option.some.injEq]
      by_cases hp : p = parent
      · rw [if_pos hp]
        exact ⟨fun _ => hp.symm, fun _ => List.mem_concat_self⟩
      · rw [if_neg hp]
        exact ⟨fun hmem => absurd hmem (h.not_mem_children hdetached),
          fun heq => absurd heq.symm hp⟩
    · rw [if_neg hc, ← h.mem_children_iff]
      by_cases hp : p = parent
      · rw [if_pos hp, List.mem_append, List.mem_singleton]
        exact or_iff_left hc
      · rw [if_neg hp]
  nodup_children p := by
    rw [children_attach hparent]
    by_cases hp : p = parent
    · rw [if_pos hp, List.nodup_append]
      refine ⟨h.nodup_children p, List.pairwise_singleton _ _, fun a ha b hb => ?_⟩
      rw [List.mem_singleton.mp hb]
      rintro rfl
      exact h.not_mem_children hdetached ha
    · rw [if_neg hp]
      exact h.nodup_children p
  next_eq _ _ _ hd := h.next_eq_attach hparent hdetached hd
  prev_head _ _ hd := h.prev_head_attach hparent hchild hdetached hd
  prev_succ _ _ _ hd := h.prev_succ_attach hparent hchild hdetached hd
  detached c hc := by
    rw [parent?_attach hchild] at hc
    by_cases hne : c = child
    · rw [if_pos hne] at hc
      cases hc
    · rw [if_neg hne] at hc
      have hlast : t.lastChild? parent ≠ some c := fun heq =>
        h.not_mem_children hc (mem_children_of_lastChild? heq)
      rw [next?_attach h.lt_size_of_lastChild?, prev?_attach hchild, if_neg hlast, if_neg hne]
      exact h.detached c hc
  noCycle_parent := by
    -- The new step goes from the child to its parent, and the old ones do not lead back.
    have hback : ¬ Relation.ReflTransGen (Follows t.parent?) parent child := by
      intro hup
      refine hbelow ?_
      have hdown := Relation.reflTransGen_swap.mpr hup
      exact Relation.ReflTransGen.mono (fun a b hab => (h.mem_children_iff a b).mpr hab) _ _ hdown
    refine noCycle_of_step h.noCycle_parent hback fun x y hxy => ?_
    rw [Follows, parent?_attach hchild] at hxy
    by_cases hx : x = child
    · rw [if_pos hx, Option.some.injEq] at hxy
      exact .inr ⟨hx, hxy.symm⟩
    · rw [if_neg hx] at hxy
      exact .inl hxy

end Attach

/-- The document alone is a forest, having no links at all. -/
theorem new : Forest .new := by
  have hparent : ∀ c, Tree.new.parent? c = none := fun c => by cases c <;> rfl
  have hchildren : ∀ p, Tree.new.children p = [] := fun p => by cases p <;> rfl
  have hplace : ∀ p (i : Nat) c, (Tree.new.children p)[i]? ≠ some c := by
    intro p i c
    rw [hchildren, List.getElem?_nil]
    exact (Option.some_ne_none c).symm
  refine ⟨fun p c => ?_, fun p => ?_, fun p i c hc => absurd hc (hplace p i c),
    fun p c hc => absurd hc (hplace p 0 c), fun p i c hc => absurd hc (hplace p (i + 1) c),
    fun c _ => ?_, noCycle_of_rank id fun a b hab => ?_⟩
  · rw [hchildren, hparent]
    exact ⟨fun hmem => absurd hmem List.not_mem_nil, fun heq => by cases heq⟩
  · rw [hchildren]
    exact List.nodup_nil
  · cases c <;> exact ⟨rfl, rfl⟩
  · rw [Follows, hparent] at hab
    cases hab

theorem canAttach (h : t.Forest) (hparent : parent < t.size) (hchild : child < t.size) :
    t.canAttach parent child = true := by
  have hlast : (t.lastChild? parent).all (· < t.size) = true := by
    rw [Option.all_eq_true]
    exact fun last hl => decide_eq_true (h.lt_size_of_lastChild? last hl)
  simp only [Tree.canAttach, hparent, hchild, hlast, decide_true, Bool.and_self]

/-- In a forest, known nodes can be attached. -/
theorem appendChild?_eq (h : t.Forest) (hparent : parent < t.size) (hchild : child < t.size) :
    t.appendChild? parent child = some (t.attach parent child) := by
  rw [appendChild?, if_pos (h.canAttach hparent hchild)]

end Forest

/-- A node below nothing is below itself only. -/
theorem eq_of_reflTransGen_hasChild (hno : t.children n = [])
    (h : Relation.ReflTransGen t.HasChild n m) : n = m := by
  rcases Relation.ReflTransGen.cases_head h with heq | ⟨k, hk, _⟩
  · exact heq
  · rw [HasChild, hno] at hk
    exact absurd hk List.not_mem_nil

namespace Forest

/-- A new node can be attached to a known one, and what comes out is a forest. -/
theorem append?_eq (h : t.Forest) (hparent : parent < t.size) (content : Content) :
    t.append? parent content = some (t.add parent content) ∧ (t.add parent content).1.Forest := by
  have hfresh : (t.alloc content).1.Forest := h.alloc content
  have hsize : (t.alloc content).1.size = t.size + 1 := size_alloc t content
  have hin : parent < (t.alloc content).1.size := hsize ▸ Nat.lt_succ_of_lt hparent
  have hnew : t.size < (t.alloc content).1.size := by omega
  have hdetached : (t.alloc content).1.parent? t.size = none := by
    rw [parent?_alloc, parent?, cell?_size]
    rfl
  have hno : (t.alloc content).1.children t.size = [] := by
    rw [children_alloc, children_eq_nil (Nat.le_refl _)]
  refine ⟨?_, ?_⟩
  · rw [append?]
    show ((t.alloc content).1.appendChild? parent t.size).map (·, t.size) = _
    rw [hfresh.appendChild?_eq hin hnew]
    rfl
  · -- Nothing is below the new node, so its parent is not.
    refine hfresh.attach hin hnew hdetached fun hbelow => ?_
    exact absurd (eq_of_reflTransGen_hasChild hno hbelow) (Nat.ne_of_gt hparent)

section Siblings

variable {c d p : NodeId} {i : Nat}

theorem next?_eq_some_iff (h : t.Forest) : t.next? c = some d ↔
    ∃ p i, (t.children p)[i]? = some c ∧ (t.children p)[i + 1]? = some d := by
  constructor
  · intro hnext
    rcases hp : t.parent? c with _ | p
    · rw [(h.detached c hp).1] at hnext
      cases hnext
    · rcases List.mem_iff_getElem?.mp ((h.mem_children_iff p c).mpr hp) with ⟨i, hi⟩
      exact ⟨p, i, hi, by rw [← h.next_eq p i c hi, hnext]⟩
  · rintro ⟨p, i, hi, hd⟩
    rw [h.next_eq p i c hi, hd]

theorem prev?_eq_some_iff (h : t.Forest) : t.prev? d = some c ↔
    ∃ p i, (t.children p)[i]? = some c ∧ (t.children p)[i + 1]? = some d := by
  constructor
  · intro hprev
    rcases hp : t.parent? d with _ | p
    · rw [(h.detached d hp).2] at hprev
      cases hprev
    · rcases List.mem_iff_getElem?.mp ((h.mem_children_iff p d).mpr hp) with ⟨i, hi⟩
      cases i with
      | zero =>
          rw [h.prev_head p d hi] at hprev
          cases hprev
      | succ i => exact ⟨p, i, by rw [← h.prev_succ p i d hi, hprev], hi⟩
  · rintro ⟨p, i, hi, hd⟩
    rw [h.prev_succ p i d hd, hi]

/-- Neighbours name each other. -/
theorem next?_eq_some_iff_prev? (h : t.Forest) : t.next? c = some d ↔ t.prev? d = some c := by
  rw [h.next?_eq_some_iff, h.prev?_eq_some_iff]

/-- The place of a node is where its parent's list has it. -/
theorem place_eq (h : t.Forest) (hc : (t.children p)[i]? = some c) : t.place c = i := by
  have hp : t.parent? c = some p := (h.mem_children_iff p c).mp (List.mem_of_getElem? hc)
  rcases List.getElem?_eq_some_iff.mp hc with ⟨hi, rfl⟩
  rw [place, hp]
  exact (h.nodup_children p).idxOf_getElem i hi

theorem noCycle_prev (h : t.Forest) : NoCycle (Follows t.prev?) := by
  -- A step to the neighbour in front goes down by one in the same list.
  refine noCycle_of_rank t.place fun d c hprev => ?_
  rcases h.prev?_eq_some_iff.mp hprev with ⟨p, i, hc, hd⟩
  rw [h.place_eq hc, h.place_eq hd]
  exact Nat.lt_succ_self i

theorem noCycle_next (h : t.Forest) : NoCycle (Follows t.next?) := by
  intro n hn
  -- A cycle forwards is a cycle backwards.
  refine h.noCycle_prev n (Relation.transGen_swap.mp ?_)
  exact Relation.TransGen.mono (fun c d hcd => h.next?_eq_some_iff_prev?.mp hcd) n n hn

end Siblings

theorem acyclic (h : t.Forest) : t.Acyclic := ⟨h.noCycle_parent, h.noCycle_prev⟩

end Forest

theorem terminates_of_noCycle {step : NodeId → Option NodeId} {size : Nat}
    (hno : NoCycle (Follows step)) (hlt : ∀ a b, step a = some b → a < size) (n : NodeId) :
    Terminates step n :=
  ⟨walk step size n, chain_walk hno hlt n, nodup_of_isChain hno (chain_walk hno hlt n).isChain⟩

/-- What is built is a forest. -/
theorem Built.forest (h : t.Built) : t.Forest := by
  induction h with
  | new => exact Forest.new
  | alloc _ content ih => exact ih.alloc content
  | @appendElement _ _ _ _ data _ hparent hstep ih =>
      have happend := ih.append?_eq hparent (.element data)
      rw [Tree.appendElement?, happend.1] at hstep
      cases hstep
      exact happend.2
  | @appendText _ _ _ _ text _ hparent hstep ih =>
      have happend := ih.append?_eq hparent (.text text)
      rw [Tree.appendText?, happend.1] at hstep
      cases hstep
      exact happend.2
  | appendChild _ hparent hchild hdetached hbelow hstep ih =>
      rw [ih.appendChild?_eq hparent hchild] at hstep
      cases hstep
      exact ih.attach hparent hchild hdetached hbelow

theorem Built.addElement (h : t.Built) (hparent : parent < t.size) (data : Element) :
    (t.add parent (.element data)).1.Built :=
  .appendElement h hparent (h.forest.append?_eq hparent (.element data)).1

theorem Built.addText (h : t.Built) (hparent : parent < t.size) (text : String) :
    (t.add parent (.text text)).1.Built :=
  .appendText h hparent (h.forest.append?_eq hparent (.text text)).1

end Tree

/-- The links of what is built agree. A child and its parent name each other; no
    node is held twice, in one list of children or in two; neighbours are the
    neighbours in the list; a node without a parent has none; and the walks along
    parents and along neighbours in both directions end and repeat no node. What is
    there can be attached and be given new children. -/
theorem links_agree_of_built {t : Tree} (ht : t.Built) :
    (∀ p c, c ∈ t.children p ↔ t.parent? c = some p) ∧
    (∀ p, (t.children p).Nodup ∧ ∀ q ≠ p, (t.children p).Disjoint (t.children q)) ∧
    (∀ p i c, (t.children p)[i]? = some c →
      t.next? c = (t.children p)[i + 1]? ∧
      t.prev? c = if i = 0 then none else (t.children p)[i - 1]?) ∧
    (∀ c, t.parent? c = none → t.prev? c = none ∧ t.next? c = none) ∧
    (∀ n, Tree.Terminates t.parent? n ∧ Tree.Terminates t.next? n ∧ Tree.Terminates t.prev? n) ∧
    (∀ p < t.size, (∀ c < t.size, (t.appendChild? p c).isSome) ∧
      (∀ data, (t.appendElement? p data).isSome) ∧ ∀ text, (t.appendText? p text).isSome) := by
  have h : t.Forest := ht.forest
  refine ⟨h.mem_children_iff, fun p => ⟨h.nodup_children p, ?_⟩, ?_,
    fun c hc => (h.detached c hc).symm, fun n => ⟨?_, ?_, ?_⟩, fun p hp => ⟨?_, ?_, ?_⟩⟩
  · -- A node in two lists would have two parents.
    intro q hq c hcp hcq
    rw [h.mem_children_iff] at hcp hcq
    rw [hcp, Option.some.injEq] at hcq
    exact hq hcq.symm
  · intro p i c hc
    refine ⟨h.next_eq p i c hc, ?_⟩
    cases i with
    | zero => rw [if_pos rfl, h.prev_head p c hc]
    | succ i => rw [if_neg (Nat.succ_ne_zero i), Nat.add_sub_cancel, h.prev_succ p i c hc]
  · exact Tree.terminates_of_noCycle h.noCycle_parent (fun _ _ => Tree.lt_size_of_parent?) n
  · exact Tree.terminates_of_noCycle h.noCycle_next (fun _ _ => Tree.lt_size_of_next?) n
  · exact Tree.terminates_of_noCycle h.noCycle_prev (fun _ _ => Tree.lt_size_of_prev?) n
  · intro c hc
    rw [h.appendChild?_eq hp hc]
    rfl
  · intro data
    rw [Tree.appendElement?, (h.append?_eq hp _).1]
    rfl
  · intro text
    rw [Tree.appendText?, (h.append?_eq hp _).1]
    rfl

/-- The elements `a` and `b` without a place and a text below `b`. -/
def unplacedElements : Tree :=
  (((Tree.new.alloc (.element { tag := "a" })).1.alloc (.element { tag := "b" })).1.add 2
    (.text ".")).1

/-- The same with `b` behind a second text below `a`. -/
def elementBehindText : Tree := (unplacedElements.add 1 (.text ",")).1.attach 1 2

theorem unplacedElements_built : unplacedElements.Built :=
  .appendText ((Tree.Built.new.alloc (.element { tag := "a" })).alloc (.element { tag := "b" }))
    (by decide) (show Tree.appendText? _ 2 "." = some (unplacedElements, 3) by decide)

theorem elementBehindText_built : elementBehindText.Built :=
  .appendChild (.appendText unplacedElements_built (by decide)
      (show unplacedElements.appendText? 1 "," =
        some ((unplacedElements.add 1 (.text ",")).1, 4) by decide))
    (by decide) (by decide) (by decide)
    (fun hbelow => absurd (Tree.le_of_reflTransGen_hasChild (by decide) hbelow) (by decide))
    (show Tree.appendChild? _ 1 2 = some elementBehindText by decide)

/-- An element that is attached together with what is below it finds its place
    behind the text. -/
theorem elementBehindText_links : elementBehindText.Built ∧
    elementBehindText.children 1 = [4, 2] ∧ elementBehindText.next? 4 = some 2 ∧
    elementBehindText.prev? 2 = some 4 :=
  ⟨elementBehindText_built, by decide,
    ((links_agree_of_built elementBehindText_built).2.2.1 1 0 4 (by decide)).1.trans (by decide),
    ((links_agree_of_built elementBehindText_built).2.2.1 1 1 2 (by decide)).2.trans (by decide)⟩

end DomQuery
