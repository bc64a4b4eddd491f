import DomQuery.Selector.Basic
import DomQuery.Selector.Memo
import DomQuery.Text.Case
import DomQuery.Tree.Walk

/-!
# Matching

Whether a node of a tree is what a selector describes.

A compound is a question about one element. A chain is a question about a node
and the elements it is related to: the subject must match the node, and the rest
of the chain must match some element that the nearest combinator relates the
node to. Which element that is has to be tried out, one candidate after the
other, the nearest first.

Candidates are shared. Two nodes under one parent ask the same question about
that parent, and a chain of descendants asks it again for every ancestor it
tries, so answers are kept in a memo. Each answer is written once, after the
candidates have been tried, and is right whatever was asked before.

## Main definitions

* `Simple.matches`, `Compound.matches`: Questions about one element.
* `Tree.related`: The elements that a combinator relates a node to.
* `Memo.anyOnWalk`: Asking about the nodes of a walk until the first yes.
* `Link.hold`: Whether the chain to the left of a matched compound is there.
* `Selector.matches`, `Complex.matches`, `SelectorList.matches`: The answer for
  one node, with nothing known before.

## Theorems

* `Memo.anyOnWalk_eq_anyM`: Asking on a walk is asking about its nodes in order.
-/

namespace DomQuery

/-- Whether an element meets a condition. Types are compared without regard to
    the case of ASCII letters, ids and classes exactly. -/
def Simple.holdsOf (e : Element) : Simple → Bool
  | tag name => Text.sameButCase e.tag name
  | id name => e.id? == some name
  | cls name => e.hasClass name

/-- Whether a node is an element that meets a condition. -/
def Simple.matches (s : Simple) (t : Tree) (n : NodeId) : Bool := (t.element? n).any s.holdsOf

/-- Whether a node is an element that meets every condition of a compound. A
    node that is no element does not, however few the conditions. -/
def Compound.matches (c : Compound) (t : Tree) (n : NodeId) : Bool :=
  (t.element? n).any fun e => c.parts.all (·.holdsOf e)

/-- The direction of a combinator: to the parent, or to the nearest element in
    front, as far as there is one. -/
def Tree.toward (t : Tree) : Combinator → NodeId → Option NodeId
  | .descendant => t.parentElement?
  | .child => t.parentElement?
  | .adjacent => t.prevElement?
  | .sibling => t.prevElement?

/-- How often a combinator allows a step in its direction. -/
def Tree.reach (t : Tree) : Combinator → Nat
  | .descendant => t.size
  | .child => 1
  | .adjacent => 1
  | .sibling => t.size

/-- The elements that a combinator relates a node to, the nearest first. -/
def Tree.related (t : Tree) (comb : Combinator) (n : NodeId) : List NodeId :=
  Tree.walk (t.toward comb) (t.reach comb) n

/-- Whether the answer is yes for one of the nodes on a walk. None is asked about
    after the first yes, and none is walked to. -/
def Memo.anyOnWalk (step : NodeId → Option NodeId) (ask : NodeId → StateM Memo Bool) :
    Nat → NodeId → StateM Memo Bool
  | 0, _ => pure false
  | fuel + 1, n =>
    match step n with
    | none => pure false
    | some m => do
      if ← ask m then pure true else anyOnWalk step ask fuel m

/-- Asking on a walk is asking about the nodes of the walk in their order. -/
theorem Memo.anyOnWalk_eq_anyM (step : NodeId → Option NodeId) (ask : NodeId → StateM Memo Bool)
    (fuel : Nat) (n : NodeId) :
    Memo.anyOnWalk step ask fuel n = (Tree.walk step fuel n).anyM ask := by
  induction fuel generalizing n with
  | zero => rfl
  | succ fuel ih =>
      rw [Memo.anyOnWalk, Tree.walk]
      rcases step n with _ | m
      · rfl
      · simp only [List.anyM, ih]
        refine bind_congr fun answer => ?_
        cases answer <;> rfl

/-- Whether one of the related elements matches the compound of the nearest link
    and has the links behind it satisfied in turn. The compound at the right
    end of the links is taken to match the node already. A depth comes with the
    links and goes down by one behind each of them; answers are kept under it. -/
def Link.hold (t : Tree) (clause : Nat) : Nat → List Link → NodeId → StateM Memo Bool
  | _, [], _ => pure true
  | depth, ⟨comb, far⟩ :: links, n => do
    let question : Question := ⟨clause, depth, n⟩
    match (← get)[question]? with
    | some answer => pure answer
    | none =>
      let answer ← Memo.anyOnWalk (t.toward comb) (fun m =>
        if far.matches t m then hold t clause (depth - 1) links m else pure false)
        (t.reach comb) n
      modify (·.keep question answer)
      pure answer

/-- Whether a node matches a clause, the answers about it kept under a number. The
    depth to begin with is that of the clause. -/
def Selector.check (t : Tree) (clause : Nat) (sel : Selector) (n : NodeId) : StateM Memo Bool :=
  if sel.subject.matches t n then Link.hold t clause sel.depth sel.links n else pure false

/-- Whether a node matches one of the clauses, which are numbered in their
    order. -/
def SelectorList.check (t : Tree) (list : SelectorList) (n : NodeId) : StateM Memo Bool :=
  list.clauses.zipIdx.anyM fun (sel, clause) => sel.check t clause n

/-- Whether a node matches a clause. -/
def Selector.matches (sel : Selector) (t : Tree) (n : NodeId) : Bool :=
  ((sel.check t 0 n).run .blank).1

/-- Whether a node matches a clause that is split at its rightmost combinator. With
    that combinator it has one link more than its left-hand side. -/
def Complex.matches (c : Complex) (t : Tree) (n : NodeId) : Bool :=
  c.right.matches t n &&
    ((Link.hold t 0 (c.left.depth + 1) (⟨c.combinator, c.left.subject⟩ :: c.left.links) n).run
      .blank).1

/-- Whether a node matches one of the clauses. -/
def SelectorList.matches (list : SelectorList) (t : Tree) (n : NodeId) : Bool :=
  ((list.check t n).run .blank).1

end DomQuery
