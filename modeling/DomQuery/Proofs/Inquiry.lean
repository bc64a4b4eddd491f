import DomQuery.Selector.Query

/-!
# Matching as a Sequence of Accesses

A match, told by when it looks into the memo and when it writes.

As a function from memo to memo a match has a beginning and an end and nothing
in between, so there is no way to ask what the memo is like while a chain is
being walked, or how often the candidates of one question are gone through. An
`Inquiry` is the same computation with its accesses laid open: it is over, or it
looks a question up and goes on with what it finds, or it keeps an answer and
goes on. Nothing else of a match can depend on a memo or change it.

`Link.inquiry` is the walk along a chain in this form, and `toStateM` turns an
inquiry back into a function on memos by making its accesses one after the
other. What comes out is the match itself (`Link.toStateM_inquiry`,
`SelectorList.toStateM_inquiry`), so whatever the moments of an inquiry have in
common is true of every moment of a match.

A memo is never filled by one match alone. `SelectorList.Consults` are the
computations that use a memo to check nodes against a list, one after the other,
where each node may be chosen by the answers before it. Checking a given list of
nodes is one of them, and so are both kinds of queries.

## Main definitions

* `Inquiry`: A computation by its accesses to a memo.
* `Inquiry.toStateM`: The function on memos that it stands for.
* `Link.inquiry`, `Selector.inquiry`, `SelectorList.inquiry`: Matching by its accesses.
* `SelectorList.Consults`: Checking nodes, one after the other, with one memo.

## Theorems

* `Inquiry.toStateM_bind`: One inquiry after another.
* `Link.toStateM_inquiry`, `Selector.toStateM_inquiry`,
  `SelectorList.toStateM_inquiry`: The accesses are those of the match.
* `SelectorList.Consults.toStateM_eq`: The same for any number of checks.
* `SelectorList.Consults.mapM`, `SelectorList.Consults.filterM`,
  `SelectorList.Consults.findM?`: Checking the nodes of a list.
-/

namespace DomQuery

/-- A computation by its accesses to a memo. -/
inductive Inquiry (α : Type) : Type where
  /-- The computation is over. -/
  | done (a : α)
  /-- A question is looked up, and what is known about it decides how to go on. -/
  | look (q : Question) (next : Option Bool → Inquiry α)
  /-- An answer is kept. -/
  | keep (q : Question) (answer : Bool) (next : Inquiry α)

namespace Inquiry

variable {α β γ : Type}

/-- One inquiry, and behind it another one that depends on its result. -/
protected def bind : Inquiry α → (α → Inquiry β) → Inquiry β
  | done a, f => f a
  | look q next, f => look q fun found => (next found).bind f
  | keep q answer next, f => keep q answer (next.bind f)

instance : Monad Inquiry where
  pure := done
  bind := Inquiry.bind

theorem bind_done (p : Inquiry α) : p.bind done = p := by
  induction p with
  | done a => rfl
  | look q next ih => exact congrArg (look q) (funext ih)
  | keep q answer next ih => exact congrArg (keep q answer) ih

theorem bind_bind (p : Inquiry α) (f : α → Inquiry β) (g : β → Inquiry γ) :
    (p.bind f).bind g = p.bind fun a => (f a).bind g := by
  induction p with
  | done a => rfl
  | look q next ih => exact congrArg (look q) (funext ih)
  | keep q answer next ih => exact congrArg (keep q answer) ih

instance : LawfulMonad Inquiry :=
  LawfulMonad.mk' Inquiry bind_done (fun _ _ => rfl) bind_bind

/-- The accesses made one after the other. -/
def toStateM : Inquiry α → StateM Memo α
  | done a => pure a
  | look q next => do (next (← get)[q]?).toStateM
  | keep q answer next => do
    modify (·.keep q answer)
    next.toStateM

theorem toStateM_bind (p : Inquiry α) (f : α → Inquiry β) :
    (p >>= f).toStateM = p.toStateM >>= fun a => (f a).toStateM := by
  induction p with
  | done a => rfl
  | look q next ih =>
      show (do (next (← get)[q]? >>= f).toStateM : StateM Memo β) = _
      simp only [ih, toStateM, bind_assoc]
  | keep q answer next ih =>
      show (do modify (·.keep q answer); (next >>= f).toStateM : StateM Memo β) = _
      simp only [ih, toStateM, bind_assoc]

theorem toStateM_anyM (ask : α → Inquiry Bool) (xs : List α) :
    (xs.anyM ask).toStateM = xs.anyM fun x => (ask x).toStateM := by
  induction xs with
  | nil => rfl
  | cons x xs ih =>
      rw [List.anyM, List.anyM, toStateM_bind]
      refine bind_congr fun answer => ?_
      cases answer with
      | true => rfl
      | false => exact ih

end Inquiry

/-- Holding the links of a chain at a node, by its accesses. -/
def Link.inquiry (t : Tree) (clause : Nat) : Nat → List Link → NodeId → Inquiry Bool
  | _, [], _ => pure true
  | depth, ⟨comb, far⟩ :: links, n =>
    let question : Question := ⟨clause, depth, n⟩
    .look question fun
      | some answer => pure answer
      | none => do
        let answer ← (t.related comb n).anyM fun m =>
          if far.matches t m then inquiry t clause (depth - 1) links m else pure false
        .keep question answer (pure answer)

/-- The accesses of the walk along a chain are those of holding it. -/
theorem Link.toStateM_inquiry (t : Tree) (clause depth : Nat) (links : List Link) (n : NodeId) :
    (inquiry t clause depth links n).toStateM = hold t clause depth links n := by
  induction links generalizing depth n with
  | nil => rfl
  | cons link links ih =>
      rcases link with ⟨comb, far⟩
      have hask : ∀ m, (if far.matches t m then inquiry t clause (depth - 1) links m
          else pure false : Inquiry Bool).toStateM =
            if far.matches t m then hold t clause (depth - 1) links m else pure false := by
        intro m
        cases far.matches t m with
        | true => exact ih (depth - 1) m
        | false => rfl
      rw [inquiry, hold]
      simp only [Inquiry.toStateM]
      refine bind_congr fun memo => ?_
      -- Both sides have looked into the same memo and go the same way from there.
      rcases memo[(⟨clause, depth, n⟩ : Question)]? with _ | answer
      · simp only [Inquiry.toStateM_bind, Inquiry.toStateM_anyM, Memo.anyOnWalk_eq_anyM, hask]
        rfl
      · rfl

/-- Checking a node against a clause, by its accesses. -/
def Selector.inquiry (t : Tree) (clause : Nat) (sel : Selector) (n : NodeId) : Inquiry Bool :=
  if sel.subject.matches t n then Link.inquiry t clause sel.depth sel.links n else pure false

theorem Selector.toStateM_inquiry (t : Tree) (clause : Nat) (sel : Selector) (n : NodeId) :
    (sel.inquiry t clause n).toStateM = sel.check t clause n := by
  rw [inquiry, check]
  cases sel.subject.matches t n with
  | true => exact Link.toStateM_inquiry t clause sel.depth sel.links n
  | false => rfl

/-- Checking a node against the clauses of a list, by its accesses. -/
def SelectorList.inquiry (t : Tree) (list : SelectorList) (n : NodeId) : Inquiry Bool :=
  list.clauses.zipIdx.anyM fun (sel, clause) => sel.inquiry t clause n

theorem SelectorList.toStateM_inquiry (t : Tree) (list : SelectorList) (n : NodeId) :
    (list.inquiry t n).toStateM = list.check t n := by
  rw [inquiry, check, Inquiry.toStateM_anyM]
  simp only [Selector.toStateM_inquiry]

/-- Computations that use a memo for nothing but checking nodes against the list,
    each with its accesses. Which node comes next may depend on the answers so
    far. -/
inductive SelectorList.Consults (t : Tree) (list : SelectorList) :
    {α : Type} → Inquiry α → StateM Memo α → Prop where
  | pure {α : Type} (a : α) : Consults t list (pure a) (pure a)
  | check (n : NodeId) : Consults t list (list.inquiry t n) (list.check t n)
  | bind {α β : Type} {p : Inquiry α} {act : StateM Memo α} {f : α → Inquiry β}
      {g : α → StateM Memo β} (hfirst : Consults t list p act)
      (hnext : ∀ a, Consults t list (f a) (g a)) : Consults t list (p >>= f) (act >>= g)

namespace SelectorList.Consults

variable {t : Tree} {list : SelectorList}

theorem toStateM_eq {α : Type} {p : Inquiry α} {act : StateM Memo α}
    (h : list.Consults t p act) : p.toStateM = act := by
  induction h with
  | pure a => rfl
  | check n => exact list.toStateM_inquiry t n
  | bind _ _ ihfirst ihnext =>
      rw [Inquiry.toStateM_bind, ihfirst]
      exact bind_congr ihnext

/-- Checking the nodes of a list in their order. -/
theorem mapM (nodes : List NodeId) :
    list.Consults t (nodes.mapM (list.inquiry t)) (nodes.mapM (list.check t)) := by
  induction nodes with
  | nil => exact .pure []
  | cons n nodes ih =>
      rw [List.mapM_cons, List.mapM_cons]
      exact .bind (.check n) fun answer => .bind ih fun answers => .pure (answer :: answers)

/-- Selecting the nodes of a list that pass their check, as a query does. -/
theorem filterM (nodes : List NodeId) :
    list.Consults t (nodes.filterM (list.inquiry t)) (nodes.filterM (list.check t)) := by
  have haux : ∀ kept, list.Consults t (nodes.filterAuxM (list.inquiry t) kept)
      (nodes.filterAuxM (list.check t) kept) := by
    induction nodes with
    | nil => exact fun kept => .pure kept
    | cons n nodes ih => exact fun kept => .bind (.check n) fun answer => ih _
  exact .bind (haux []) fun kept => .pure kept.reverse

/-- Looking for the first node of a list that passes its check. -/
theorem findM? (nodes : List NodeId) :
    list.Consults t (nodes.findM? (list.inquiry t)) (nodes.findM? (list.check t)) := by
  induction nodes with
  | nil => exact .pure none
  | cons n nodes ih =>
      rw [List.findM?, List.findM?]
      refine .bind (.check n) fun answer => ?_
      cases answer with
      | true => exact .pure (some n)
      | false => exact ih

end SelectorList.Consults

end DomQuery
