import DomQuery.Selector.Memo

/-!
# Computations on a Memo

What a computation that keeps a memo comes to when the memo is forgotten.

A match is written as a computation that looks answers up and keeps new ones,
so it is not a function of the node alone: what it returns could depend on what
was asked before. `Yields` says that it does not. A computation yields a value
under a property of memos when from every memo with the property it returns
that value and leaves a memo with the property. The property is the one
argument that a proof has to find; with it, a computation is as good as the
value that it yields.

The lemmas carry this through the ways in which computations are put together.
Each of the list operations yields what its plain counterpart computes, so a
search over candidates that share a memo is a search over plain answers.

## Main definitions

* `Memo.Yields`: A value that does not depend on what a memo knows.

## Theorems

* `Memo.Yields.bind`: One computation after another.
* `Memo.Yields.anyM`, `Memo.Yields.filterM`, `Memo.Yields.findM?`: Computations
  over a list.
* `Memo.Yields.eq`: The value when nothing is known.
-/

namespace DomQuery

namespace Memo

/-- The computation returns the value from every memo with the property, and
    leaves a memo with the property. -/
def Yields {α : Type} (P : Memo → Prop) (act : StateM Memo α) (a : α) : Prop :=
  ∀ memo, P memo → (act.run memo).1 = a ∧ P (act.run memo).2

namespace Yields

variable {α β : Type} {P : Memo → Prop}

/-- The value that a computation yields is the one it returns when run. -/
theorem eq {act : StateM Memo α} {a : α} (h : Yields P act a) {memo : Memo} (hmemo : P memo) :
    (act.run memo).1 = a := (h memo hmemo).1

theorem pure (a : α) : Yields P (Pure.pure a) a := fun _ hmemo => ⟨rfl, hmemo⟩

/-- One computation after another yields what the second one yields behind the
    value of the first. -/
theorem bind {act : StateM Memo α} {a : α} {next : α → StateM Memo β} {b : β}
    (hact : Yields P act a) (hnext : Yields P (next a) b) : Yields P (act >>= next) b := by
  intro memo hmemo
  rcases hact memo hmemo with ⟨hvalue, hkept⟩
  have hrun : (act >>= next).run memo = (next (act.run memo).1).run (act.run memo).2 := rfl
  rw [hrun, hvalue]
  exact hnext _ hkept

theorem anyM {ask : α → StateM Memo Bool} {p : α → Bool} {xs : List α}
    (hask : ∀ x ∈ xs, Yields P (ask x) (p x)) : Yields P (xs.anyM ask) (xs.any p) := by
  induction xs with
  | nil => exact pure false
  | cons x xs ih =>
      have hrest := ih fun y hy => hask y (List.mem_cons_of_mem _ hy)
      rw [List.anyM, List.any_cons]
      refine bind (hask x List.mem_cons_self) ?_
      cases p x with
      | true => exact pure true
      | false => exact hrest

theorem filterM {ask : α → StateM Memo Bool} {p : α → Bool} {xs : List α}
    (hask : ∀ x ∈ xs, Yields P (ask x) (p x)) : Yields P (xs.filterM ask) (xs.filter p) := by
  -- The operation collects in reverse, so the induction is over what it has collected.
  have haux : ∀ (ys kept : List α), (∀ y ∈ ys, Yields P (ask y) (p y)) →
      Yields P (List.filterAuxM ask ys kept) ((ys.filter p).reverse ++ kept) := by
    intro ys
    induction ys with
    | nil => exact fun kept _ => pure kept
    | cons y ys ih =>
        intro kept hys
        have hrest := ih (bif p y then y :: kept else kept)
          fun z hz => hys z (List.mem_cons_of_mem _ hz)
        refine bind (hys y List.mem_cons_self) ?_
        cases hy : p y with
        | true =>
            rw [hy] at hrest
            rw [List.filter_cons_of_pos hy, List.reverse_cons, List.append_assoc]
            exact hrest
        | false =>
            rw [hy] at hrest
            rw [List.filter_cons_of_neg (by rw [hy]; exact Bool.false_ne_true)]
            exact hrest
  have hxs := haux xs [] hask
  rw [List.append_nil] at hxs
  refine bind hxs ?_
  rw [List.reverse_reverse]
  exact pure _

theorem findM? {ask : α → StateM Memo Bool} {p : α → Bool} {xs : List α}
    (hask : ∀ x ∈ xs, Yields P (ask x) (p x)) : Yields P (xs.findM? ask) (xs.find? p) := by
  induction xs with
  | nil => exact pure none
  | cons x xs ih =>
      have hrest := ih fun y hy => hask y (List.mem_cons_of_mem _ hy)
      rw [List.findM?, List.find?_cons]
      refine bind (hask x List.mem_cons_self) ?_
      cases p x with
      | true => exact pure (some x)
      | false => exact hrest

end Yields

end Memo

end DomQuery
