import DomQuery.Proofs.Query
import Mathlib.Logic.Relation

/-!
# Variants of a Selector

A selector that says the same in other words finds the same.

Three things about a selector are of no account. The clauses of a list stand in no
order and neither do the conditions of a compound; saying one of them a second time
adds nothing; and the letters of a type name have no case. `Rearranged` is about
order and repetition, for clauses and conditions alike, and `Text.SameLetters` is
about case. `SelectorList.Varies` is one such change anywhere in a list: among the
clauses, among the conditions of any compound of a chain, or in the name of a type.
Ids and classes have no part in the last one.

The memo of a query tells clauses by their places in the list, so two variants ask
different questions of it and stop asking at different clauses. That is why
matching is compared where it is worked out afresh and the places are gone: a list
matches what one of its clauses fits, and whether there is one depends on nothing
but which clauses there are. The argument for the conditions of a compound is the
same one, and along a chain it goes link by link.

Once matching agrees at every node, queries agree as filters of one traversal, in
what they find and in its order.

## Main definitions

* `Text.SameLetters`: Texts that differ in the case of letters.
* `Rearranged`: One change of order, or one repetition.
* `Simple.Varies`, `Compound.Varies`, `Link.Varies`, `Selector.Varies`,
  `SelectorList.Varies`: One change that keeps what is said.

## Theorems

* `Rearranged.mem_iff`: A rearranged list has the same members.
* `Text.SameLetters.map_toLower_eq`: Case is what folding takes away.
* `Compound.Varies.matches_eq`, `Link.Varies.satisfied_eq`, `Selector.Varies.fits_eq`,
  `SelectorList.Varies.matches_eq`: Matching after one change.
* `query_eq_of_variant`: Matching and queries after any changes.
-/

namespace DomQuery

/-- A capital letter of ASCII and the small one for it. -/
def Text.Capital (c d : Char) : Prop :=
  'A'.toNat ≤ c.toNat ∧ c.toNat ≤ 'Z'.toNat ∧ d.toNat = c.toNat + 32

/-- Two texts that are the same, the case of ASCII letters aside. -/
def Text.SameLetters : List Char → List Char → Prop :=
  List.Forall₂ fun c d => c = d ∨ Capital c d ∨ Capital d c

/-- A list in another order, or with one of its members once more. -/
inductive Rearranged {α : Type} : List α → List α → Prop where
  | perm {l l' : List α} (h : l.Perm l') : Rearranged l l'
  | again (front : List α) {a : α} (back : List α) (h : a ∈ front ++ back) :
      Rearranged (front ++ back) (front ++ a :: back)

/-- A condition on the type, with letters of another case. -/
inductive Simple.Varies : Simple → Simple → Prop where
  | tag {name name' : String} (h : Text.SameLetters name.toList name'.toList) :
      Varies (.tag name) (.tag name')

/-- A compound with its conditions rearranged, or with one of them varied. -/
inductive Compound.Varies : Compound → Compound → Prop where
  | rearrange {parts parts' : List Simple} (h : Rearranged parts parts') : Varies ⟨parts⟩ ⟨parts'⟩
  | part (front : List Simple) {s s' : Simple} (back : List Simple) (h : s.Varies s') :
      Varies ⟨front ++ s :: back⟩ ⟨front ++ s' :: back⟩

/-- Links with a compound varied, at the nearest of them or further out. -/
inductive Link.Varies : List Link → List Link → Prop where
  | compound (comb : Combinator) {far far' : Compound} (links : List Link) (h : far.Varies far') :
      Varies (⟨comb, far⟩ :: links) (⟨comb, far'⟩ :: links)
  | further (link : Link) {links links' : List Link} (h : Varies links links') :
      Varies (link :: links) (link :: links')

/-- A clause with a compound varied, its subject or one among its links. -/
inductive Selector.Varies : Selector → Selector → Prop where
  | subject {c c' : Compound} (links : List Link) (h : c.Varies c') : Varies ⟨c, links⟩ ⟨c', links⟩
  | links (c : Compound) {links links' : List Link} (h : Link.Varies links links') :
      Varies ⟨c, links⟩ ⟨c, links'⟩

/-- A list with its clauses rearranged, or with one of them varied. -/
inductive SelectorList.Varies : SelectorList → SelectorList → Prop where
  | rearrange {clauses clauses' : List Selector} (h : Rearranged clauses clauses') :
      Varies ⟨clauses⟩ ⟨clauses'⟩
  | clause (front : List Selector) {sel sel' : Selector} (back : List Selector)
      (h : sel.Varies sel') : Varies ⟨front ++ sel :: back⟩ ⟨front ++ sel' :: back⟩

namespace Rearranged

variable {α : Type} {l l' : List α}

theorem mem_iff (h : Rearranged l l') {a : α} : a ∈ l ↔ a ∈ l' := by
  cases h with
  | perm h => exact h.mem_iff
  | again front back hb =>
      rw [List.perm_middle.mem_iff, List.mem_cons]
      exact ⟨.inr, fun ha => ha.elim (fun heq => heq ▸ hb) id⟩

/-- Whether all members have a property is a question about the members. -/
theorem all_eq (h : Rearranged l l') (p : α → Bool) : l.all p = l'.all p := by
  rw [Bool.eq_iff_iff, List.all_eq_true, List.all_eq_true]
  exact forall_congr' fun a => imp_congr_left h.mem_iff

theorem any_eq (h : Rearranged l l') (p : α → Bool) : l.any p = l'.any p := by
  rw [Bool.eq_iff_iff, List.any_eq_true, List.any_eq_true]
  exact exists_congr fun a => and_congr_left fun _ => h.mem_iff

end Rearranged

namespace Text

theorem Capital.toLower_eq {c d : Char} (h : Capital c d) : c.toLower = d.toLower := by
  rcases h with ⟨hfirst, hlast, hd⟩
  have hge : 65 ≤ c.toNat := hfirst
  have hle : c.toNat ≤ 90 := hlast
  have hcapital : c.val ≥ 'A'.val ∧ c.val ≤ 'Z'.val := ⟨hfirst, hlast⟩
  -- The small letter is behind all capital ones, and folding leaves it as it is.
  have hsmall : ¬ (d.val ≥ 'A'.val ∧ d.val ≤ 'Z'.val) := by
    rintro ⟨_, hdle⟩
    have hdle' : d.toNat ≤ 90 := hdle
    omega
  have hfold : (c.val + 32).toNat = d.val.toNat := by
    have hlt : c.val.toNat + 32 < 2 ^ 32 := by
      change c.toNat + 32 < 2 ^ 32
      omega
    rw [UInt32.toNat_add]
    exact (Nat.mod_eq_of_lt hlt).trans hd.symm
  have hsame : d.toLower = d := dif_neg hsmall
  rw [hsame]
  exact (dif_pos hcapital).trans (Char.ext (UInt32.toNat_inj.mp hfold))

/-- Texts that differ in the case of letters are the same once folded. -/
theorem SameLetters.map_toLower_eq {cs ds : List Char} (h : SameLetters cs ds) :
    cs.map Char.toLower = ds.map Char.toLower := by
  induction h with
  | nil => rfl
  | @cons c d cs ds hcd _ ih =>
      have hfold : c.toLower = d.toLower := by
        rcases hcd with rfl | hcd | hcd
        · rfl
        · exact hcd.toLower_eq
        · exact hcd.toLower_eq.symm
      rw [List.map_cons, List.map_cons, hfold, ih]

end Text

section Matching

variable {t : Tree} {n : NodeId}

theorem Simple.Varies.holdsOf_eq {s s' : Simple} (h : s.Varies s') (e : Element) :
    s.holdsOf e = s'.holdsOf e := by
  cases h with
  | tag h =>
      rw [Simple.holdsOf, Simple.holdsOf, Bool.eq_iff_iff, Text.sameButCase_iff,
        Text.sameButCase_iff, h.map_toLower_eq]

theorem Compound.Varies.matches_eq {c c' : Compound} (h : c.Varies c') :
    c.matches t n = c'.matches t n := by
  rw [Compound.matches, Compound.matches]
  congr 1
  funext e
  cases h with
  | rearrange h => exact h.all_eq _
  | part front back h =>
      rw [List.all_append, List.all_append, List.all_cons, List.all_cons, h.holdsOf_eq]

/-- Links are satisfied by the same candidates before and after a change. -/
theorem Link.Varies.satisfied_eq {links links' : List Link} (h : Varies links links') :
    Link.satisfied t links n = Link.satisfied t links' n := by
  -- The combinators are the same all along, so both chains walk to the same candidates.
  induction h generalizing n with
  | compound comb links h => simp only [satisfied, h.matches_eq]
  | further link _ ih => simp only [satisfied, ih]

theorem Selector.Varies.fits_eq {sel sel' : Selector} (h : sel.Varies sel') :
    sel.fits t n = sel'.fits t n := by
  rw [Selector.fits, Selector.fits]
  cases h with
  | subject links h => rw [h.matches_eq]
  | links c h => rw [h.satisfied_eq]

theorem SelectorList.Varies.matches_eq {list list' : SelectorList} (h : list.Varies list') :
    list.matches t n = list'.matches t n := by
  rw [SelectorList.matches_eq_any, SelectorList.matches_eq_any]
  cases h with
  | rearrange h => exact h.any_eq _
  | clause front back h =>
      rw [List.any_append, List.any_append, List.any_cons, List.any_cons,
        Selector.matches_eq_fits, Selector.matches_eq_fits, h.fits_eq]

end Matching

/-- Lists that match the same nodes find the same, in the same order. -/
theorem SelectorList.query_eq_of_matches_eq {t : Tree} {list list' : SelectorList}
    (h : ∀ n, list.matches t n = list'.matches t n) (root : NodeId) :
    list.queryAll t root = list'.queryAll t root ∧
      list.queryFirst? t root = list'.queryFirst? t root := by
  have heq : list.matches t = list'.matches t := funext h
  constructor
  · rw [queryAll_eq_eraseDups, queryAll_eq_eraseDups, heq]
  · rw [queryFirst?_eq_find?, queryFirst?_eq_find?, heq]

/-- Matching and queries do not depend on how a selector is written. Where one list
    comes from another by any number of changes, made or taken back, both match the
    same nodes of any tree, and queries from any root find the same nodes in the same
    order and the same first one. -/
theorem query_eq_of_variant {list list' : SelectorList}
    (h : Relation.EqvGen SelectorList.Varies list list') (t : Tree) :
    (∀ n, list.matches t n = list'.matches t n) ∧
    ∀ root, list.queryAll t root = list'.queryAll t root ∧
      list.queryFirst? t root = list'.queryFirst? t root := by
  have hmatches : ∀ n, list.matches t n = list'.matches t n := by
    intro n
    induction h with
    | rel _ _ hstep => exact hstep.matches_eq
    | refl => rfl
    | symm _ _ _ ih => exact ih.symm
    | trans _ _ _ _ _ ih ih' => exact ih.trans ih'
  exact ⟨hmatches, SelectorList.query_eq_of_matches_eq hmatches⟩

/-- The clause `b`. -/
def clauseB : Selector := ⟨⟨[.tag "b"]⟩, []⟩

/-- The clause `a c ~ e`. -/
def clauseACE : Selector :=
  ⟨⟨[.tag "e"]⟩, [⟨.sibling, ⟨[.tag "c"]⟩⟩, ⟨.descendant, ⟨[.tag "a"]⟩⟩]⟩

/-- The same with a capital letter and with the condition on the subject said twice. -/
def variedACE : Selector :=
  ⟨⟨[.tag "e", .tag "e"]⟩, [⟨.sibling, ⟨[.tag "C"]⟩⟩, ⟨.descendant, ⟨[.tag "a"]⟩⟩]⟩

theorem clauses_vary :
    Relation.EqvGen SelectorList.Varies ⟨[clauseB, clauseACE]⟩ ⟨[variedACE, clauseB, clauseB]⟩ := by
  have hcase : Simple.Varies (.tag "c") (.tag "C") :=
    .tag (.cons (.inr (.inr ⟨by decide, by decide, by decide⟩)) .nil)
  have hletter : clauseACE.Varies ⟨⟨[.tag "e"]⟩, variedACE.links⟩ :=
    .links _ (.compound _ _ (.part [] [] hcase))
  have htwice : Selector.Varies ⟨⟨[.tag "e"]⟩, variedACE.links⟩ variedACE :=
    .subject _ (.rearrange (.again [] [_] (.head _)))
  have hswap : SelectorList.Varies ⟨[clauseB, clauseACE]⟩ ⟨[clauseACE, clauseB]⟩ :=
    .rearrange (.perm (.swap _ _ _))
  have hagain : SelectorList.Varies ⟨[clauseACE, clauseB]⟩ ⟨[clauseACE, clauseB, clauseB]⟩ :=
    .rearrange (.again [clauseACE] [clauseB] (.tail _ (.head _)))
  exact ((Relation.EqvGen.rel _ _ hswap).trans _ _ _ (.rel _ _ hagain)).trans _ _ _
    ((Relation.EqvGen.rel _ _ (.clause [] [clauseB, clauseB] hletter)).trans _ _ _
      (.rel _ _ (.clause [] [clauseB, clauseB] htwice)))

/-- Said differently, the query finds the same three elements, the first of them by a
    clause that stood in front before. -/
theorem nestedElements_finds_same :
    Relation.EqvGen SelectorList.Varies ⟨[clauseB, clauseACE]⟩ ⟨[variedACE, clauseB, clauseB]⟩ ∧
    SelectorList.queryAll ⟨[variedACE, clauseB, clauseB]⟩ nestedElements 0 = [2, 4, 7] ∧
    SelectorList.queryFirst? ⟨[variedACE, clauseB, clauseB]⟩ nestedElements 0 = some 2 := by
  have hall : SelectorList.queryAll ⟨[clauseB, clauseACE]⟩ nestedElements 0 = [2, 4, 7] := by
    decide +kernel
  have hfirst : SelectorList.queryFirst? ⟨[clauseB, clauseACE]⟩ nestedElements 0 = some 2 := by
    decide +kernel
  have hquery := (query_eq_of_variant clauses_vary nestedElements).2 0
  exact ⟨clauses_vary, hquery.1.symm.trans hall, hquery.2.symm.trans hfirst⟩

end DomQuery
