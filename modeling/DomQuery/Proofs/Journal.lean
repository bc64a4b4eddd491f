import DomQuery.Proofs.Inquiry
import DomQuery.Proofs.Matching

/-!
# Every Question Once

What a memo holds while nodes are being checked, at every moment of it.

A question is looked up first. If something is known about it, that is the answer,
and no candidate is asked about. If nothing is known, it is opened: its candidates
are gone through, which may open and answer further questions, and only then is
its answer kept. To open a question is therefore the same as to work it out. A
`Journal` is a memo together with the questions that were opened so far, and a
`Moment` is a journal together with what is left of the computation. `Moment.Step`
makes the next access.

At every moment three things hold. What is known is right; no question was
opened twice; and where an answer is about to be kept, nothing is known about
its question yet. The last of them is the one that has to be argued for, since
any number of answers may have been kept between opening a question and
answering it. All of these are of a smaller depth than the question itself, and
that is what the scope of a computation is for: the questions that it may open.
The depth is counted down in step with the links, so holding some links opens
questions about that many links at most, and what lies behind the nearest link
of a question stays below it. `Inquiry.Answers` carries this through the ways in
which computations are put together, as `Memo.Yields` does for what they return.

## Main definitions

* `Journal`: A memo and the questions opened so far.
* `Journal.Orderly`: Known answers are right, and no question was opened twice.
* `Journal.Extends`, `Journal.Free`: What a scope of questions leaves as it was.
* `Moment`, `Moment.Step`: A computation part way through, and its next access.
* `Inquiry.Proper`: All moments from here on are orderly.
* `Inquiry.Answers`: A value that a computation comes to properly.

## Theorems

* `Inquiry.Proper.step`, `Inquiry.Proper.reaches`: One access, and any number.
* `Inquiry.Proper.known_step`, `Inquiry.Proper.known_reaches`: What is known stays
  known.
* `Journal.Orderly.look`, `Journal.Extends.answered`: A question opened, and answered.
* `Inquiry.Answers.bind`, `Inquiry.Answers.anyM`: Computations put together.
* `Link.answers_inquiry`, `SelectorList.Consults.answers`: Matching is proper.
* `Memo.Sound.tells`: What a known answer says.
* `answers_right_and_opened_once`: All of it for any number of checks.
-/

namespace DomQuery

/-- A memo, and the questions that were opened so far, the latest first. -/
structure Journal where
  memo : Memo
  /-- The questions that were looked up in vain. Holding a link goes on to its
      candidates where it finds nothing and nowhere else, so a question is here as
      often as it was worked out. -/
  opened : List Question

namespace Journal

variable {t : Tree} {clauses : List Selector} {scope scope' : Question → Prop} {j j' j'' : Journal}
  {q : Question} {answer : Bool}

/-- The journal of one who has not been asked yet. -/
def blank : Journal := ⟨.blank, []⟩

/-- The journal after a question was looked up. One about which nothing is known is
    opened. -/
def look (j : Journal) (q : Question) : Journal :=
  match j.memo[q]? with
  | some _ => j
  | none => { j with opened := q :: j.opened }

/-- The journal after an answer was kept. -/
def keep (j : Journal) (q : Question) (answer : Bool) : Journal :=
  { j with memo := j.memo.keep q answer }

theorem look_of_known (h : j.memo[q]? = some answer) : j.look q = j := by
  rw [look, h]

theorem look_of_unknown (h : j.memo[q]? = none) :
    j.look q = { j with opened := q :: j.opened } := by
  rw [look, h]

theorem memo_look (j : Journal) (q : Question) : (j.look q).memo = j.memo := by
  rw [look]
  rcases j.memo[q]? with _ | answer
  · rfl
  · rfl

/-- An answer to another question changes nothing. -/
theorem known_keep {r : Question} {found : Bool} (hunknown : j.memo[q]? = none)
    (hr : j.memo[r]? = some found) : (j.keep q answer).memo[r]? = some found := by
  have hne : q ≠ r := by
    rintro rfl
    rw [hunknown] at hr
    cases hr
  rw [keep, Memo.getElem?_keep, if_neg hne]
  exact hr

/-- Only right answers are known, and no question was opened twice. -/
structure Orderly (t : Tree) (clauses : List Selector) (j : Journal) : Prop where
  sound : Memo.Sound t clauses j.memo
  once : j.opened.Nodup

/-- No question of the scope is open, that is opened and not answered yet. -/
def Free (scope : Question → Prop) (j : Journal) : Prop :=
  ∀ q ∈ j.opened, j.memo[q]? = none → ¬ scope q

/-- What lies between two journals when only questions of a scope were opened in
    between, and all of them answered. -/
structure Extends (scope : Question → Prop) (j j' : Journal) : Prop where
  known : ∀ (q : Question) (answer : Bool), j.memo[q]? = some answer → j'.memo[q]? = some answer
  outside : ∀ q : Question, ¬ scope q → j'.memo[q]? = j.memo[q]?
  settled : ∀ q ∈ j'.opened, q ∈ j.opened ∨ j'.memo[q]? ≠ none

theorem Free.mono (h : j.Free scope') (hsub : ∀ q, scope q → scope' q) : j.Free scope :=
  fun q hq hunknown hscope => h q hq hunknown (hsub q hscope)

/-- A question of the scope is not open yet, so it is not opened again. -/
theorem Orderly.look (h : j.Orderly t clauses) (hfree : j.Free scope) (hq : scope q) :
    (j.look q).Orderly t clauses := by
  rcases hknown : j.memo[q]? with _ | answer
  · rw [look_of_unknown hknown]
    exact ⟨h.sound, List.nodup_cons.mpr ⟨fun hmem => hfree q hmem hknown hq, h.once⟩⟩
  · rw [look_of_known hknown]
    exact h

/-- No question of a narrower scope is open behind one that is not in it. -/
theorem Free.look (h : j.Free scope') (hsub : ∀ r, scope r → scope' r) (hout : ¬ scope q) :
    (j.look q).Free scope := by
  rcases hknown : j.memo[q]? with _ | answer
  · rw [look_of_unknown hknown]
    intro r hr hunknown hscope
    rcases List.mem_cons.mp hr with rfl | hopened
    · exact hout hscope
    · exact h r hopened hunknown (hsub r hscope)
  · rw [look_of_known hknown]
    exact h.mono hsub

namespace Extends

theorem refl (j : Journal) : j.Extends scope j :=
  ⟨fun _ _ h => h, fun _ _ => rfl, fun _ h => .inl h⟩

theorem trans (h : j.Extends scope j') (h' : j'.Extends scope j'') : j.Extends scope j'' := by
  refine ⟨fun q answer hq => h'.known q answer (h.known q answer hq),
    fun q hq => (h'.outside q hq).trans (h.outside q hq), fun q hq => ?_⟩
  rcases h'.settled q hq with hmid | hsettled
  · rcases h.settled q hmid with hold | hsettled
    · exact .inl hold
    · -- What was answered on the way to the middle is still known at the end.
      rcases hknown : j'.memo[q]? with _ | answer
      · exact absurd hknown hsettled
      · rw [h'.known q answer hknown]
        exact .inr (Option.some_ne_none answer)
  · exact .inr hsettled

theorem mono (h : j.Extends scope j') (hsub : ∀ q, scope q → scope' q) : j.Extends scope' j' :=
  ⟨h.known, fun q hq => h.outside q fun hscope => hq (hsub q hscope), h.settled⟩

/-- Nothing is open afterwards that was not open before. -/
theorem free (h : j.Extends scope j') (hfree : j.Free scope) : j'.Free scope := by
  intro q hq hunknown
  rcases h.settled q hq with hold | hsettled
  · refine hfree q hold ?_
    rcases hknown : j.memo[q]? with _ | answer
    · rfl
    · rw [h.known q answer hknown] at hunknown
      cases hunknown
  · exact absurd hunknown hsettled

/-- A question is opened, and others of a narrower scope are opened and answered,
    which tells nothing about it. -/
theorem unknown (h : (j.look q).Extends scope j') (hunknown : j.memo[q]? = none)
    (hout : ¬ scope q) : j'.memo[q]? = none := by
  rw [h.outside q hout, memo_look]
  exact hunknown

/-- A question is opened, others of a narrower scope are opened and answered, and
    then its own answer is kept. -/
theorem answered (h : (j.look q).Extends scope j') (hunknown : j.memo[q]? = none)
    (hout : ¬ scope q) (hq : scope' q) (hsub : ∀ r, scope r → scope' r) :
    j.Extends scope' (j'.keep q answer) := by
  have hopen : j'.memo[q]? = none := h.unknown hunknown hout
  rw [look_of_unknown hunknown] at h
  refine ⟨fun r found hr => known_keep hopen (h.known r found hr), fun r hr => ?_, fun r hr => ?_⟩
  · have hne : q ≠ r := fun heq => hr (heq ▸ hq)
    rw [keep, Memo.getElem?_keep, if_neg hne]
    exact h.outside r fun hscope => hr (hsub r hscope)
  · rw [keep, Memo.getElem?_keep]
    by_cases heq : q = r
    · rw [if_pos heq]
      exact .inr (Option.some_ne_none answer)
    · rw [if_neg heq]
      refine (h.settled r hr).imp_left fun hopened => ?_
      exact (List.mem_cons.mp hopened).resolve_left (Ne.symm heq)

end Extends

end Journal

/-- A computation part way through. -/
structure Moment (α : Type) where
  journal : Journal
  rest : Inquiry α

namespace Moment

variable {α : Type}

/-- Before the first access, when nothing is known. -/
def start (p : Inquiry α) : Moment α := ⟨.blank, p⟩

/-- The next access is made. -/
inductive Step : Moment α → Moment α → Prop where
  | look {j : Journal} {q : Question} {next : Option Bool → Inquiry α} :
      Step ⟨j, .look q next⟩ ⟨j.look q, next j.memo[q]?⟩
  | keep {j : Journal} {q : Question} {answer : Bool} {next : Inquiry α} :
      Step ⟨j, .keep q answer next⟩ ⟨j.keep q answer, next⟩

/-- Some number of accesses is made. -/
def Reaches : Moment α → Moment α → Prop := Relation.ReflTransGen Step

/-- The accesses come to an end, with what the computation returns and the memo
    that it leaves. -/
theorem reaches_done (p : Inquiry α) (j : Journal) :
    ∃ last, Reaches ⟨j, p⟩ ⟨last, .done (p.toStateM.run j.memo).1⟩ ∧
      last.memo = (p.toStateM.run j.memo).2 := by
  induction p generalizing j with
  | done a => exact ⟨j, .refl, rfl⟩
  | look q next ih =>
      rcases ih j.memo[q]? (j.look q) with ⟨last, hreach, hlast⟩
      rw [j.memo_look q] at hreach hlast
      exact ⟨last, .head .look hreach, hlast⟩
  | keep q answer next ih =>
      rcases ih (j.keep q answer) with ⟨last, hreach, hlast⟩
      exact ⟨last, .head .keep hreach, hlast⟩

end Moment

namespace Inquiry

variable {α β : Type} {t : Tree} {clauses : List Selector} {scope scope' : Question → Prop}

/-- From the journal on all moments are orderly, answers are kept to questions only
    about which nothing is known, and the end is as told. -/
def Proper (t : Tree) (clauses : List Selector) (post : α → Journal → Prop) :
    Inquiry α → Journal → Prop
  | done a, j => j.Orderly t clauses ∧ post a j
  | look q next, j => j.Orderly t clauses ∧ Proper t clauses post (next j.memo[q]?) (j.look q)
  | keep q answer next, j =>
    j.Orderly t clauses ∧ j.memo[q]? = none ∧ Proper t clauses post next (j.keep q answer)

namespace Proper

variable {post post' : α → Journal → Prop} {p : Inquiry α} {j : Journal} {now later : Moment α}
  {q : Question} {answer : Bool}

theorem orderly (h : p.Proper t clauses post j) : j.Orderly t clauses := by
  cases p with
  | done a => exact h.1
  | look q next => exact h.1
  | keep q answer next => exact h.1

theorem mono (h : p.Proper t clauses post j) (hpost : ∀ a j', post a j' → post' a j') :
    p.Proper t clauses post' j := by
  induction p generalizing j with
  | done a => exact ⟨h.1, hpost a j h.2⟩
  | look q next ih => exact ⟨h.1, ih _ h.2⟩
  | keep q answer next ih => exact ⟨h.1, h.2.1, ih h.2.2⟩

theorem bind {post' : β → Journal → Prop} {f : α → Inquiry β} (h : p.Proper t clauses post j)
    (hnext : ∀ a j', j'.Orderly t clauses → post a j' → (f a).Proper t clauses post' j') :
    (p >>= f).Proper t clauses post' j := by
  induction p generalizing j with
  | done a => exact hnext a j h.1 h.2
  | look q next ih => exact ⟨h.1, ih _ h.2⟩
  | keep q answer next ih => exact ⟨h.1, h.2.1, ih h.2.2⟩

/-- The next access keeps what is left proper. -/
theorem step (h : now.rest.Proper t clauses post now.journal) (hstep : now.Step later) :
    later.rest.Proper t clauses post later.journal := by
  cases hstep with
  | look => exact h.2
  | keep => exact h.2.2

theorem reaches (h : now.rest.Proper t clauses post now.journal) (hreach : now.Reaches later) :
    later.rest.Proper t clauses post later.journal := by
  induction hreach with
  | refl => exact h
  | tail _ hstep ih => exact ih.step hstep

/-- The next access neither takes away nor changes what is known. -/
theorem known_step (h : now.rest.Proper t clauses post now.journal) (hstep : now.Step later)
    (hknown : now.journal.memo[q]? = some answer) : later.journal.memo[q]? = some answer := by
  cases hstep with
  | @look j r next =>
      show (j.look r).memo[q]? = some answer
      rw [j.memo_look r]
      exact hknown
  | keep => exact Journal.known_keep h.2.1 hknown

theorem known_reaches (h : now.rest.Proper t clauses post now.journal)
    (hreach : now.Reaches later) (hknown : now.journal.memo[q]? = some answer) :
    later.journal.memo[q]? = some answer := by
  induction hreach with
  | refl => exact hknown
  | tail hreach hstep ih => exact (h.reaches hreach).known_step hstep ih

end Proper

/-- From every orderly journal in which no question of the scope is open, the
    computation comes to the value properly, and opens and answers questions of the
    scope only. -/
def Answers (t : Tree) (clauses : List Selector) (scope : Question → Prop) (p : Inquiry α)
    (a : α) : Prop :=
  ∀ j : Journal, j.Orderly t clauses → j.Free scope →
    p.Proper t clauses (fun b j' => b = a ∧ j.Extends scope j') j

namespace Answers

theorem pure (a : α) : Answers t clauses scope (Pure.pure a) a :=
  fun j hj _ => ⟨hj, rfl, .refl j⟩

theorem bind {p : Inquiry α} {a : α} {f : α → Inquiry β} {b : β}
    (hp : Answers t clauses scope p a) (hf : Answers t clauses scope (f a) b) :
    Answers t clauses scope (p >>= f) b := by
  intro j hj hfree
  refine (hp j hj hfree).bind ?_
  rintro _ j' hj' ⟨rfl, hext⟩
  exact (hf j' hj' (hext.free hfree)).mono fun _ _ h => ⟨h.1, hext.trans h.2⟩

theorem mono {p : Inquiry α} {a : α} (hp : Answers t clauses scope p a)
    (hsub : ∀ q, scope q → scope' q) : Answers t clauses scope' p a :=
  fun j hj hfree => (hp j hj (hfree.mono hsub)).mono fun _ _ h => ⟨h.1, h.2.mono hsub⟩

theorem anyM {ask : α → Inquiry Bool} {p : α → Bool} {xs : List α}
    (hask : ∀ x ∈ xs, Answers t clauses scope (ask x) (p x)) :
    Answers t clauses scope (xs.anyM ask) (xs.any p) := by
  induction xs with
  | nil => exact pure false
  | cons x xs ih =>
      have hrest := ih fun y hy => hask y (List.mem_cons_of_mem _ hy)
      rw [List.anyM, List.any_cons]
      refine bind (hask x List.mem_cons_self) ?_
      cases p x with
      | true => exact pure true
      | false => exact hrest

end Answers

end Inquiry

/-- Holding the outermost links of a clause at their depth opens questions of that
    depth at most, and is proper. -/
theorem Link.answers_inquiry {t : Tree} {clauses : List Selector} {clause depth : Nat}
    {sel : Selector} {links : List Link} {n : NodeId} (hsel : clauses[clause]? = some sel)
    (hlinks : links <:+ sel.links) (hdepth : links.length = depth) :
    Inquiry.Answers t clauses (fun q => q.depth ≤ depth) (inquiry t clause depth links n)
      (satisfied t links n) := by
  induction links generalizing depth n with
  | nil => exact Inquiry.Answers.pure true
  | cons link links ih =>
      rcases link with ⟨comb, far⟩
      have hrest : links <:+ sel.links := (List.suffix_cons _ links).trans hlinks
      have habout : Question.About clauses ⟨clause, depth, n⟩ (⟨comb, far⟩ :: links) :=
        ⟨List.cons_ne_nil _ _, hdepth, sel, hsel, hlinks⟩
      have hask : Inquiry.Answers t clauses (fun q => q.depth ≤ depth - 1)
          ((t.related comb n).anyM fun m =>
            if far.matches t m then inquiry t clause (depth - 1) links m else pure false)
          (satisfied t (⟨comb, far⟩ :: links) n) := by
        refine Inquiry.Answers.anyM fun m _ => ?_
        cases hfar : far.matches t m with
        | true => exact ih hrest (Nat.eq_sub_of_add_eq hdepth)
        | false => exact Inquiry.Answers.pure false
      -- There is a link left, so the depth is not zero and does go down.
      have hout : ¬ depth ≤ depth - 1 :=
        Nat.not_le.mpr (Nat.sub_one_lt (hdepth ▸ Nat.succ_ne_zero links.length))
      have hsub : ∀ q : Question, q.depth ≤ depth - 1 → q.depth ≤ depth :=
        fun q hle => Nat.le_trans hle (Nat.sub_le depth 1)
      intro j hj hfree
      rw [inquiry]
      refine ⟨hj, ?_⟩
      rcases hknown : j.memo[(⟨clause, depth, n⟩ : Question)]? with _ | answer
      · -- The question is in the scope, so it is not open yet, and its candidates are
        -- asked at a smaller depth than it has.
        refine (hask _ (hj.look hfree (Nat.le_refl depth)) (hfree.look hsub hout)).bind ?_
        rintro _ j' hj' ⟨rfl, hext⟩
        exact ⟨hj', hext.unknown hknown hout, ⟨hj'.sound.keep habout, hj'.once⟩, rfl,
          hext.answered hknown hout (Nat.le_refl depth) hsub⟩
      · rw [Journal.look_of_known hknown]
        exact ⟨hj, hj.sound.answer_eq habout hknown, .refl j⟩

theorem Selector.answers_inquiry {t : Tree} {clauses : List Selector} {clause : Nat}
    {sel : Selector} (hsel : clauses[clause]? = some sel) (n : NodeId) :
    Inquiry.Answers t clauses (fun q => q.depth ≤ sel.depth) (sel.inquiry t clause n)
      (sel.fits t n) := by
  rw [Selector.inquiry, Selector.fits]
  cases sel.subject.matches t n with
  | true => exact Link.answers_inquiry hsel List.suffix_rfl rfl
  | false => exact Inquiry.Answers.pure false

/-- Between two checks no question is open, so there a scope excludes nothing. -/
theorem SelectorList.answers_inquiry (t : Tree) (list : SelectorList) (n : NodeId) :
    Inquiry.Answers t list.clauses (fun _ => True) (list.inquiry t n)
      (list.clauses.zipIdx.any fun p => p.1.fits t n) :=
  Inquiry.Answers.anyM fun _ hp =>
    (Selector.answers_inquiry (List.mem_zipIdx_iff_getElem?.mp hp) n).mono fun _ _ => trivial

theorem SelectorList.Consults.answers {t : Tree} {list : SelectorList} {α : Type} {p : Inquiry α}
    {act : StateM Memo α} (h : list.Consults t p act) :
    ∃ a, Inquiry.Answers t list.clauses (fun _ => True) p a := by
  induction h with
  | pure a => exact ⟨a, .pure a⟩
  | check n => exact ⟨_, list.answers_inquiry t n⟩
  | bind _ _ ihfirst ihnext =>
      -- Whatever might come next, only what comes after this one value does.
      rcases ihfirst with ⟨a, ha⟩
      rcases ihnext a with ⟨b, hb⟩
      exact ⟨b, ha.bind hb⟩

namespace Selector

theorem depth_le_depth_extend (sel : Selector) (steps : List (Combinator × Compound)) :
    sel.depth ≤ (sel.extend steps).depth := by
  induction steps generalizing sel with
  | nil => exact Nat.le_refl _
  | cons step steps ih => exact Nat.le_trans (Nat.le_succ _) (ih (sel.combine step.1 step.2))

/-- Some outermost links of a clause are those of what the clause starts with. -/
theorem exists_extend_of_suffix {sel : Selector} {comb : Combinator} {far : Compound}
    {links : List Link} (h : ⟨comb, far⟩ :: links <:+ sel.links) :
    ∃ right steps, sel = extend (Complex.toSelector ⟨⟨far, links⟩, comb, right⟩) steps := by
  rcases h with ⟨front, hfront⟩
  -- The links in front are what the clause is extended by, and the first of them is
  -- the last to come.
  induction front generalizing sel with
  | nil =>
      rcases sel with ⟨subject, links'⟩
      cases hfront
      exact ⟨subject, [], rfl⟩
  | cons link front ih =>
      rcases sel with ⟨subject, links'⟩
      cases hfront
      rcases @ih ⟨link.compound, front ++ ⟨comb, far⟩ :: links⟩ rfl with ⟨right, steps, hsteps⟩
      refine ⟨right, steps ++ [(link.combinator, subject)], ?_⟩
      rw [extend_concat, ← hsteps]
      rfl

end Selector

/-- A known answer is about the rightmost link of what some clause starts with, and
    says whether an element related to the node fits what is left of that link. -/
theorem Memo.Sound.tells {t : Tree} (ht : t.Acyclic) {clauses : List Selector} {memo : Memo}
    (h : Memo.Sound t clauses memo) {q : Question} {answer : Bool}
    (hknown : memo[q]? = some answer) :
    ∃ sel, clauses[q.clause]? = some sel ∧ 1 ≤ q.depth ∧ q.depth ≤ sel.depth ∧
      ∃ (c : Complex) (steps : List (Combinator × Compound)),
        sel = c.toSelector.extend steps ∧ c.toSelector.depth = q.depth ∧
        (answer = true ↔ ∃ m, t.Relates c.combinator m q.node ∧ c.left.fits t m = true) := by
  rcases h q answer hknown with ⟨links, ⟨hne, hlen, sel, hsel, hlinks⟩, hanswer⟩
  rcases links with _ | ⟨⟨comb, far⟩, links⟩
  · exact absurd rfl hne
  · rcases Selector.exists_extend_of_suffix hlinks with ⟨right, steps, hsteps⟩
    have hdepth : (Complex.toSelector ⟨⟨far, links⟩, comb, right⟩).depth = q.depth := hlen
    refine ⟨sel, hsel, ?_, ?_, _, steps, hsteps, hdepth, ?_⟩
    · rw [← hlen]
      exact Nat.succ_pos _
    · rw [← hdepth, hsteps]
      exact Selector.depth_le_depth_extend _ steps
    · simp only [hanswer, Link.satisfied_cons, ht.mem_related_iff, Selector.fits, Bool.and_eq_true]

/-- A memo at every moment while nodes are checked against a list, one after the
    other, starting from nothing. The accesses are those of the checks and come to
    their end with their answers. Whatever is known is about the links that some
    clause starts with and is what these come to afresh; it stays known as it is;
    where an answer is about to be kept, nothing is known about its question; and no
    question was opened twice. Queries are such checks. -/
theorem answers_right_and_opened_once {t : Tree} (ht : t.Acyclic) (list : SelectorList) :
    (∀ nodes : List NodeId,
      list.Consults t (nodes.mapM (list.inquiry t)) (nodes.mapM (list.check t)) ∧
      list.Consults t (nodes.filterM (list.inquiry t)) (nodes.filterM (list.check t)) ∧
      list.Consults t (nodes.findM? (list.inquiry t)) (nodes.findM? (list.check t))) ∧
    ∀ {α : Type} {p : Inquiry α} {act : StateM Memo α}, list.Consults t p act →
      p.toStateM = act ∧
      (∃ last, Moment.Reaches (.start p) ⟨last, .done (act.run .blank).1⟩ ∧
        last.memo = (act.run .blank).2) ∧
      ∀ now, Moment.Reaches (.start p) now →
        (∀ (q : Question) (answer : Bool), now.journal.memo[q]? = some answer →
          ∃ sel, list.clauses[q.clause]? = some sel ∧ 1 ≤ q.depth ∧ q.depth ≤ sel.depth ∧
            ∃ (c : Complex) (steps : List (Combinator × Compound)),
              sel = c.toSelector.extend steps ∧ c.toSelector.depth = q.depth ∧
              (answer = true ↔ ∃ m, t.Relates c.combinator m q.node ∧ c.left.fits t m = true)) ∧
        (∀ later, now.Reaches later → ∀ (q : Question) (answer : Bool),
          now.journal.memo[q]? = some answer → later.journal.memo[q]? = some answer) ∧
        (∀ q answer next, now.rest = .keep q answer next → now.journal.memo[q]? = none) ∧
        now.journal.opened.Nodup := by
  refine ⟨fun nodes => ⟨.mapM nodes, .filterM nodes, .findM? nodes⟩, fun {α p act} hconsults => ?_⟩
  rcases hconsults.answers with ⟨a, ha⟩
  have hstart : p.Proper t list.clauses (fun b j => b = a ∧ Journal.Extends _ .blank j) .blank :=
    ha .blank ⟨Memo.Sound.blank, List.nodup_nil⟩ fun q hq => absurd hq List.not_mem_nil
  refine ⟨hconsults.toStateM_eq, ?_, fun now hnow => ?_⟩
  · rw [← hconsults.toStateM_eq]
    exact Moment.reaches_done p .blank
  · have hproper := Inquiry.Proper.reaches hstart hnow
    refine ⟨fun q answer hknown => hproper.orderly.sound.tells ht hknown,
      fun later hlater q answer hknown => hproper.known_reaches hlater hknown,
      fun q answer next hrest => ?_, hproper.orderly.once⟩
    rw [hrest] at hproper
    exact hproper.2.1

/-- The clause `a > b c ~ e` checked at `e` twice. The nearest `b` above `c` is no child
    of an `a`, which is known afterwards as well, and nothing is asked again. -/
theorem nestedElements_opened_once : nestedElements.Acyclic ∧
    ∃ last : Journal,
      Moment.Reaches (.start ([7, 7].mapM (SelectorList.inquiry nestedElements
        ⟨[⟨⟨[.tag "e"]⟩, [⟨.sibling, ⟨[.tag "c"]⟩⟩, ⟨.descendant, ⟨[.tag "b"]⟩⟩,
          ⟨.child, ⟨[.tag "a"]⟩⟩]⟩]⟩))) ⟨last, .done [true, true]⟩ ∧
      last.memo[(⟨0, 1, 4⟩ : Question)]? = some false ∧
      last.memo[(⟨0, 3, 7⟩ : Question)]? = some true ∧ last.opened.Nodup := by
  have hall := answers_right_and_opened_once nestedElements_acyclic
    ⟨[⟨⟨[.tag "e"]⟩, [⟨.sibling, ⟨[.tag "c"]⟩⟩, ⟨.descendant, ⟨[.tag "b"]⟩⟩,
      ⟨.child, ⟨[.tag "a"]⟩⟩]⟩]⟩
  have hchecks := hall.2 (hall.1 [7, 7]).1
  rcases hchecks.2.1 with ⟨last, hreach, hmemo⟩
  refine ⟨nestedElements_acyclic, last, hreach, ?_, ?_, (hchecks.2.2 _ hreach).2.2.2⟩
  · rw [hmemo]
    decide
  · rw [hmemo]
    decide

end DomQuery
