import DomQuery.Proofs.Parsing
import Mathlib.Data.List.TakeWhile

/-!
# Where Reading Stops

What a failure says about its text, for every text and every cause.

A failure is a cut: the text in front of its place, and the text from there on.
In front stands something that can still become a selector list, so the reader
has not gone past a place where the text was lost already. How it can become
one depends on the cause. Where a compound is missing, any compound put there
completes the text, within the limit on combinators too. Where a character fits
nowhere, or one combinator is too many, the front part is a selector list as it
stands. Where a mark has no name behind it, either may be the case, the mark
standing at the start of a compound or inside of one.

The readers call one another, and a failure of an inner one is passed out as it
is, so what it says has to be said in terms of the outermost. That is why the
lemmas take the text that was read before as an argument, and with it a
property `Whole` of texts: all that a reader knows of the text in front of it
is what it takes to make the whole of it complete. A compound asks that any
compound completes it, a clause that any clause with spacing behind it does, a
list that any list of clauses does. Each reader, on failing, has taken some text
and is left with one of these for the reader inside of it. At the very front
nothing is taken, and `Whole` is being read as a selector list.

## Main definitions

* `Grammar.StartChar`, `Grammar.InAlphabet`: Classes of characters.
* `Grammar.Awaits`: Any compound completes the text.
* `SyntaxError.Cause.Tells`: What a cause says about the text in front of the
  failure and the text from there on.
* `SelectorList.ReadTo`: A text that is read, and its last clause.

## Theorems

* `Selector.Parser.tells_of_compound_error`, `Selector.Parser.tells_of_clauseTail_error`,
  `Selector.Parser.tells_of_clauses_error`: What the failures of the readers say.
* `Selector.Parser.exists_cut_of_list_error`: What the failure of a text says.
* `parse_error_tells`: The same for the place in bytes.
-/

namespace DomQuery

open Grammar Selector.Parser

namespace Grammar

/-- A character with which a compound starts. -/
def StartChar (c : Char) : Prop := IdentChar c ∨ c = '#' ∨ c = '.'

/-- A character that occurs in some selector list. -/
def InAlphabet (c : Char) : Prop :=
  Spacing [c] ∨ StartChar c ∨ c = ',' ∨ c = '>' ∨ c = '+' ∨ c = '~'

/-- Any compound completes the text. -/
def Awaits (Whole : List Char → Selector → Prop) (front : List Char) : Prop :=
  ∀ back c, Compound.Derives back c → ∃ sel, Whole (front ++ back) sel

theorem startsCompound_iff {c : Char} : startsCompound c = true ↔ StartChar c := by
  rw [startsCompound, isMark, Bool.or_eq_true, Bool.or_eq_true, isIdentChar_iff, beq_iff_eq,
    beq_iff_eq, StartChar]

theorem spacing_singleton {c : Char} : Spacing [c] ↔ Text.isSpace c = true := by
  rw [isSpace_iff, Spacing, List.forall_mem_singleton]

theorem Spacing.exists_getLast? {w : List Char} (hw : Spacing w) (hne : w ≠ [])
    (front : List Char) : ∃ x ∈ (front ++ w).getLast?, Spacing [x] := by
  have hlast := List.getLast?_eq_some_getLast hne
  refine ⟨w.getLast hne, ?_, ?_⟩
  · rw [List.getLast?_append, hlast]
    rfl
  · rw [Spacing, List.forall_mem_singleton]
    exact hw _ (List.getLast_mem hne)

end Grammar

/-- What a cause says about the text in front of the failure and the text from
    there on. The texts that are complete as they stand, each with its last
    clause, are given by the first argument. -/
def SyntaxError.Cause.Tells (Whole : List Char → Selector → Prop) (front back : List Char) :
    SyntaxError.Cause → Prop
  | .emptySelector => Spacing front ∧ back = []
  | .expectedSelector found =>
    Awaits Whole front ∧ back.head? = found ∧ ∀ c ∈ found, ¬ Spacing [c] ∧ ¬ StartChar c
  | .expectedIdentifier mark =>
    (Awaits Whole front ∨ ∃ sel, Whole front sel) ∧ (mark = '#' ∨ mark = '.') ∧
      ∃ more, back = mark :: more ∧ ∀ c ∈ more.head?, ¬ IdentChar c
  | .unexpectedCharacter c =>
    (∃ sel, Whole front sel) ∧ back.head? = some c ∧ ¬ InAlphabet c
  | .tooManyCombinators limit =>
    limit = 256 ∧ (∃ sel, Whole front sel ∧ sel.depth = 256) ∧
      ∃ c ∈ back.head?, (∃ comb, Sign c comb) ∨
        StartChar c ∧ ∃ x ∈ front.getLast?, Spacing [x]

namespace Selector

namespace Parser

variable {Whole : List Char → Selector → Prop} {front cs : List Char} {fault : Fault}

theorem stops_of_markedParts {read parts : List Simple} {rest : List Char}
    (hcs : Stops isIdentChar cs) (h : markedParts read cs = .ok (parts, rest)) :
    Stops startsCompound rest := by
  fun_induction markedParts read cs with
  | case1 read =>
      cases h
      exact Stops.nil _
  | case2 => cases h
  | case3 read c cs hmark hname ih => exact ih (stops_dropWhile isIdentChar cs) h
  | case4 read c cs hmark =>
      cases h
      rw [stops_cons] at hcs ⊢
      rw [startsCompound, hcs, Bool.false_or]
      exact Bool.not_eq_true _ ▸ hmark

/-- A compound takes all of the text that could belong to it. -/
theorem stops_of_compound {c : Compound} {rest : List Char} (h : compound cs = .ok (c, rest)) :
    Stops startsCompound rest := by
  unfold compound at h
  split at h
  · cases h
  · cases h
  · next parts rest' hne hparts =>
    cases h
    exact stops_of_markedParts (stops_dropWhile isIdentChar cs) hparts

theorem fault_of_markedParts {read : List Simple} (h : markedParts read cs = .error fault) :
    ∃ text new mark more, cs = text ++ mark :: more ∧ Marked text new ∧ isMark mark = true ∧
      Stops isIdentChar more ∧ fault = ⟨mark :: more, .expectedIdentifier mark⟩ := by
  fun_induction markedParts read cs with
  | case1 => cases h
  | case2 read c cs hmark hname =>
      cases h
      -- The name behind the mark is empty, so no character of one follows.
      have hdrop := stops_dropWhile isIdentChar cs
      have hcs := ident_append_afterIdent cs
      rw [List.isEmpty_iff.mp hname, List.nil_append] at hcs
      rw [← afterIdent, hcs] at hdrop
      exact ⟨[], [], c, cs, rfl, .nil, hmark, hdrop, rfl⟩
  | case3 read c cs hmark hname ih =>
      rcases ih h with ⟨text, new, mark, more, hcs, hnew, hmark', hstop, hfault⟩
      have hsplit : c :: cs = c :: ident cs ++ text ++ mark :: more := by
        rw [List.append_assoc, ← hcs, List.cons_append, ident_append_afterIdent]
      refine ⟨_, marked c (ident cs) :: new, mark, more, hsplit, ?_, hmark', hstop, hfault⟩
      exact marked_cons_ident hmark hname hnew
  | case4 => cases h

theorem ident_eq_nil_of_tagPart (h : tagPart cs = []) : ident cs = [] := by
  by_contra hne
  rw [tagPart, if_neg (by rwa [List.isEmpty_iff])] at h
  exact List.cons_ne_nil _ _ h

/-- Where nothing of a compound is read, all of the text is left. -/
theorem eq_of_markedParts_nil {rest : List Char}
    (h : markedParts (tagPart cs) (afterIdent cs) = .ok ([], rest)) : rest = cs := by
  rcases marked_of_markedParts h with ⟨text, new, hnew, hcs, hmarked⟩
  rw [reverse_tagPart] at hnew
  rcases List.append_eq_nil_iff.mp hnew.symm with ⟨htag, rfl⟩
  cases hmarked
  have hsplit := ident_append_afterIdent cs
  rwa [ident_eq_nil_of_tagPart htag, hcs, List.nil_append, List.nil_append] at hsplit

/-- Where a compound fails, it is missing altogether, or a mark in it or at its
    start has no name behind it. -/
theorem tells_of_compound_error (hopen : Awaits Whole front) (hspace : Stops Text.isSpace cs)
    (h : compound cs = .error fault) :
    ∃ text, cs = text ++ fault.rest ∧ fault.cause.Tells Whole (front ++ text) fault.rest := by
  unfold compound at h
  split at h
  · next fault' hparts =>
    cases h
    rcases fault_of_markedParts hparts with ⟨text, new, mark, more, hcs, hnew, hmark, hstop, rfl⟩
    refine ⟨ident cs ++ text, ?_, ?_, ?_, more, rfl, fun c hc => ?_⟩
    · rw [List.append_assoc, ← hcs, ident_append_afterIdent]
    · -- In front of the mark there is nothing of the compound, or a compound.
      by_cases hnone : tagPart cs ++ new = []
      · rcases List.append_eq_nil_iff.mp hnone with ⟨htag, rfl⟩
        cases hnew
        rw [ident_eq_nil_of_tagPart htag, List.append_nil, List.append_nil]
        exact .inl hopen
      · exact .inr (hopen _ _ (derives_tagPart_append hnew hnone))
    · rw [isMark, Bool.or_eq_true, beq_iff_eq, beq_iff_eq] at hmark
      exact hmark
    · rw [← isIdentChar_iff, hstop c hc]
      exact Bool.false_ne_true
  · next rest hparts =>
    cases h
    have hstop := stops_of_markedParts (stops_dropWhile isIdentChar cs) hparts
    have hrest := eq_of_markedParts_nil hparts
    subst hrest
    refine ⟨[], rfl, by rwa [List.append_nil], rfl, fun c hc => ⟨?_, ?_⟩⟩
    · rw [spacing_singleton, hspace c hc]
      exact Bool.false_ne_true
    · rw [← startsCompound_iff, hstop c hc]
      exact Bool.false_ne_true
  · cases h

/-- Behind a combinator there is no spacing left. -/
theorem stops_isSpace_of_combinator? {spaced : Bool} {comb : Combinator} {after : List Char}
    (h : combinator? spaced cs = some (comb, after)) : Stops Text.isSpace after := by
  unfold combinator? at h
  split at h
  · cases h
  · next c cs =>
    split at h
    · cases h
      exact stops_dropWhile Text.isSpace cs
    · split at h
      · next hstart =>
        cases h
        rw [Bool.and_eq_true] at hstart
        exact stops_cons.mpr (of_startsCompound hstart.2).1
      · cases h

/-- A combinator is its sign, or the spacing in front of a compound. -/
theorem shows_of_combinator? {c : Char} {spaced : Bool} {comb : Combinator}
    {more after : List Char} (h : combinator? spaced (c :: more) = some (comb, after)) :
    (∃ comb, Sign c comb) ∨ StartChar c ∧ spaced = true := by
  rw [combinator?] at h
  split at h
  · next comb' hsign => exact .inl ⟨comb', combinatorOf?_eq_some_iff.mp hsign⟩
  · split at h
    · next hstart =>
      rw [Bool.and_eq_true, startsCompound_iff] at hstart
      exact .inr hstart.symm
    · cases h

/-- What is neither a combinator nor a comma, where a compound has just ended, is
    no character of the grammar at all. -/
theorem not_inAlphabet_of_combinator? {c : Char} {more : List Char}
    (hstop : Stops startsCompound cs) (hskip : Text.skipSpace cs = c :: more) (hcomma : c ≠ ',')
    (h : combinator? (startsSpaced cs) (c :: more) = none) : ¬ InAlphabet c := by
  have hspace : ¬ Spacing [c] := by
    have hrest := stops_dropWhile Text.isSpace cs
    rw [← Text.skipSpace, hskip, stops_cons] at hrest
    rw [spacing_singleton, hrest]
    exact Bool.false_ne_true
  rw [combinator?] at h
  split at h
  · cases h
  · next hsign =>
    have hstart : ¬ StartChar c := by
      intro hc
      rw [← startsCompound_iff] at hc
      rw [hc, Bool.and_true] at h
      by_cases hspaced : startsSpaced cs = true
      · rw [if_pos hspaced] at h
        cases h
      · -- Without spacing in between, the compound would have gone on.
        rcases exists_spacing_append cs with ⟨u, _, hcs, hnil⟩
        rw [Bool.not_eq_true] at hspaced
        rw [hnil.mpr hspaced, List.nil_append, hskip] at hcs
        rw [hcs, stops_cons, hc] at hstop
        exact Bool.false_ne_true hstop.symm
    rintro (hc | hc | rfl | rfl | rfl | rfl)
    · exact hspace hc
    · exact hstart hc
    · exact hcomma rfl
    all_goals exact absurd hsign (by decide)

/-- Where the rest of a clause fails, a compound behind a combinator does, or the
    clause is complete and what follows is no combinator, or one too many. -/
theorem tells_of_clauseTail_error {sel : Selector}
    (hwhole : ∀ text w sel', Extends sel text sel' → Spacing w → sel'.depth ≤ maxCombinators →
      Whole (front ++ (text ++ w)) sel')
    (hdepth : sel.depth ≤ maxCombinators) (hstop : Stops startsCompound cs)
    (h : clauseTail sel cs = .error fault) :
    ∃ text, cs = text ++ fault.rest ∧ fault.cause.Tells Whole (front ++ text) fault.rest := by
  fun_induction clauseTail sel cs generalizing front with
  | case1 => cases h
  | case2 => cases h
  | case3 sel cs c more hskip hcomma hcomb =>
      cases h
      rcases exists_spacing_append cs with ⟨w, hw, hcs, _⟩
      rw [hskip] at hcs
      exact ⟨w, hcs, ⟨sel, hwhole [] w sel (.refl sel) hw hdepth⟩, rfl,
        not_inAlphabet_of_combinator? hstop hskip hcomma hcomb⟩
  | case4 sel cs c more hskip hcomma comb after hcomb hlimit =>
      cases h
      rcases exists_spacing_append cs with ⟨w, hw, hcs, hnil⟩
      rw [hskip] at hcs
      refine ⟨w, hcs, rfl, ⟨sel, hwhole [] w sel (.refl sel) hw hdepth, ?_⟩, c, rfl, ?_⟩
      · exact Nat.le_antisymm hdepth hlimit
      · refine (shows_of_combinator? hcomb).imp_right fun hshows => ⟨hshows.1, ?_⟩
        have hne : w ≠ [] := fun hnone => by
          have hspaced := hshows.2
          rw [hnil.mp hnone] at hspaced
          exact Bool.false_ne_true hspaced
        exact hw.exists_getLast? hne front
  | case5 sel cs c more hskip hcomma comb after hcomb hlimit fault' hright =>
      cases h
      rcases derives_of_combinator? hskip hcomb with ⟨mid, hmid, hderives⟩
      have hopen : Awaits Whole (front ++ mid) := by
        intro back right hback
        refine ⟨sel.combine comb right, ?_⟩
        have hlink := Extends.link hderives hback (.refl (sel.combine comb right))
        have hright := hwhole _ [] _ hlink Spacing.nil (by rw [depth_combine]; omega)
        rwa [List.append_nil, List.append_nil, ← List.append_assoc] at hright
      rcases tells_of_compound_error hopen (stops_isSpace_of_combinator? hcomb) hright with
        ⟨text, hafter, htells⟩
      refine ⟨mid ++ text, ?_, ?_⟩
      · rw [List.append_assoc, ← hafter]
        exact hmid
      · rwa [← List.append_assoc]
  | case6 sel cs c more hskip hcomma comb after hcomb hlimit right rest hright ih =>
      rcases derives_of_combinator? hskip hcomb with ⟨mid, hmid, hderives⟩
      rcases derives_of_compound hright with ⟨back, hback, hcompound⟩
      have hwhole' : ∀ text w sel', Extends (sel.combine comb right) text sel' → Spacing w →
          sel'.depth ≤ maxCombinators → Whole (front ++ (mid ++ back) ++ (text ++ w)) sel' := by
        intro text w sel' hext hw hdepth'
        have hlink := hwhole _ w _ (.link hderives hcompound hext) hw hdepth'
        simpa only [List.append_assoc] using hlink
      have hdepth' : (sel.combine comb right).depth ≤ maxCombinators := by
        rw [depth_combine]
        omega
      rcases ih hwhole' hdepth' (stops_of_compound hright) h with ⟨text, hrest, htells⟩
      refine ⟨mid ++ back ++ text, ?_, ?_⟩
      · rw [List.append_assoc, List.append_assoc, ← hrest, ← hback]
        exact hmid
      · simpa only [List.append_assoc] using htells

/-- Where a clause fails, its first compound does, or what follows it. -/
theorem tells_of_clause_error
    (hwhole : ∀ text w sel, Derives text sel → Spacing w → sel.depth ≤ maxCombinators →
      Whole (front ++ (text ++ w)) sel)
    (hspace : Stops Text.isSpace cs) (h : clause cs = .error fault) :
    ∃ text, cs = text ++ fault.rest ∧ fault.cause.Tells Whole (front ++ text) fault.rest := by
  unfold clause at h
  split at h
  · next fault' hsubject =>
    cases h
    refine tells_of_compound_error (fun back c hback => ⟨.ofCompound c, ?_⟩) hspace hsubject
    have hone := hwhole back [] _ (.compound hback) Spacing.nil (Nat.zero_le _)
    rwa [List.append_nil] at hone
  · next subject rest hsubject =>
    rcases derives_of_compound hsubject with ⟨back, hback, hcompound⟩
    have hwhole' : ∀ text w sel, Extends (.ofCompound subject) text sel → Spacing w →
        sel.depth ≤ maxCombinators → Whole (front ++ back ++ (text ++ w)) sel := by
      intro text w sel hext hw hdepth
      have hclause := hwhole _ w sel ((Derives.compound hcompound).append_extends hext) hw hdepth
      simpa only [List.append_assoc] using hclause
    rcases tells_of_clauseTail_error hwhole' (Nat.zero_le _) (stops_of_compound hsubject) h with
      ⟨text, hrest, htells⟩
    refine ⟨back ++ text, ?_, ?_⟩
    · rw [List.append_assoc, ← hrest]
      exact hback
    · rwa [← List.append_assoc]

/-- Where the clauses of a text fail, one of them does, those in front of it being
    read. -/
theorem tells_of_clauses_error {read : List Selector}
    (hwhole : ∀ text v sels, SelectorList.DerivesClauses text sels → Spacing v →
      (∀ sel ∈ sels, sel.depth ≤ maxCombinators) →
      ∀ sel ∈ sels.getLast?, Whole (front ++ (text ++ v)) sel)
    (hspace : Stops Text.isSpace cs) (h : clauses read cs = .error fault) :
    ∃ text, cs = text ++ fault.rest ∧ fault.cause.Tells Whole (front ++ text) fault.rest := by
  fun_induction clauses read cs generalizing front with
  | case1 read cs fault' hclause =>
      cases h
      refine tells_of_clause_error (fun text w sel hsel hw hdepth => ?_) hspace hclause
      refine hwhole text w [sel] (.one hsel) hw (fun sel' hsel' => ?_) sel rfl
      rwa [List.mem_singleton.mp hsel']
  | case2 read cs sel more hclause ih =>
      rcases derives_of_clause hclause with ⟨back, w, hcs, hsel, hw, _, hdepth⟩
      rcases exists_spacing_append more with ⟨u, hu, hmore, _⟩
      have hwhole' : ∀ text v sels, SelectorList.DerivesClauses text sels → Spacing v →
          (∀ sel ∈ sels, sel.depth ≤ maxCombinators) → ∀ sel ∈ sels.getLast?,
          Whole (front ++ (back ++ (w ++ ',' :: u)) ++ (text ++ v)) sel := by
        intro text v sels hsels hv hdepths last hlast
        have hlast' : last ∈ (sel :: sels).getLast? := by
          rw [List.getLast?_cons, Option.mem_def.mp hlast]
          rfl
        have hlist := hwhole _ v _ (.comma hsel hw hu hsels) hv
          (List.forall_mem_cons.mpr ⟨hdepth, hdepths⟩) last hlast'
        simpa only [List.append_assoc, List.cons_append] using hlist
      rcases ih hwhole' (stops_dropWhile Text.isSpace more) h with ⟨text, hrest, htells⟩
      refine ⟨back ++ (w ++ ',' :: u) ++ text, ?_, ?_⟩
      · rw [hcs, hmore, hrest]
        simp only [List.append_assoc, List.cons_append]
      · simpa only [List.append_assoc] using htells
  | case3 => cases h

end Parser

end Selector

/-- The text is read, and this is its last clause. -/
def SelectorList.ReadTo (cs : List Char) (sel : Selector) : Prop :=
  ∃ list, SelectorList.parse (String.ofList cs) = .ok list ∧ list.clauses.getLast? = some sel

namespace Selector

namespace Parser

theorem skipSpace_eq_nil_iff {cs : List Char} : Text.skipSpace cs = [] ↔ Spacing cs := by
  refine ⟨fun h => ?_, Spacing.skipSpace_eq_nil⟩
  rcases exists_spacing_append cs with ⟨u, hu, hcs, _⟩
  rw [h, List.append_nil] at hcs
  rwa [hcs]

/-- A text that fails is cut in two at the failure, and its cause tells of both
    parts. -/
theorem exists_cut_of_list_error {cs : List Char} {fault : Fault} (h : list cs = .error fault) :
    ∃ front, cs = front ++ fault.rest ∧
      fault.cause.Tells SelectorList.ReadTo front fault.rest := by
  unfold list at h
  split at h
  · next hskip =>
    cases h
    exact ⟨cs, (List.append_nil cs).symm, skipSpace_eq_nil_iff.mp hskip, rfl⟩
  · next c more hskip =>
    rcases exists_spacing_append cs with ⟨u, hu, hcs, _⟩
    have hspace := stops_dropWhile Text.isSpace cs
    rw [hskip] at hcs
    rw [← Text.skipSpace, hskip] at hspace
    have hwhole : ∀ text v sels, SelectorList.DerivesClauses text sels → Spacing v →
        (∀ sel ∈ sels, sel.depth ≤ maxCombinators) →
        ∀ sel ∈ sels.getLast?, SelectorList.ReadTo (u ++ (text ++ v)) sel := by
      intro text v sels hsels hv hdepths sel hsel
      have hderives : SelectorList.Derives (String.ofList (u ++ (text ++ v))).toList ⟨sels⟩ := by
        rw [String.toList_ofList]
        exact .padded hu hsels hv
      exact ⟨⟨sels⟩, SelectorList.parse_of_derives hderives hdepths, hsel⟩
    rcases tells_of_clauses_error hwhole hspace h with ⟨text, hmore, htells⟩
    refine ⟨u ++ text, ?_, htells⟩
    rw [List.append_assoc, ← hmore]
    exact hcs

end Parser

end Selector

namespace SyntaxError

open SelectorList

/-- In front of a failure there is the beginning of a text that is read. -/
theorem Cause.Tells.exists_read {cause : Cause} {front back : List Char}
    (h : cause.Tells ReadTo front back) :
    ∃ more list, SelectorList.parse (String.ofList (front ++ more)) = .ok list := by
  have hident : ∀ c ∈ ['a'], IdentChar c :=
    List.forall_mem_singleton.mpr (isIdentChar_iff.mp (by decide))
  have hcompound : Compound.Derives ['a'] ⟨[.tag "a"]⟩ :=
    @Compound.Derives.tagged "a" [] [] ⟨List.cons_ne_nil _ _, hident⟩ .nil
  have hawaits : Awaits ReadTo front →
      ∃ more list, SelectorList.parse (String.ofList (front ++ more)) = .ok list := by
    intro hopen
    rcases hopen _ _ hcompound with ⟨_, list, hread, _⟩
    exact ⟨_, list, hread⟩
  have hwhole : (∃ sel, ReadTo front sel) →
      ∃ more list, SelectorList.parse (String.ofList (front ++ more)) = .ok list := by
    rintro ⟨_, list, hread, _⟩
    exact ⟨[], list, by rwa [List.append_nil]⟩
  cases cause with
  | emptySelector =>
      -- Behind spacing alone any clause can stand.
      have hpadded := SelectorList.Derives.padded h.1 (.one (.compound hcompound)) Spacing.nil
      rw [List.append_nil, ← String.toList_ofList (l := front ++ ['a'])] at hpadded
      refine ⟨['a'], _, SelectorList.parse_of_derives hpadded (fun sel hsel => ?_)⟩
      rw [List.mem_singleton.mp hsel]
      exact Nat.zero_le _
  | expectedSelector found => exact hawaits h.1
  | expectedIdentifier mark => exact h.1.elim hawaits hwhole
  | unexpectedCharacter c => exact hwhole h.1
  | tooManyCombinators limit =>
      rcases h.2.1 with ⟨sel, hread, _⟩
      exact hwhole ⟨sel, hread⟩

/-- The place of a failure, told in bytes, is where its text is cut. -/
theorem exists_cut_of_parse_error {text : String} {e : SyntaxError}
    (h : SelectorList.parse text = .error e) :
    ∃ front back, text.toList = front ++ back ∧ Text.utf8Size front = e.offset ∧
      e.fragment text = String.ofList back ∧ e.cause.Tells ReadTo front back := by
  unfold SelectorList.parse at h
  split at h
  · next fault hlist =>
    cases h
    rcases exists_cut_of_list_error hlist with ⟨front, hcut, htells⟩
    have hoffset : Text.utf8Size front = (fault.toSyntaxError text.toList).offset := by
      simp only [Fault.toSyntaxError, hcut, Text.utf8Size_append, Nat.add_sub_cancel]
    refine ⟨front, fault.rest, hcut, hoffset, ?_, htells⟩
    rw [fragment, ← hoffset, hcut, Text.dropBytes?_utf8Size, Option.getD_some]
  · cases h

end SyntaxError

/-- What a failure says about its text. The place of the failure is one in the
    text and cuts it in two; the part in front begins a text that is read, and
    the cause tells of both parts. A text fails for being empty exactly when it
    is spacing and nothing else, and then at its end. -/
theorem parse_error_tells (text : String) :
    (∀ e, SelectorList.parse text = .error e → ∃ front : String,
      text = front ++ e.fragment text ∧ front.utf8ByteSize = e.offset ∧
      e.offset ≤ text.utf8ByteSize ∧
      (∃ more list, SelectorList.parse (front ++ more) = .ok list) ∧
      e.cause.Tells SelectorList.ReadTo front.toList (e.fragment text).toList) ∧
    ∀ offset, SelectorList.parse text = .error ⟨offset, .emptySelector⟩ ↔
      Spacing text.toList ∧ offset = text.utf8ByteSize := by
  have hbytes : text.utf8ByteSize = Text.utf8Size text.toList := by
    rw [← Text.utf8ByteSize_ofList, String.ofList_toList]
  refine ⟨fun e h => ?_, fun offset => ⟨fun h => ?_, ?_⟩⟩
  · rcases SyntaxError.exists_cut_of_parse_error h with ⟨front, back, hcut, hoffset, hback, htells⟩
    rcases htells.exists_read with ⟨more, list, hread⟩
    refine ⟨String.ofList front, ?_, ?_, ?_, ⟨String.ofList more, list, ?_⟩, ?_⟩
    · rw [hback, ← String.ofList_append, ← hcut, String.ofList_toList]
    · rw [Text.utf8ByteSize_ofList, hoffset]
    · rw [hbytes, hcut, Text.utf8Size_append, ← hoffset]
      exact Nat.le_add_right _ _
    · rw [← String.ofList_append]
      exact hread
    · rwa [hback, String.toList_ofList, String.toList_ofList]
  · rcases SyntaxError.exists_cut_of_parse_error h with ⟨front, back, hcut, hoffset, _, htells⟩
    rcases htells with ⟨hspacing, rfl⟩
    rw [List.append_nil] at hcut
    rw [hbytes, hcut]
    exact ⟨hspacing, hoffset.symm⟩
  · rintro ⟨hspacing, rfl⟩
    rw [SelectorList.parse, Selector.Parser.list, hspacing.skipSpace_eq_nil, hbytes]
    rfl

/-- The place of a class without a name is its mark, and what is in front of it can
    be completed. -/
theorem parse_error_tells_unnamed :
    SelectorList.parse "ul > li, .é" = .error ⟨9, .expectedIdentifier '.'⟩ ∧
    ∃ front : String, "ul > li, .é" = front ++ ".é" ∧ front.utf8ByteSize = 9 ∧
      ∃ more list, SelectorList.parse (front ++ more) = .ok list := by
  have herror : SelectorList.parse "ul > li, .é" = .error ⟨9, .expectedIdentifier '.'⟩ := by
    decide +kernel
  rcases (parse_error_tells "ul > li, .é").1 _ herror with ⟨front, hcut, hoffset, _, hread, _⟩
  exact ⟨herror, front, hcut, hoffset, hread⟩

end DomQuery
