import DomQuery.Proofs.Pieces
import Mathlib.Logic.Relation

/-!
# Changes of Spacing

Spacing means nothing but for the one combinator that it is.

That one is told by its neighbours. Spacing between two compounds is a combinator,
and how much of it there is does not matter. Next to a comma or a sign it is not,
and there it does not even matter whether there is any, nor does it at either end
of a text. `Grammar.Respaced` is one such change. It may be made in a text that is
no selector list, for the causes of failure agree as well, up to the character
that is named in one.

A reader does not go from one change to the next but along both texts at once, so
there has to be a relation between what is left of the one and of the other.
`Grammar.Alike` is that relation, where something has been read in front. It has
to be kept behind each single character, because a reader can stop anywhere. It
leaves room around separators for any spacing and keeps the places of all other
spacing. Most readers stop at spacing, so that they see the same characters in
texts that are alike. Only the step from a compound to the next one looks at what
is in front of the character behind the spacing, and it asks only if that
character is no separator.

At the beginning of a text nothing has been read in front. There the texts are
alike once their first spacing is left out, and so does the reader start.

## Main definitions

* `Grammar.Separator`: A character with no need of spacing around it.
* `Grammar.Respaced`: One change of spacing that means nothing.
* `Grammar.Alike`: What is left of two texts that differ in such spacing.
* `Selector.Parser.Agrees`: Two readings that come to the same.

## Theorems

* `Grammar.Respaced.alike`: A change of spacing leaves texts alike.
* `Grammar.Alike.exists_skipSpace_cons`: What shows behind the spacing of both.
* `Selector.Parser.compound_agrees`, `Selector.Parser.clauseTail_agrees`,
  `Selector.Parser.clause_agrees`: Each reader comes to the same in texts that are alike.
* `Selector.Parser.clauses_agree`, `Selector.Parser.list_agree`: So do the clauses of a list.
* `parse_respaced`: Reading two texts that differ in spacing.
-/

namespace DomQuery

open Grammar Selector.Parser

namespace Grammar

/-- A character with which nothing is lost when there is spacing next to it: a comma
    or the sign of a combinator. -/
def Separator (c : Char) : Prop := c ∈ [',', '>', '+', '~']

/-- The second text is the first one with a change of spacing that means nothing:
    another run of spacing in the place of one, or spacing put in at the beginning, at
    the end, or on either side of a separator. -/
inductive Respaced : List Char → List Char → Prop where
  | run {front u v back : List Char} (hu : Spacing u) (hv : Spacing v) (hune : u ≠ [])
      (hvne : v ≠ []) : Respaced (front ++ (u ++ back)) (front ++ (v ++ back))
  | first {u cs : List Char} (hu : Spacing u) : Respaced cs (u ++ cs)
  | last {u cs : List Char} (hu : Spacing u) : Respaced cs (cs ++ u)
  | before {front back u : List Char} {c : Char} (hc : Separator c) (hu : Spacing u) :
      Respaced (front ++ c :: back) (front ++ (u ++ c :: back))
  | behind {front back u : List Char} {c : Char} (hc : Separator c) (hu : Spacing u) :
      Respaced (front ++ c :: back) (front ++ c :: (u ++ back))

/-- Texts that are the same but for spacing that means nothing where something has been
    read in front of them. Character by character they are the same, with any spacing
    around separators and at the end, and elsewhere with spacing in the same places. -/
inductive Alike : List Char → List Char → Prop where
  | finish {u v : List Char} (hu : Spacing u) (hv : Spacing v) : Alike u v
  | separator {u v w x cs cs' : List Char} {c : Char} (hu : Spacing u) (hv : Spacing v)
      (hc : Separator c) (hw : Spacing w) (hx : Spacing x) (h : Alike cs cs') :
      Alike (u ++ c :: (w ++ cs)) (v ++ c :: (x ++ cs'))
  | char {u v cs cs' : List Char} {c : Char} (hu : Spacing u) (hv : Spacing v)
      (hsame : u = [] ↔ v = []) (hc : Text.isSpace c = false) (h : Alike cs cs') :
      Alike (u ++ c :: cs) (v ++ c :: cs')

theorem Separator.isSpace_eq_false {c : Char} (h : Separator c) : Text.isSpace c = false := by
  simp only [Separator, List.mem_cons, List.not_mem_nil, or_false] at h
  rcases h with rfl | rfl | rfl | rfl <;> decide

/-- A separator is a comma if it is not a sign. -/
theorem Separator.eq_comma {c : Char} (h : Separator c) (hsign : combinatorOf? c = none) :
    c = ',' := by
  simp only [Separator, List.mem_cons, List.not_mem_nil, or_false] at h
  rcases h with rfl | rfl | rfl | rfl
  · rfl
  all_goals exact absurd hsign (by decide)

/-- No compound starts with a separator. -/
theorem Separator.startsCompound_eq_false {c : Char} (h : Separator c) :
    startsCompound c = false := by
  simp only [Separator, List.mem_cons, List.not_mem_nil, or_false] at h
  rcases h with rfl | rfl | rfl | rfl <;> decide

theorem Spacing.append {u v : List Char} (hu : Spacing u) (hv : Spacing v) : Spacing (u ++ v) :=
  List.forall_mem_append.mpr ⟨hu, hv⟩

namespace Alike

variable {cs cs' more : List Char} {c : Char}

theorem symm (h : Alike cs cs') : Alike cs' cs := by
  induction h with
  | finish hu hv => exact .finish hv hu
  | separator hu hv hc hw hx _ ih => exact .separator hv hu hc hx hw ih
  | char hu hv hsame hc _ ih => exact .char hv hu hsame.symm hc ih

/-- More spacing in front of texts that are alike. -/
theorem spacing_append {u v : List Char} (hu : Spacing u) (hv : Spacing v) (hsame : u = [] ↔ v = [])
    (h : Alike cs cs') : Alike (u ++ cs) (v ++ cs') := by
  cases h with
  | finish hw hx => exact .finish (hu.append hw) (hv.append hx)
  | separator hu' hv' hc hw hx h =>
      rw [← List.append_assoc, ← List.append_assoc]
      exact .separator (hu.append hu') (hv.append hv') hc hw hx h
  | char hu' hv' hsame' hc h =>
      rw [← List.append_assoc, ← List.append_assoc]
      refine .char (hu.append hu') (hv.append hv') ?_ hc h
      rw [List.append_eq_nil_iff, List.append_eq_nil_iff, hsame, hsame']

/-- The same character in front of texts that are alike. -/
theorem cons (c : Char) (h : Alike cs cs') : Alike (c :: cs) (c :: cs') := by
  -- Spacing joins what is in front already, any other character stands for itself.
  by_cases hc : Text.isSpace c = true
  · exact h.spacing_append (spacing_singleton.mpr hc) (spacing_singleton.mpr hc) Iff.rfl
  · exact .char Spacing.nil Spacing.nil Iff.rfl (Bool.eq_false_iff.mpr hc) h

theorem append (front : List Char) (h : Alike cs cs') : Alike (front ++ cs) (front ++ cs') := by
  induction front with
  | nil => exact h
  | cons c front ih => exact ih.cons c

theorem refl (cs : List Char) : Alike cs cs := by
  have h := append cs (finish Spacing.nil Spacing.nil)
  rwa [List.append_nil] at h

theorem skipSpace (h : Alike cs cs') : Alike (Text.skipSpace cs) (Text.skipSpace cs') := by
  cases h with
  | finish hu hv =>
      rw [hu.skipSpace_eq_nil, hv.skipSpace_eq_nil]
      exact refl []
  | separator hu hv hc hw hx h =>
      rw [hu.skipSpace_cons hc.isSpace_eq_false, hv.skipSpace_cons hc.isSpace_eq_false]
      exact separator Spacing.nil Spacing.nil hc hw hx h
  | char hu hv hsame hc h =>
      rw [hu.skipSpace_cons hc, hv.skipSpace_cons hc]
      exact char Spacing.nil Spacing.nil Iff.rfl hc h

theorem skipSpace_eq_nil (h : Alike cs cs') (hskip : Text.skipSpace cs = []) :
    Text.skipSpace cs' = [] := by
  cases h with
  | finish _ hv => exact hv.skipSpace_eq_nil
  | separator hu _ hc =>
      rw [hu.skipSpace_cons hc.isSpace_eq_false] at hskip
      cases hskip
  | char hu _ _ hc =>
      rw [hu.skipSpace_cons hc] at hskip
      cases hskip

/-- Behind the spacing the same character shows. If it is no separator there is spacing
    in front of both or of neither. -/
theorem exists_skipSpace_cons (h : Alike cs cs') (hskip : Text.skipSpace cs = c :: more) :
    ∃ more', Text.skipSpace cs' = c :: more' ∧
      Alike (Text.skipSpace more) (Text.skipSpace more') ∧
      (Separator c ∨ startsSpaced cs = startsSpaced cs' ∧ Alike more more') := by
  cases h with
  | finish hu _ =>
      rw [hu.skipSpace_eq_nil] at hskip
      cases hskip
  | separator hu hv hc hw hx h =>
      rw [hu.skipSpace_cons hc.isSpace_eq_false] at hskip
      cases hskip
      refine ⟨_, hv.skipSpace_cons hc.isSpace_eq_false, ?_, .inl hc⟩
      rw [skipSpace_append hw, skipSpace_append hx]
      exact h.skipSpace
  | char hu hv hsame hc h =>
      rw [hu.skipSpace_cons hc] at hskip
      cases hskip
      refine ⟨_, hv.skipSpace_cons hc, h.skipSpace, .inr ⟨?_, h⟩⟩
      rw [startsSpaced_append_cons hu hc, startsSpaced_append_cons hv hc, Bool.eq_iff_iff,
        Bool.not_eq_true', Bool.not_eq_true', List.isEmpty_eq_false_iff, List.isEmpty_eq_false_iff,
        not_iff_not, hsame]

theorem head?_eq (h : Alike cs cs') (hspace : Stops Text.isSpace cs)
    (hspace' : Stops Text.isSpace cs') : cs.head? = cs'.head? := by
  have hcs : Text.skipSpace cs = cs := dropWhile_of_stops hspace
  have hcs' : Text.skipSpace cs' = cs' := dropWhile_of_stops hspace'
  rcases hskip : Text.skipSpace cs with _ | ⟨c, more⟩
  · rw [← hcs, ← hcs', hskip, h.skipSpace_eq_nil hskip]
  · rcases h.exists_skipSpace_cons hskip with ⟨more', hskip', _⟩
    rw [← hcs, ← hcs', hskip, hskip']
    rfl

/-- A character with which a compound starts is in front of both texts or of neither. -/
theorem exists_cons (h : Alike (c :: more) cs') (hc : startsCompound c = true) :
    ∃ more', cs' = c :: more' ∧ Alike more more' := by
  have hspace : Text.isSpace c = false := (of_startsCompound hc).1
  rcases h.exists_skipSpace_cons (Spacing.nil.skipSpace_cons hspace) with
    ⟨more', hskip', _, hsep | ⟨hspaced, hmore⟩⟩
  · rw [hsep.startsCompound_eq_false] at hc
    exact absurd hc Bool.false_ne_true
  · -- There is no spacing in front of the character in the first text, so there is none here.
    rcases exists_spacing_append cs' with ⟨u, _, hcs', hnil⟩
    have hu : u = [] := hnil.mpr (hspaced.symm.trans hspace)
    rw [hcs', hu, hskip']
    exact ⟨more', rfl, hmore⟩

/-- Of two texts that are alike, both start with a class of characters of compounds or
    neither does. -/
theorem stops {p : Char → Bool} (h : Alike cs cs') (hp : ∀ c, p c = true → startsCompound c = true)
    (hstop : Stops p cs) : Stops p cs' := by
  intro c hc
  by_contra hpc
  rw [Bool.not_eq_false] at hpc
  rcases List.head?_eq_some_iff.mp hc with ⟨more, rfl⟩
  rcases h.symm.exists_cons (hp c hpc) with ⟨more', rfl, _⟩
  rw [stops_cons.mp hstop] at hpc
  exact Bool.false_ne_true hpc

/-- Of two places where a clause has ended, both are at a comma or neither is. -/
theorem exists_comma (h : Alike (',' :: more) cs') (hend : cs' = [] ∨ ∃ more', cs' = ',' :: more') :
    ∃ more', cs' = ',' :: more' ∧ Alike (Text.skipSpace more) (Text.skipSpace more') := by
  have hskip : ∀ rest, Text.skipSpace (',' :: rest) = ',' :: rest := Spacing.nil.skipSpace_comma
  rcases hend with rfl | ⟨more', rfl⟩
  · have hnil := h.symm.skipSpace_eq_nil rfl
    rw [hskip] at hnil
    cases hnil
  · rcases h.exists_skipSpace_cons (hskip more) with ⟨_, hskip', hmore, _⟩
    rw [hskip] at hskip'
    cases hskip'
    exact ⟨more', rfl, hmore⟩

end Alike

theorem Respaced.alike {cs cs' : List Char} (h : Respaced cs cs') :
    Alike (Text.skipSpace cs) (Text.skipSpace cs') := by
  cases h with
  | run hu hv hune hvne =>
      have hsame := iff_of_false hune hvne
      exact (((Alike.refl _).spacing_append hu hv hsame).append _).skipSpace
  | first hu =>
      rw [skipSpace_append hu]
      exact .refl _
  | @last u _ hu =>
      have hend := (Alike.finish Spacing.nil hu).append cs
      rw [List.append_nil] at hend
      exact hend.skipSpace
  | @before _ back _ _ hc hu =>
      have hsep := Alike.separator Spacing.nil hu hc Spacing.nil Spacing.nil (.refl back)
      exact (hsep.append _).skipSpace
  | @behind _ back _ _ hc hu =>
      have hsep := Alike.separator Spacing.nil Spacing.nil hc Spacing.nil hu (.refl back)
      exact (hsep.append _).skipSpace

end Grammar

namespace Selector

namespace Parser

/-- Both readings fail with the same cause, or both come to the same and leave texts
    that are alike. -/
inductive Agrees {α : Type} :
    Except Fault (α × List Char) → Except Fault (α × List Char) → Prop where
  | error {fault fault' : Fault} (h : fault.cause = fault'.cause) :
      Agrees (.error fault) (.error fault')
  | ok {value : α} {rest rest' : List Char} (h : Alike rest rest') :
      Agrees (.ok (value, rest)) (.ok (value, rest'))

section Agrees

variable {α : Type} {value : α} {rest : List Char} {fault : Fault}
  {result : Except Fault (α × List Char)}

theorem Agrees.exists_error (h : Agrees (.error fault) result) :
    ∃ fault', result = .error fault' ∧ fault.cause = fault'.cause := by
  cases h with
  | error hcause => exact ⟨_, rfl, hcause⟩

theorem Agrees.exists_ok (h : Agrees (.ok (value, rest)) result) :
    ∃ rest', result = .ok (value, rest') ∧ Alike rest rest' := by
  cases h with
  | ok hrest => exact ⟨_, rfl, hrest⟩

end Agrees

variable {cs cs' : List Char} {sel : Selector} {read : List Simple}

theorem startsCompound_of_isIdentChar {c : Char} (h : isIdentChar c = true) :
    startsCompound c = true := by
  rw [startsCompound, h, Bool.true_or]

theorem startsCompound_of_isMark {c : Char} (h : isMark c = true) : startsCompound c = true := by
  rw [startsCompound, h, Bool.or_true]

theorem ident_of_alike (h : Alike cs cs') :
    ident cs = ident cs' ∧ Alike (afterIdent cs) (afterIdent cs') := by
  have hnone : ∀ {cs cs' : List Char}, Alike cs cs' → Stops isIdentChar cs →
      ident cs = ident cs' ∧ Alike (afterIdent cs) (afterIdent cs') := by
    intro cs cs' h hstop
    have hstop' := h.stops (fun _ => startsCompound_of_isIdentChar) hstop
    rw [ident, ident, afterIdent, afterIdent, takeWhile_of_stops hstop, takeWhile_of_stops hstop',
      dropWhile_of_stops hstop, dropWhile_of_stops hstop']
    exact ⟨rfl, h⟩
  -- As long as the first text goes on with the identifier, so does the second.
  induction cs generalizing cs' with
  | nil => exact hnone h (Stops.nil _)
  | cons c cs ih =>
      by_cases hc : isIdentChar c = true
      · rcases h.exists_cons (startsCompound_of_isIdentChar hc) with ⟨more', rfl, hmore⟩
        rcases ih hmore with ⟨hident, hafter⟩
        rw [ident, ident, afterIdent, afterIdent, List.takeWhile_cons_of_pos hc,
          List.takeWhile_cons_of_pos hc, List.dropWhile_cons_of_pos hc,
          List.dropWhile_cons_of_pos hc]
        exact ⟨congrArg (c :: ·) hident, hafter⟩
      · exact hnone h (stops_cons.mpr (Bool.eq_false_iff.mpr hc))

theorem markedParts_agrees (h : Alike cs cs') :
    Agrees (markedParts read cs) (markedParts read cs') := by
  fun_induction markedParts read cs generalizing cs' with
  | case1 read =>
      have hstop := h.stops (fun _ => startsCompound_of_isMark) (Stops.nil _)
      rw [markedParts_of_stops hstop]
      exact .ok h
  | case2 read c cs hmark hname =>
      rcases h.exists_cons (startsCompound_of_isMark hmark) with ⟨more', rfl, hmore⟩
      rw [markedParts, if_pos hmark, ← (ident_of_alike hmore).1, if_pos hname]
      exact .error rfl
  | case3 read c cs hmark hname ih =>
      rcases h.exists_cons (startsCompound_of_isMark hmark) with ⟨more', rfl, hmore⟩
      rcases ident_of_alike hmore with ⟨hident, hafter⟩
      rw [markedParts, if_pos hmark, ← hident, if_neg hname]
      exact ih hafter
  | case4 read c cs hmark =>
      have hstop := h.stops (fun _ => startsCompound_of_isMark)
        (stops_cons.mpr (Bool.eq_false_iff.mpr hmark))
      rw [markedParts_of_stops hstop]
      exact .ok h

theorem compound_agrees (h : Alike cs cs') (hspace : Stops Text.isSpace cs)
    (hspace' : Stops Text.isSpace cs') : Agrees (compound cs) (compound cs') := by
  rcases ident_of_alike h with ⟨hident, hafter⟩
  have htag : tagPart cs = tagPart cs' := by rw [tagPart, tagPart, hident]
  have hparts : Agrees (markedParts (tagPart cs) _) _ := markedParts_agrees hafter
  rw [compound, compound, ← htag]
  generalize hread : markedParts (tagPart cs) (afterIdent cs) = result at hparts
  generalize hread' : markedParts (tagPart cs) (afterIdent cs') = result' at hparts
  cases hparts with
  | error hcause => exact .error hcause
  | @ok parts rest rest' hrest =>
      cases parts with
      | nil =>
          -- What is found in the place of the compound is at the front of both texts.
          rw [htag] at hread'
          refine .error (congrArg SyntaxError.Cause.expectedSelector ?_)
          rw [eq_of_markedParts_nil hread, eq_of_markedParts_nil hread', h.head?_eq hspace hspace']
      | cons part parts => exact .ok hrest

/-- Behind the spacing the same combinator shows, or none in both texts. -/
theorem exists_combinator?_of_alike {c : Char} {more : List Char} (h : Alike cs cs')
    (hskip : Text.skipSpace cs = c :: more) (hcomma : c ≠ ',') :
    ∃ more', Text.skipSpace cs' = c :: more' ∧
      match combinator? (startsSpaced cs) (c :: more) with
      | none => combinator? (startsSpaced cs') (c :: more') = none
      | some (comb, after) => ∃ after',
        combinator? (startsSpaced cs') (c :: more') = some (comb, after') ∧ Alike after after' := by
  rcases h.exists_skipSpace_cons hskip with ⟨more', hskip', hmore, hc⟩
  refine ⟨more', hskip', ?_⟩
  rw [combinator?, combinator?]
  rcases hsign : combinatorOf? c with _ | comb
  · -- The character is no separator then, and the spacing decides.
    rcases hc with hsep | ⟨hspaced, hsame⟩
    · exact absurd (hsep.eq_comma hsign) hcomma
    · simp only [← hspaced]
      by_cases hstart : (startsSpaced cs && startsCompound c) = true
      · simp only [if_pos hstart]
        exact ⟨_, rfl, hsame.cons c⟩
      · simp only [if_neg hstart]
  · exact ⟨_, rfl, hmore⟩

/-- Where a combinator shows, both clauses are at the limit or go on with a compound. -/
theorem exists_clauseTail_of_alike {c : Char} {more after : List Char} {comb : Combinator}
    (h : Alike cs cs') (hskip : Text.skipSpace cs = c :: more) (hcomma : c ≠ ',')
    (hcomb : combinator? (startsSpaced cs) (c :: more) = some (comb, after)) :
    ∃ more' after', Agrees (compound after) (compound after') ∧
      clauseTail sel cs' =
        if maxCombinators ≤ sel.depth then
          .error ⟨c :: more', .tooManyCombinators maxCombinators⟩
        else
          match compound after' with
          | .error fault => .error fault
          | .ok (right, rest) => clauseTail (sel.combine comb right) rest := by
  have hshows := exists_combinator?_of_alike h hskip hcomma
  rw [hcomb] at hshows
  rcases hshows with ⟨more', hskip', after', hcomb', hafter⟩
  refine ⟨more', after', compound_agrees hafter (stops_isSpace_of_combinator? hcomb)
    (stops_isSpace_of_combinator? hcomb'), ?_⟩
  have htail : clauseTail sel cs' = _ := clauseTail_of_skip hskip' hcomma
  simp only [hcomb'] at htail
  exact htail

theorem clauseTail_agrees (h : Alike cs cs') :
    Agrees (clauseTail sel cs) (clauseTail sel cs') := by
  -- The induction follows the reader on the first text. In each of its cases the second
  -- text shows the same behind its spacing, so the reader goes the same way there.
  fun_induction clauseTail sel cs generalizing cs' with
  | case1 sel cs hskip =>
      rw [clauseTail_closes (.inl (h.skipSpace_eq_nil hskip)), ← hskip]
      exact .ok h.skipSpace
  | case2 sel cs more hskip =>
      rcases h.exists_skipSpace_cons hskip with ⟨more', hskip', _⟩
      rw [clauseTail_closes (.inr ⟨more', hskip'⟩), ← hskip]
      exact .ok h.skipSpace
  | case3 sel cs c more hskip hcomma hcomb =>
      have hshows := exists_combinator?_of_alike h hskip hcomma
      rw [hcomb] at hshows
      rcases hshows with ⟨more', hskip', hnone⟩
      rw [clauseTail_of_skip hskip' hcomma]
      simp only [hnone]
      exact .error rfl
  | case4 sel cs c more hskip hcomma comb after hcomb hlimit =>
      rcases exists_clauseTail_of_alike h hskip hcomma hcomb with ⟨more', after', _, htail⟩
      rw [htail, if_pos hlimit]
      exact .error rfl
  | case5 sel cs c more hskip hcomma comb after hcomb hlimit fault hright =>
      rcases exists_clauseTail_of_alike h hskip hcomma hcomb with ⟨more', after', hcompound, htail⟩
      rw [hright] at hcompound
      rcases hcompound.exists_error with ⟨fault', hright', hcause⟩
      rw [htail, if_neg hlimit, hright']
      exact .error hcause
  | case6 sel cs c more hskip hcomma comb after hcomb hlimit right left hright ih =>
      rcases exists_clauseTail_of_alike h hskip hcomma hcomb with ⟨more', after', hcompound, htail⟩
      rw [hright] at hcompound
      rcases hcompound.exists_ok with ⟨left', hright', hleft⟩
      rw [htail, if_neg hlimit, hright']
      exact ih hleft

theorem clause_agrees (h : Alike cs cs') (hspace : Stops Text.isSpace cs)
    (hspace' : Stops Text.isSpace cs') : Agrees (clause cs) (clause cs') := by
  have hcompound := compound_agrees h hspace hspace'
  rw [clause, clause]
  generalize compound cs = result, compound cs' = result' at hcompound
  cases hcompound with
  | error hcause => exact .error hcause
  | ok hrest => exact clauseTail_agrees hrest

/-- The clauses of both texts are the same, or the causes why there are none. -/
theorem clauses_agree {read : List Selector} (h : Alike cs cs') (hspace : Stops Text.isSpace cs)
    (hspace' : Stops Text.isSpace cs') :
    (clauses read cs).mapError Fault.cause = (clauses read cs').mapError Fault.cause := by
  fun_induction clauses read cs generalizing cs' with
  | case1 read cs fault hclause =>
      have hagrees := clause_agrees h hspace hspace'
      rw [hclause] at hagrees
      rcases hagrees.exists_error with ⟨fault', hclause', hcause⟩
      rw [clauses_of_error hclause']
      exact congrArg Except.error hcause
  | case2 read cs sel more hclause ih =>
      have hagrees := clause_agrees h hspace hspace'
      rw [hclause] at hagrees
      rcases hagrees.exists_ok with ⟨rest', hclause', hrest⟩
      rcases derives_of_clause hclause' with ⟨_, _, _, _, _, hend, _⟩
      rcases hrest.exists_comma hend with ⟨more', rfl, hmore⟩
      rw [clauses_of_comma hclause']
      exact ih hmore (stops_dropWhile _ more) (stops_dropWhile _ more')
  | case3 read cs sel rest hnocomma hclause =>
      have hagrees := clause_agrees h hspace hspace'
      rw [hclause] at hagrees
      rcases hagrees.exists_ok with ⟨rest', hclause', hrest⟩
      -- A clause ends at a comma or at the end of its text, and the first one at no comma.
      rcases derives_of_clause hclause with ⟨_, _, _, _, _, hend, _⟩
      rcases derives_of_clause hclause' with ⟨_, _, _, _, _, hend', _⟩
      rcases hend with rfl | ⟨more, rfl⟩
      · rcases hend' with rfl | ⟨more', rfl⟩
        · rw [clauses_of_end hclause']
        · rcases hrest.symm.exists_comma (.inl rfl) with ⟨_, hnil, _⟩
          cases hnil
      · exact absurd rfl (hnocomma more)

theorem list_agree (h : Alike (Text.skipSpace cs) (Text.skipSpace cs')) :
    (list cs).mapError Fault.cause = (list cs').mapError Fault.cause := by
  have hspace := stops_dropWhile Text.isSpace cs
  have hspace' := stops_dropWhile Text.isSpace cs'
  have hhead := h.head?_eq hspace hspace'
  have hclauses : (clauses [] _).mapError _ = _ := clauses_agree h hspace hspace'
  rw [list, list]
  -- One text is nothing but spacing exactly if the other one is.
  rcases hskip : Text.skipSpace cs with _ | ⟨c, more⟩
  · rcases hskip' : Text.skipSpace cs' with _ | ⟨c', more'⟩
    · rfl
    · rw [hskip, hskip'] at hhead
      cases hhead
  · rcases hskip' : Text.skipSpace cs' with _ | ⟨c', more'⟩
    · rw [hskip, hskip'] at hhead
      cases hhead
    · rwa [hskip, hskip'] at hclauses

end Parser

end Selector

theorem SelectorList.outcome_eq_of_respaced {cs cs' : List Char}
    (h : Relation.EqvGen Respaced cs cs') :
    (list cs).mapError Fault.cause = (list cs').mapError Fault.cause := by
  induction h with
  | rel _ _ hstep => exact list_agree hstep.alike
  | refl _ => rfl
  | symm _ _ _ ih => exact ih.symm
  | trans _ _ _ _ _ ih ih' => exact ih.trans ih'

/-- Spacing means nothing but for the one combinator that it is. Texts that differ in
    spacing only, be it how much there is in one place, or that there is any at the
    beginning, at the end or next to a separator, are read as the same list, or fail
    for the same cause, with the same characters named in it. -/
theorem parse_respaced {text text' : String}
    (h : Relation.EqvGen Respaced text.toList text'.toList) :
    (∃ list, SelectorList.parse text = .ok list ∧ SelectorList.parse text' = .ok list) ∨
    ∃ e e', SelectorList.parse text = .error e ∧ SelectorList.parse text' = .error e' ∧
      e.cause = e'.cause := by
  have houtcome := SelectorList.outcome_eq_of_respaced h
  rw [SelectorList.parse, SelectorList.parse]
  generalize list text.toList = result, list text'.toList = result' at houtcome
  rcases result with fault | sels <;> rcases result' with fault' | sels'
  · exact .inr ⟨_, _, rfl, rfl, Except.error.inj houtcome⟩
  · cases houtcome
  · cases houtcome
  · cases houtcome
    exact .inl ⟨_, rfl, rfl⟩

/-- A chain whose last compound is missing. The spacing in it is another one than in the
    second text, some is put in there, and some is taken away behind the sign. -/
theorem respaced_unfinished :
    Relation.EqvGen Respaced "a b> ,".toList " a\t b >,".toList := by
  have hspace : Spacing [' '] := Spacing.space
  have htab : Spacing ['\t', ' '] := (spacing_singleton.mpr (by decide)).append hspace
  have hsign : Separator '>' := by
    rw [Separator]
    decide
  have hbehind := @Respaced.behind ['a', ' ', 'b'] [','] [' '] '>' hsign hspace
  have hrun := @Respaced.run ['a'] [' '] ['\t', ' '] ['b', '>', ','] hspace htab (by decide)
    (by decide)
  have hbefore := @Respaced.before ['a', '\t', ' ', 'b'] [','] [' '] '>' hsign hspace
  have hfirst := @Respaced.first [' '] ['a', '\t', ' ', 'b', ' ', '>', ','] hspace
  exact .trans _ _ _ (.symm _ _ (.rel _ _ hbehind))
    (.trans _ _ _ (.rel _ _ hrun) (.trans _ _ _ (.rel _ _ hbefore) (.rel _ _ hfirst)))

/-- The comma that stands where the last compound should is named in both. -/
theorem unfinished_respaced :
    Relation.EqvGen Respaced "a b> ,".toList " a\t b >,".toList ∧
      ∃ e e', SelectorList.parse "a b> ," = .error e ∧ SelectorList.parse " a\t b >," = .error e' ∧
        e.cause = .expectedSelector (some ',') ∧ e'.cause = .expectedSelector (some ',') := by
  have hread : SelectorList.parse "a b> ," = .error ⟨5, .expectedSelector (some ',')⟩ := by
    decide +kernel
  refine ⟨respaced_unfinished, ?_⟩
  rcases parse_respaced respaced_unfinished with ⟨list, hlist, _⟩ | ⟨e, e', herror, herror', hcause⟩
  · rw [hread] at hlist
    cases hlist
  · have hcomma : e.cause = .expectedSelector (some ',') := by
      rw [← Except.error.inj (hread.symm.trans herror)]
    exact ⟨e, e', herror, herror', hcomma, hcause ▸ hcomma⟩

end DomQuery
