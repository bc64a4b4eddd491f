import DomQuery.Proofs.Failure
import Mathlib.Data.List.Forall2

/-!
# Pieces Between Commas

A text is read as its pieces between commas are read, each by itself.

The reader goes once through a text and never cuts it. A comma is nothing to it
but the end of a clause, and that it could be cut there first has to be seen
from the readers. None of them takes a comma or looks past one. So what a reader
does on some text it also does when a comma stands behind, or the end, and then
more: it leaves what it left with all of that behind it, and it fails in the
same place. Only one thing shows. Where a compound is missing at the end of the
text alone, it is now the comma that is found there in its place.
`Selector.Parser.onward` says this once for the results of all readers.

The pieces then follow one another. Each of those in front is read as one clause
and takes the reader to the next piece, and the first that fails does so with
the failure it has alone, told where the piece stands. A piece of nothing but
spacing is a case of its own. Alone it is an empty text, which is a failure told
at its end, and among other pieces it is a missing compound, told at the same
place.

## Main definitions

* `SelectorList.pieces`: The pieces of a text.
* `SyntaxError.Cause.amid`: A cause as it is told with something behind the text.
* `Grammar.Cut`: A text in front of which a piece ends.
* `Selector.Parser.onward`: The result of a reader with more text behind.
* `Selector.Parser.ReadAs`: A piece that is read as a clause.

## Theorems

* `Selector.Parser.compound_append_cut`, `Selector.Parser.clauseTail_append_cut`,
  `Selector.Parser.clause_append_cut`: What the readers make of a text with a piece
  at its front.
* `Selector.Parser.list_of_readAs`, `Selector.Parser.list_of_error`: What a text is
  read as when its pieces are, and how it fails when one of them does.
* `parse_pieces`: Reading a text and reading its pieces.
-/

namespace DomQuery

open Grammar Selector.Parser

/-- The pieces of a text between its commas. -/
def SelectorList.pieces (text : String) : List String :=
  (text.toList.splitOn ',').map String.ofList

/-- A cause as it is told when the text has something behind it. What is missing at
    the end of the text is then missing in front of that. -/
def SyntaxError.Cause.amid (next : Option Char) : SyntaxError.Cause → SyntaxError.Cause
  | .emptySelector => .expectedSelector next
  | .expectedSelector none => .expectedSelector next
  | cause => cause

namespace Grammar

variable {p : Char → Bool} {cs rest : List Char}

/-- The text is empty or starts with a comma. -/
def Cut (cs : List Char) : Prop := ∀ c ∈ cs.head?, c = ','

theorem Cut.comma (cs : List Char) : Cut (',' :: cs) := fun _ hc => (Option.some.inj hc).symm

theorem Cut.stops (h : Cut rest) (hp : p ',' = false) : Stops p rest := by
  intro c hc
  rw [h c hc, hp]

theorem takeWhile_append_rest (hstop : Stops p rest) :
    (cs ++ rest).takeWhile p = cs.takeWhile p := by
  rw [List.takeWhile_append, takeWhile_of_stops hstop, List.append_nil]
  split
  · next hall => exact ((List.takeWhile_prefix p).eq_of_length hall).symm
  · rfl

theorem dropWhile_append_rest (hstop : Stops p rest) :
    (cs ++ rest).dropWhile p = cs.dropWhile p ++ rest := by
  rw [List.dropWhile_append, dropWhile_of_stops hstop]
  split
  · next hall => rw [List.isEmpty_iff.mp hall, List.nil_append]
  · rfl

theorem Cut.skipSpace_append (h : Cut rest) :
    Text.skipSpace (cs ++ rest) = Text.skipSpace cs ++ rest :=
  dropWhile_append_rest (h.stops (by decide))

theorem Cut.eq_nil_or_comma (h : Cut rest) : rest = [] ∨ ∃ more, rest = ',' :: more := by
  cases rest with
  | nil => exact .inl rfl
  | cons c more => exact .inr ⟨more, by rw [h c rfl]⟩

end Grammar

namespace Selector

namespace Parser

/-- The failure of a text, with more text behind. -/
def Fault.onward (rest : List Char) (fault : Fault) : Fault :=
  ⟨fault.rest ++ rest, fault.cause.amid rest.head?⟩

/-- The result of a reader on a text, with more text behind. -/
def onward {α : Type} (rest : List Char) :
    Except Fault (α × List Char) → Except Fault (α × List Char)
  | .error fault => .error (fault.onward rest)
  | .ok (value, left) => .ok (value, left ++ rest)

/-! ### Readers -/

section Readers

variable {cs rest : List Char} {sel : Selector} {read : List Simple}

theorem markedParts_append_cut (hcut : Cut rest) :
    markedParts read (cs ++ rest) = onward rest (markedParts read cs) := by
  have hstop : Stops isIdentChar rest := hcut.stops (by decide)
  fun_induction markedParts read cs with
  | case1 read =>
      rw [markedParts_append .nil (hcut.stops (by decide)), List.append_nil]
      rfl
  | case2 read c cs hmark hname =>
      rw [List.cons_append, markedParts, if_pos hmark, ident, takeWhile_append_rest hstop,
        ← ident, if_pos hname]
      rfl
  | case3 read c cs hmark hname ih =>
      rw [List.cons_append, markedParts, if_pos hmark, ident, takeWhile_append_rest hstop,
        ← ident, if_neg hname, afterIdent, dropWhile_append_rest hstop]
      exact ih
  | case4 read c cs hmark =>
      rw [List.cons_append, markedParts, if_neg hmark]
      rfl

theorem compound_append_cut (hcut : Cut rest) :
    compound (cs ++ rest) = onward rest (compound cs) := by
  have hstop : Stops isIdentChar rest := hcut.stops (by decide)
  have htag : tagPart (cs ++ rest) = tagPart cs := by
    rw [tagPart, tagPart, ident, takeWhile_append_rest hstop, ← ident]
  have hafter : afterIdent (cs ++ rest) = afterIdent cs ++ rest := dropWhile_append_rest hstop
  rw [compound, compound, htag, hafter, markedParts_append_cut hcut]
  rcases markedParts (tagPart cs) (afterIdent cs) with fault | ⟨parts, left⟩
  · rfl
  · cases parts with
    | nil =>
        -- What is found in the place of the compound is behind the text if nothing is left.
        cases left with
        | nil => rfl
        | cons c left => rfl
    | cons part parts => rfl

theorem startsSpaced_append_cut (hcut : Cut rest) :
    startsSpaced (cs ++ rest) = startsSpaced cs := by
  cases cs with
  | cons c cs => rfl
  | nil => rcases hcut.eq_nil_or_comma with rfl | ⟨more, rfl⟩ <;> rfl

theorem combinator?_append_cut (hcut : Cut rest) (spaced : Bool) (c : Char) (cs : List Char) :
    combinator? spaced (c :: (cs ++ rest)) =
      (combinator? spaced (c :: cs)).map fun found => (found.1, found.2 ++ rest) := by
  rw [combinator?, combinator?]
  rcases combinatorOf? c with _ | comb
  · by_cases hstart : (spaced && startsCompound c) = true
    · simp only [if_pos hstart, Option.map_some, List.cons_append]
    · simp only [if_neg hstart, Option.map_none]
  · simp only [hcut.skipSpace_append, Option.map_some]

/-- Where a clause does not end, a combinator and a compound are taken. -/
theorem clauseTail_of_skip {c : Char} {more : List Char} (hskip : Text.skipSpace cs = c :: more)
    (hcomma : c ≠ ',') :
    clauseTail sel cs =
      match combinator? (startsSpaced cs) (c :: more) with
      | none => .error ⟨c :: more, .unexpectedCharacter c⟩
      | some (comb, after) =>
        if maxCombinators ≤ sel.depth then
          .error ⟨c :: more, .tooManyCombinators maxCombinators⟩
        else
          match compound after with
          | .error fault => .error fault
          | .ok (right, rest) => clauseTail (sel.combine comb right) rest := by
  rw [clauseTail]
  split
  · next hnil =>
    rw [hskip] at hnil
    cases hnil
  · next c' more' hskip' =>
    rw [hskip] at hskip'
    cases hskip'
    rw [if_neg hcomma]
    split
    · next hnone => simp only [hnone]
    · next comb after hcomb =>
      simp only [hcomb]
      split
      · rfl
      · split
        · next fault hright => simp only [hright]
        · next right rest hright => simp only [hright]

theorem clauseTail_append_of_skip {c : Char} {more : List Char} (hcut : Cut rest)
    (hskip : Text.skipSpace cs = c :: more) (hcomma : c ≠ ',') :
    clauseTail sel (cs ++ rest) =
      match combinator? (startsSpaced cs) (c :: more) with
      | none => .error ⟨c :: (more ++ rest), .unexpectedCharacter c⟩
      | some (comb, after) =>
        if maxCombinators ≤ sel.depth then
          .error ⟨c :: (more ++ rest), .tooManyCombinators maxCombinators⟩
        else
          match onward rest (compound after) with
          | .error fault => .error fault
          | .ok (right, left) => clauseTail (sel.combine comb right) left := by
  have hskip' : Text.skipSpace (cs ++ rest) = _ := hcut.skipSpace_append
  rw [hskip, List.cons_append] at hskip'
  rw [clauseTail_of_skip hskip' hcomma, startsSpaced_append_cut hcut, combinator?_append_cut hcut]
  rcases combinator? (startsSpaced cs) (c :: more) with _ | ⟨comb, after⟩
  · rfl
  · simp only [Option.map_some, compound_append_cut hcut]

theorem clauseTail_append_cut (hcut : Cut rest) :
    clauseTail sel (cs ++ rest) = onward rest (clauseTail sel cs) := by
  fun_induction clauseTail sel cs with
  | case1 sel cs hskip =>
      -- The clause ended at the end of the text, and ends where the rest starts.
      have hskip' : Text.skipSpace (cs ++ rest) = _ := hcut.skipSpace_append
      rw [hskip, List.nil_append] at hskip'
      have hclose : Closes (cs ++ rest) := by
        rw [Closes, hskip']
        exact hcut.eq_nil_or_comma
      rw [clauseTail_closes hclose, hskip']
      rfl
  | case2 sel cs more hskip =>
      -- It ended at a comma of the text, which is there still.
      have hskip' : Text.skipSpace (cs ++ rest) = _ := hcut.skipSpace_append
      rw [hskip, List.cons_append] at hskip'
      rw [clauseTail_closes (.inr ⟨more ++ rest, hskip'⟩), hskip']
      rfl
  | case3 sel cs c more hskip hcomma hcomb =>
      rw [clauseTail_append_of_skip hcut hskip hcomma, hcomb]
      rfl
  | case4 sel cs c more hskip hcomma comb after hcomb hlimit =>
      simp only [clauseTail_append_of_skip hcut hskip hcomma, hcomb, if_pos hlimit]
      rfl
  | case5 sel cs c more hskip hcomma comb after hcomb hlimit fault hright =>
      simp only [clauseTail_append_of_skip hcut hskip hcomma, hcomb, if_neg hlimit, hright]
      rfl
  | case6 sel cs c more hskip hcomma comb after hcomb hlimit right left hright ih =>
      simp only [clauseTail_append_of_skip hcut hskip hcomma, hcomb, if_neg hlimit, hright]
      exact ih

theorem clause_append_cut (hcut : Cut rest) : clause (cs ++ rest) = onward rest (clause cs) := by
  rw [clause, clause, compound_append_cut hcut]
  rcases compound cs with fault | ⟨subject, left⟩
  · rfl
  · exact clauseTail_append_cut hcut

end Readers

/-! ### Pieces -/

section Pieces

variable {piece cs rest : List Char} {sel : Selector} {read sels : List Selector} {fault : Fault}
  {before after : List (List Char)}

/-- The piece is read as one clause. -/
def ReadAs (piece : List Char) (sel : Selector) : Prop :=
  clause (Text.skipSpace piece) = .ok (sel, [])

theorem clauses_of_error (h : clause cs = .error fault) : clauses read cs = .error fault := by
  rw [clauses]
  split
  · next fault' herr =>
    rw [h] at herr
    cases herr
    rfl
  · next hok =>
    rw [h] at hok
    cases hok
  · next hok =>
    rw [h] at hok
    cases hok

theorem clause_nil : clause [] = .error ⟨[], .expectedSelector none⟩ := by
  rw [clause, compound, show afterIdent [] = [] from rfl, markedParts]
  rfl

theorem list_of_clauses (h : clauses [] (Text.skipSpace cs) = .ok sels) : list cs = .ok sels := by
  rw [list]
  split
  · next hskip =>
    rw [hskip, clauses_of_error clause_nil] at h
    cases h
  · next c more hskip => rwa [hskip] at h

theorem list_of_comma (hcomma : ',' ∈ cs) : list cs = clauses [] (Text.skipSpace cs) := by
  rw [list]
  split
  · next hskip =>
    -- A text of spacing has no comma.
    exact absurd (skipSpace_eq_nil_iff.mp hskip ',' hcomma) (by decide)
  · next c more hskip => rw [hskip]

theorem ReadAs.list (h : ReadAs piece sel) : list piece = .ok [sel] :=
  list_of_clauses (clauses_of_end h)

/-- A clause takes all of a text without commas. -/
theorem eq_nil_of_clause (hcomma : ',' ∉ cs) (h : clause (Text.skipSpace cs) = .ok (sel, rest)) :
    rest = [] := by
  rcases derives_of_clause h with ⟨text, w, hcs, _, _, hrest | ⟨more, rfl⟩, _⟩
  · exact hrest
  · refine absurd ((List.dropWhile_sublist Text.isSpace).mem ?_) hcomma
    rw [← Text.skipSpace, hcs]
    simp

/-- A piece by itself is read as one clause if it is read at all. -/
theorem readAs_of_list (hcomma : ',' ∉ piece) (h : Parser.list piece = .ok sels) :
    ∃ sel, sels = [sel] ∧ ReadAs piece sel := by
  rcases hclause : clause (Text.skipSpace piece) with fault | ⟨sel, rest⟩
  · rw [Parser.list] at h
    split at h
    · cases h
    · next c more hskip =>
      rw [hskip] at hclause
      rw [clauses_of_error hclause] at h
      cases h
  · have hrest := eq_nil_of_clause hcomma hclause
    subst hrest
    rw [ReadAs.list hclause] at h
    cases h
    exact ⟨sel, rfl, hclause⟩

/-- A piece fails by itself where it does as a clause, with the same cause once there
    is something behind it. -/
theorem onward_of_list (hcomma : ',' ∉ piece) (h : Parser.list piece = .error fault) :
    ∃ fault', clause (Text.skipSpace piece) = .error fault' ∧
      ∀ rest, fault'.onward rest = fault.onward rest := by
  rcases hclause : clause (Text.skipSpace piece) with fault' | ⟨sel, rest⟩
  · refine ⟨fault', rfl, fun rest => ?_⟩
    rw [Parser.list] at h
    split at h
    · next hskip =>
      -- The clause that is missing in a text of spacing.
      cases h
      rw [hskip, clause_nil] at hclause
      cases hclause
      rfl
    · next c more hskip =>
      rw [hskip] at hclause
      rw [clauses_of_error hclause] at h
      cases h
      rfl
  · have hrest := eq_nil_of_clause hcomma hclause
    subst hrest
    rw [ReadAs.list hclause] at h
    cases h

/-- Pieces that are read, each with its comma behind it, take the reader to what is
    behind them. -/
theorem clauses_append_pieces (hbefore : List.Forall₂ ReadAs before sels) :
    clauses read (Text.skipSpace (before.flatMap (· ++ [',']) ++ rest)) =
      clauses (sels.reverse ++ read) (Text.skipSpace rest) := by
  induction hbefore generalizing read with
  | nil => rfl
  | @cons piece sel before sels hpiece _ ih =>
      -- The clause of the first piece ends at the comma behind it.
      have hcut := Cut.comma (before.flatMap (· ++ [',']) ++ rest)
      have hclause : clause (Text.skipSpace piece ++ _) = _ := clause_append_cut hcut
      rw [ReadAs] at hpiece
      rw [hpiece, onward, List.nil_append] at hclause
      rw [List.flatMap_cons, List.append_assoc, List.append_assoc, List.singleton_append,
        hcut.skipSpace_append, clauses_of_comma hclause, ih, List.reverse_cons, List.append_assoc]
      rfl

/-- A text is read as the clauses of its pieces. -/
theorem list_of_readAs (hbefore : List.Forall₂ ReadAs before sels) (hpiece : ReadAs piece sel) :
    Parser.list (before.flatMap (· ++ [',']) ++ piece) = .ok (sels ++ [sel]) := by
  refine list_of_clauses ?_
  rw [clauses_append_pieces hbefore, clauses_of_end hpiece, List.append_nil, List.reverse_cons,
    List.reverse_reverse]

/-- A text fails where the first of its pieces does that is not read, in the way this
    piece does with the others behind it. -/
theorem list_of_error (hbefore : List.Forall₂ ReadAs before sels) (hcomma : ',' ∉ piece)
    (hcut : Cut rest) (hmany : ',' ∈ before.flatMap (· ++ [',']) ++ (piece ++ rest))
    (h : Parser.list piece = .error fault) :
    Parser.list (before.flatMap (· ++ [',']) ++ (piece ++ rest)) = .error (fault.onward rest) := by
  rcases onward_of_list hcomma h with ⟨fault', hclause, honward⟩
  have hpiece : clause (Text.skipSpace piece ++ _) = _ := clause_append_cut hcut
  rw [hclause, onward, honward] at hpiece
  rw [list_of_comma hmany, clauses_append_pieces hbefore, hcut.skipSpace_append,
    clauses_of_error hpiece]

/-- The place of the failure of a piece in the whole text. -/
theorem Fault.toSyntaxError_onward {front cut : List Char} (hcut : piece = cut ++ fault.rest) :
    (fault.onward rest).toSyntaxError (front ++ (piece ++ rest)) =
      ⟨Text.utf8Size front + (fault.toSyntaxError piece).offset, fault.cause.amid rest.head?⟩ := by
  simp only [toSyntaxError, onward, hcut, Text.utf8Size_append]
  rw [Nat.add_sub_cancel, Nat.add_assoc (Text.utf8Size cut), ← Nat.add_assoc, Nat.add_sub_cancel]

end Pieces

end Parser

end Selector

/-! ### Strings -/

namespace SelectorList

variable {text piece : String} {before after : List String} {sels : List Selector}

theorem map_toList_pieces (text : String) :
    (pieces text).map String.toList = text.toList.splitOn ',' := by
  rw [pieces, List.map_map]
  exact List.map_id'' (fun _ => String.toList_ofList) _

theorem intercalate_pieces (text : String) : String.intercalate "," (pieces text) = text := by
  rw [← String.toList_inj, String.toList_intercalate, map_toList_pieces]
  exact List.intercalate_splitOn ','

theorem not_mem_of_mem_splitOn {cs piece : List Char} (h : piece ∈ cs.splitOn ',') :
    ',' ∉ piece := by
  induction cs generalizing piece with
  | nil =>
      rw [List.splitOn_nil, List.mem_singleton] at h
      rw [h]
      exact List.not_mem_nil
  | cons c cs ih =>
      rw [List.splitOn_cons_eq_if_modifyHead] at h
      split at h
      · rcases List.mem_cons.mp h with rfl | h
        · exact List.not_mem_nil
        · exact ih h
      · next hc =>
        -- The character belongs to the first piece of what is behind it.
        rcases List.exists_cons_of_ne_nil (List.splitOn_ne_nil ',' cs) with ⟨first, others, hcs⟩
        rw [hcs] at h ih
        rcases List.mem_cons.mp h with rfl | h
        · rw [List.mem_cons, not_or]
          exact ⟨fun heq => hc (beq_iff_eq.mpr heq.symm), ih List.mem_cons_self⟩
        · exact ih (List.mem_cons_of_mem _ h)

theorem not_mem_of_mem_pieces (h : piece ∈ pieces text) : ',' ∉ piece.toList := by
  have hsplit : piece.toList ∈ (pieces text).map String.toList := List.mem_map_of_mem h
  rw [map_toList_pieces] at hsplit
  exact not_mem_of_mem_splitOn hsplit

/-- Up to some piece, each piece stands with a comma behind it. -/
theorem intercalate_append_cons (before : List String) (piece : String) (after : List String) :
    String.intercalate "," (before ++ piece :: after) =
      String.join (before.map (· ++ ",")) ++ String.intercalate "," (piece :: after) := by
  induction before with
  | nil => rw [List.nil_append, List.map_nil, String.join_nil, String.empty_append]
  | cons first before ih =>
      have hne : before ++ piece :: after ≠ [] :=
        List.append_ne_nil_of_right_ne_nil _ (List.cons_ne_nil _ _)
      rw [List.cons_append, String.intercalate_cons_of_ne_nil hne, ih, List.map_cons,
        String.join_cons, String.append_assoc, String.append_assoc, String.append_assoc]

theorem toList_join_commas (before : List String) :
    (String.join (before.map (· ++ ","))).toList =
      (before.map String.toList).flatMap (· ++ [',']) := by
  rw [String.toList_join, List.flatMap_map, List.flatMap_map]
  exact congrArg (List.flatMap · before) (funext fun piece => String.toList_append)

/-- A text is the pieces in front of some piece, each with a comma behind it, then the
    piece, and behind it a comma, or the end if it is the last one. -/
theorem exists_rest_of_pieces (h : pieces text = before ++ piece :: after) :
    ∃ rest, text.toList =
        (before.map String.toList).flatMap (· ++ [',']) ++ (piece.toList ++ rest) ∧
      rest.head? = after.head?.map fun _ => ',' := by
  have htext := intercalate_pieces text
  rw [h, intercalate_append_cons, ← String.toList_inj, String.toList_append,
    toList_join_commas] at htext
  rw [← htext]
  cases after with
  | nil => exact ⟨[], by rw [String.intercalate_singleton, List.append_nil], rfl⟩
  | cons next after =>
      refine ⟨',' :: (String.intercalate "," (next :: after)).toList, ?_, rfl⟩
      rw [String.intercalate_cons_cons, String.toList_append, String.toList_append,
        List.append_assoc piece.toList]
      rfl

/-- Where there are several pieces there is a comma. -/
theorem comma_mem_of_pieces {rest : List Char} (hmany : ¬ (before = [] ∧ after = []))
    (hrest : rest.head? = after.head?.map fun _ => ',') :
    ',' ∈ (before.map String.toList).flatMap (· ++ [',']) ++ (piece.toList ++ rest) := by
  rcases before with _ | ⟨first, before⟩
  · rcases after with _ | ⟨next, after⟩
    · exact absurd ⟨rfl, rfl⟩ hmany
    · exact List.mem_append_right _ (List.mem_append_right _ (List.mem_of_mem_head? hrest))
  · refine List.mem_append_left _ (List.mem_flatMap.mpr ⟨first.toList, List.mem_cons_self, ?_⟩)
    exact List.mem_append_right _ List.mem_cons_self

theorem parse_of_readAs {sel : Selector} (h : ReadAs piece.toList sel) :
    parse piece = .ok ⟨[sel]⟩ := by
  rw [parse, h.list]

/-- A text without commas is read as one clause if it is read at all. -/
theorem parse_eq_ok_iff_readAs (hcomma : ',' ∉ piece.toList) {list : SelectorList} :
    parse piece = .ok list ↔ ∃ sel, list = ⟨[sel]⟩ ∧ ReadAs piece.toList sel := by
  constructor
  · intro h
    unfold parse at h
    split at h
    · cases h
    · next sels hlist =>
      cases h
      rcases readAs_of_list hcomma hlist with ⟨sel, rfl, hread⟩
      exact ⟨sel, rfl, hread⟩
  · rintro ⟨sel, rfl, hread⟩
    exact parse_of_readAs hread

theorem exists_forall₂_readAs (hcomma : ∀ piece ∈ before, ',' ∉ piece.toList)
    (hread : ∀ piece ∈ before, ∃ list, parse piece = .ok list) :
    ∃ sels, List.Forall₂ ReadAs (before.map String.toList) sels := by
  induction before with
  | nil => exact ⟨[], .nil⟩
  | cons piece before ih =>
      rw [List.forall_mem_cons] at hcomma hread
      rcases hread.1 with ⟨list, hlist⟩
      rcases (parse_eq_ok_iff_readAs hcomma.1).mp hlist with ⟨sel, _, hsel⟩
      rcases ih hcomma.2 hread.2 with ⟨sels, hsels⟩
      exact ⟨sel :: sels, .cons hsel hsels⟩

/-- Among texts that are not all read there is a first one that fails. -/
theorem exists_first_error {texts : List String}
    (h : ¬ ∀ piece ∈ texts, ∃ list, parse piece = .ok list) :
    ∃ before piece after e, texts = before ++ piece :: after ∧
      (∀ piece ∈ before, ∃ list, parse piece = .ok list) ∧ parse piece = .error e := by
  induction texts with
  | nil => exact absurd (fun piece hpiece => absurd hpiece List.not_mem_nil) h
  | cons first texts ih =>
      rcases hfirst : parse first with e | list
      · exact ⟨[], first, texts, e, rfl, fun _ h => absurd h List.not_mem_nil, hfirst⟩
      · rw [List.forall_mem_cons] at h
        rcases ih fun hall => h ⟨⟨list, hfirst⟩, hall⟩ with
          ⟨before, piece, after, e, rfl, hbefore, he⟩
        refine ⟨first :: before, piece, after, e, rfl, ?_, he⟩
        exact List.forall_mem_cons.mpr ⟨⟨list, hfirst⟩, hbefore⟩

/-- A text of which all pieces are read is read as their clauses. -/
theorem parse_of_pieces (hread : ∀ piece ∈ pieces text, ∃ list, parse piece = .ok list) :
    ∃ list, parse text = .ok list ∧
      List.Forall₂ (fun piece sel => parse piece = .ok ⟨[sel]⟩) (pieces text) list.clauses := by
  have hcomma : ∀ piece ∈ pieces text, ',' ∉ piece.toList := fun _ => not_mem_of_mem_pieces
  -- The last piece is the one without a comma behind it.
  rcases List.eq_nil_or_concat' (pieces text) with hnil | ⟨before, piece, hpieces⟩
  · rw [pieces, List.map_eq_nil_iff] at hnil
    exact absurd hnil (List.splitOn_ne_nil ',' _)
  · rcases exists_rest_of_pieces hpieces with ⟨rest, htext, hrest⟩
    rw [List.head?_nil, Option.map_none, List.head?_eq_none_iff] at hrest
    rw [hrest, List.append_nil] at htext
    rw [hpieces] at hread hcomma ⊢
    rw [List.forall_mem_append, List.forall_mem_singleton] at hread hcomma
    rcases exists_forall₂_readAs hcomma.1 hread.1 with ⟨sels, hsels⟩
    rcases hread.2 with ⟨list, hlist⟩
    rcases (parse_eq_ok_iff_readAs hcomma.2).mp hlist with ⟨sel, _, hsel⟩
    refine ⟨⟨sels ++ [sel]⟩, ?_, ?_⟩
    · rw [parse, htext, list_of_readAs hsels hsel]
    · exact List.rel_append
        ((List.forall₂_map_left_iff.mp hsels).imp fun _ _ => parse_of_readAs)
        (.cons (parse_of_readAs hsel) .nil)

/-- A text fails where the first of its pieces does that is not read. -/
theorem parse_error_of_pieces {e : SyntaxError} (hpieces : pieces text = before ++ piece :: after)
    (hbefore : ∀ piece ∈ before, ∃ list, parse piece = .ok list) (h : parse piece = .error e) :
    parse text = .error ⟨(String.join (before.map (· ++ ","))).utf8ByteSize + e.offset,
      if before = [] ∧ after = [] then e.cause
      else e.cause.amid (after.head?.map fun _ => ',')⟩ := by
  by_cases hone : before = [] ∧ after = []
  · -- The only piece is the text itself.
    rcases hone with ⟨rfl, rfl⟩
    have htext := intercalate_pieces text
    rw [hpieces, List.nil_append, String.intercalate_singleton] at htext
    rw [← htext, h, List.map_nil, String.join_nil, if_pos ⟨rfl, rfl⟩, String.utf8ByteSize_empty,
      Nat.zero_add]
  · have hcomma : ∀ p ∈ before ++ piece :: after, ',' ∉ p.toList := by
      rw [← hpieces]
      exact fun _ => not_mem_of_mem_pieces
    rw [List.forall_mem_append, List.forall_mem_cons] at hcomma
    rcases exists_forall₂_readAs hcomma.1 hbefore with ⟨sels, hsels⟩
    rcases exists_rest_of_pieces hpieces with ⟨rest, htext, hrest⟩
    -- What stands behind the piece starts with a comma if there is anything.
    have hcut : Cut rest := by
      intro c hc
      rw [hrest, Option.mem_def, Option.map_eq_some_iff] at hc
      rcases hc with ⟨_, _, hc⟩
      exact hc.symm
    unfold parse at h
    split at h
    · next fault hlist =>
      cases h
      rcases exists_cut_of_list_error hlist with ⟨front, hfront, _⟩
      rw [parse, htext, list_of_error hsels hcomma.2.1 hcut (comma_mem_of_pieces hone hrest) hlist,
        if_neg hone, ← hrest, Text.utf8ByteSize_eq, toList_join_commas]
      exact congrArg Except.error (Fault.toSyntaxError_onward hfront)
    · cases h

end SelectorList

/-- Reading a text and reading its pieces. The pieces are what stands between the
    commas. The text is read exactly if all of them are, and then as the clauses they
    are read as, one for each. Otherwise it fails as the first piece does that is not
    read, so many bytes further on as there are in front of the piece. The cause is
    the same but for what is missing at the end of the piece, which among several
    pieces is a compound, in front of the comma if the piece is not the last one. -/
theorem parse_pieces (text : String) :
    (String.intercalate "," (SelectorList.pieces text) = text ∧
      ∀ piece ∈ SelectorList.pieces text, ',' ∉ piece.toList) ∧
    ((∃ list, SelectorList.parse text = .ok list) ↔
      ∀ piece ∈ SelectorList.pieces text, ∃ list, SelectorList.parse piece = .ok list) ∧
    (∀ list, SelectorList.parse text = .ok list →
      List.Forall₂ (fun piece sel => SelectorList.parse piece = .ok ⟨[sel]⟩)
        (SelectorList.pieces text) list.clauses) ∧
    ∀ before piece after e, SelectorList.pieces text = before ++ piece :: after →
      (∀ p ∈ before, ∃ list, SelectorList.parse p = .ok list) →
      SelectorList.parse piece = .error e →
      text = String.join (before.map (· ++ ",")) ++ String.intercalate "," (piece :: after) ∧
      SelectorList.parse text =
        .error ⟨(String.join (before.map (· ++ ","))).utf8ByteSize + e.offset,
          if before = [] ∧ after = [] then e.cause
          else e.cause.amid (after.head?.map fun _ => ',')⟩ := by
  have hread : ∀ list, SelectorList.parse text = .ok list →
      ∀ piece ∈ SelectorList.pieces text, ∃ list, SelectorList.parse piece = .ok list := by
    intro list hlist
    by_contra hfails
    -- The first piece that fails would make the text fail.
    rcases SelectorList.exists_first_error hfails with
      ⟨before, piece, after, e, hpieces, hbefore, he⟩
    rw [SelectorList.parse_error_of_pieces hpieces hbefore he] at hlist
    cases hlist
  refine ⟨⟨SelectorList.intercalate_pieces text, fun _ => SelectorList.not_mem_of_mem_pieces⟩,
    ⟨fun ⟨list, hlist⟩ => hread list hlist, fun hall => ?_⟩, fun list hlist => ?_,
    fun before piece after e hpieces hbefore he => ⟨?_, ?_⟩⟩
  · rcases SelectorList.parse_of_pieces hall with ⟨list, hlist, _⟩
    exact ⟨list, hlist⟩
  · rcases SelectorList.parse_of_pieces (hread list hlist) with ⟨list', hlist', hclauses⟩
    rw [hlist'] at hlist
    cases hlist
    exact hclauses
  · rw [← SelectorList.intercalate_append_cons, ← hpieces, SelectorList.intercalate_pieces]
  · exact SelectorList.parse_error_of_pieces hpieces hbefore he

/-- Between two commas there is a piece of spacing, which fails for being empty by
    itself. In the text a compound is missing in front of the second comma. -/
theorem parse_pieces_spaced :
    SelectorList.pieces "ul, ,é" = ["ul"] ++ " " :: ["é"] ∧
      SelectorList.parse " " = .error ⟨1, .emptySelector⟩ ∧
      SelectorList.parse "ul, ,é" = .error ⟨4, .expectedSelector (some ',')⟩ := by
  have hpieces : SelectorList.pieces "ul, ,é" = ["ul"] ++ " " :: ["é"] := by decide +kernel
  have hfirst : SelectorList.parse "ul" = .ok ⟨[⟨⟨[.tag "ul"]⟩, []⟩]⟩ := by decide +kernel
  have hspaced : SelectorList.parse " " = .error ⟨1, .emptySelector⟩ := by decide +kernel
  have herror := (parse_pieces "ul, ,é").2.2.2 _ _ _ _ hpieces
    (List.forall_mem_singleton.mpr ⟨_, hfirst⟩) hspaced
  exact ⟨hpieces, hspaced, herror.2⟩

end DomQuery
