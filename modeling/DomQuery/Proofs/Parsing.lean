import DomQuery.Proofs.Grammar

/-!
# Reading and the Grammar

The reader of selectors accepts what the grammar derives, and nothing else.

Both directions follow the readers from the inside outwards, and each reader has
one lemma a direction. Completeness says what a reader does on a derived text
with more text behind it: it stops where the derivation ends, provided that
nothing behind could belong to it. Soundness says what a reader has taken when
it succeeds: a derived text, with the rest of the input untouched. For the
clause and the list the rest may begin with spacing that was skipped and belongs
to no part, and the statements carry it along until a comma or the end claims
it.

The grammar is ambiguous as to where spacing belongs and unambiguous as to what
a text stands for. That is proved of derivations rather than read off from the
reader, so it holds of chains of any length: two derivations that cover the
beginning of the same text take the same first combinator and the same compound
behind it, and go on from the same place (`Selector.Extends.unique`).

## Theorems

* `Selector.Parser.compound_append`, `Selector.Parser.clauseTail_append`,
  `Selector.Parser.clauses_append`: What the readers make of derived texts.
* `Selector.Parser.derives_of_compound`, `Selector.Parser.extends_of_clauseTail`,
  `Selector.Parser.derives_of_clauses`: What the readers have taken.
* `SelectorList.parse_of_derives`, `SelectorList.derives_of_parse`: The same for
  a whole text.
* `SelectorList.Derives.unique`: A text has one meaning.
* `parse_eq_ok_iff_derives`: The reader and the grammar.
-/

namespace DomQuery

open Grammar

namespace Selector

namespace Parser

/-- An identifier is taken as a whole when nothing behind it goes on with it. -/
theorem ident_append {name rest : List Char} (hname : Ident name) (hstop : Stops isIdentChar rest) :
    ident (name ++ rest) = name ∧ afterIdent (name ++ rest) = rest := by
  have hrun : ∀ c ∈ name, isIdentChar c = true := fun c hc => isIdentChar_iff.mpr (hname.2 c hc)
  exact ⟨takeWhile_append_of_stops hrun hstop, dropWhile_append_of_stops hrun hstop⟩

theorem markedParts_cons {mark : Char} {name rest : List Char} {read : List Simple}
    (hmark : isMark mark = true) (hname : Ident name) (hstop : Stops isIdentChar rest) :
    markedParts read (mark :: name ++ rest) = markedParts (marked mark name :: read) rest := by
  rcases ident_append hname hstop with ⟨htake, hdrop⟩
  have hne : name.isEmpty = false := List.isEmpty_eq_false_iff.mpr hname.1
  rw [List.cons_append, markedParts, if_pos hmark, htake, hdrop, hne, if_neg Bool.false_ne_true]

/-- A text that does not start with a mark is left as it is. -/
theorem markedParts_of_stops {cs : List Char} {read : List Simple} (hstop : Stops isMark cs) :
    markedParts read cs = .ok (read.reverse, cs) := by
  cases cs with
  | nil => rw [markedParts]
  | cons c cs => rw [markedParts, if_neg (by rw [stops_cons.mp hstop]; exact Bool.false_ne_true)]

theorem markedParts_append {cs rest : List Char} {parts read : List Simple}
    (h : Marked cs parts) (hstop : Stops startsCompound rest) :
    markedParts read (cs ++ rest) = .ok (read.reverse ++ parts, rest) := by
  induction h generalizing read with
  | nil =>
      rw [List.nil_append, List.append_nil]
      exact markedParts_of_stops fun c hc => (Bool.or_eq_false_iff.mp (hstop c hc)).2
  | @id name cs parts hname hrest ih =>
      rw [List.append_assoc, markedParts_cons (by decide) hname (hrest.stops_append hstop), ih,
        List.reverse_cons, List.append_assoc, marked, if_pos rfl, String.ofList_toList]
      rfl
  | @cls name cs parts hname hrest ih =>
      rw [List.append_assoc, markedParts_cons (by decide) hname (hrest.stops_append hstop), ih,
        List.reverse_cons, List.append_assoc, marked, if_neg (by decide), String.ofList_toList]
      rfl

/-- A compound is taken as a whole when nothing behind it could belong to it. -/
theorem compound_append {cs rest : List Char} {c : Compound} (h : Compound.Derives cs c)
    (hstop : Stops startsCompound rest) : compound (cs ++ rest) = .ok (c, rest) := by
  cases h with
  | @tagged name cs parts hname hmarked =>
      rcases ident_append hname (hmarked.stops_append hstop) with ⟨htake, hdrop⟩
      have htag : tagPart (name.toList ++ (cs ++ rest)) = [.tag name] := by
        rw [tagPart, htake, if_neg, String.ofList_toList]
        exact fun hempty => hname.1 (List.isEmpty_iff.mp hempty)
      rw [compound, List.append_assoc, htag, hdrop, markedParts_append hmarked hstop]
      rfl
  | marked hmarked hne =>
      -- Without a type name the identifier at the front is empty.
      have hident : ident (cs ++ rest) = [] := takeWhile_of_stops (hmarked.stops_append hstop)
      have hafter : afterIdent (cs ++ rest) = cs ++ rest :=
        dropWhile_of_stops (hmarked.stops_append hstop)
      have htag : tagPart (cs ++ rest) = [] := by
        rw [tagPart, hident, List.isEmpty_nil, if_pos rfl]
      rw [compound, htag, hafter, markedParts_append hmarked hstop]
      rcases List.exists_cons_of_ne_nil hne with ⟨part, parts, rfl⟩
      rfl

/-- One step of a clause: behind the part already read, a combinator and a
    compound are taken, unless there are too many combinators by then. -/
theorem clauseTail_link {sel : Selector} {mid back rest : List Char} {comb : Combinator}
    {c : Compound} (hcomb : Combinator.Derives mid comb) (hright : Compound.Derives back c)
    (hstop : Stops startsCompound rest) (hdepth : sel.depth < maxCombinators) :
    clauseTail sel (mid ++ (back ++ rest)) = clauseTail (sel.combine comb c) rest := by
  rcases hcomb.skipSpace_append (hright.opens.append rest) with ⟨y, after, hskip, hcomma, hread⟩
  -- Of the ways the reader can go, all but the last contradict what is known of the text.
  rw [clauseTail]
  split
  · next hnil =>
    rw [hskip] at hnil
    exact absurd hnil (List.cons_ne_nil y after)
  · next y' after' hskip' =>
    rw [hskip] at hskip'
    cases hskip'
    rw [if_neg hcomma]
    split
    · next hnone =>
      rw [hread] at hnone
      exact absurd hnone (Option.some_ne_none _)
    · next comb' after' hread' =>
      rw [hread] at hread'
      cases hread'
      rw [if_neg (Nat.not_le_of_lt hdepth)]
      split
      · next fault herr =>
        rw [compound_append hright hstop] at herr
        cases herr
      · next c' rest' hok =>
        rw [compound_append hright hstop] at hok
        cases hok
        rfl

/-- A clause ends in front of a comma or the end, the spacing there skipped. -/
theorem clauseTail_closes {sel : Selector} {rest : List Char} (hclose : Closes rest) :
    clauseTail sel rest = .ok (sel, Text.skipSpace rest) := by
  rw [clauseTail]
  split
  · next hnil => rw [hnil]
  · next c more hcons =>
    rw [Closes, hcons] at hclose
    rcases hclose with hclose | ⟨more', hclose⟩
    · exact absurd hclose (List.cons_ne_nil c more)
    · rw [if_pos (List.cons.inj hclose).1, hcons]

theorem clauseTail_append {sel sel' : Selector} {cs rest : List Char} (h : Extends sel cs sel')
    (hclose : Closes rest) (hdepth : sel'.depth ≤ maxCombinators) :
    clauseTail sel (cs ++ rest) = .ok (sel', Text.skipSpace rest) := by
  induction h with
  | refl sel => exact clauseTail_closes hclose
  | link hcomb hright hrest ih =>
      -- The link is within the limit because the whole clause is.
      have hlt := Nat.lt_of_lt_of_le (Nat.lt_succ_self _) (Nat.le_trans hrest.depth_le hdepth)
      rw [List.append_assoc, List.append_assoc,
        clauseTail_link hcomb hright (hrest.stops hclose) hlt]
      exact ih hdepth

theorem clause_append {sel : Selector} {cs rest : List Char} (h : Derives cs sel)
    (hclose : Closes rest) (hdepth : sel.depth ≤ maxCombinators) :
    clause (cs ++ rest) = .ok (sel, Text.skipSpace rest) := by
  rcases derives_iff_extends.mp h with ⟨front, tail, c, rfl, hc, hext⟩
  rw [clause, List.append_assoc, compound_append hc (hext.stops hclose)]
  exact clauseTail_append hext hclose hdepth

theorem clauses_of_comma {sel : Selector} {read : List Selector} {cs more : List Char}
    (h : clause cs = .ok (sel, ',' :: more)) :
    clauses read cs = clauses (sel :: read) (Text.skipSpace more) := by
  rw [clauses]
  split
  · next fault herr =>
    rw [h] at herr
    cases herr
  · next sel' more' hok =>
    rw [h] at hok
    cases hok
    rfl
  · next sel' rest hnocomma hok =>
    rw [h] at hok
    cases hok
    exact absurd rfl (hnocomma more)

theorem clauses_of_end {sel : Selector} {read : List Selector} {cs : List Char}
    (h : clause cs = .ok (sel, [])) : clauses read cs = .ok (sel :: read).reverse := by
  rw [clauses]
  split
  · next fault herr =>
    rw [h] at herr
    cases herr
  · next sel' more' hok =>
    rw [h] at hok
    cases hok
  · next sel' rest hnocomma hok =>
    rw [h] at hok
    cases hok
    rfl

theorem clauses_append {cs v : List Char} {sels read : List Selector}
    (h : SelectorList.DerivesClauses cs sels) (hv : Spacing v)
    (hdepth : ∀ sel ∈ sels, sel.depth ≤ maxCombinators) :
    clauses read (cs ++ v) = .ok (read.reverse ++ sels) := by
  have hend := hv.skipSpace_eq_nil
  induction h generalizing read with
  | @one cs sel h =>
      have hclause := clause_append h (.inl hend) (hdepth sel List.mem_cons_self)
      rw [hend] at hclause
      rw [clauses_of_end hclause, List.reverse_cons]
  | @comma cs u w rest sel sels h hu hw hrest ih =>
      -- The clause ends in front of the comma, and the next one starts behind it.
      have hcomma := hu.skipSpace_comma (w ++ (rest ++ v))
      have hclause := clause_append h (.inr ⟨_, hcomma⟩) (hdepth sel List.mem_cons_self)
      rw [hcomma] at hclause
      have hnext := (hrest.opens.append v).skipSpace_append hw
      have hrest' : clauses (sel :: read) (rest ++ v) = .ok ((sel :: read).reverse ++ sels) :=
        ih fun sel' hsel' => hdepth sel' (List.mem_cons_of_mem _ hsel')
      rw [List.append_assoc, List.append_assoc, List.cons_append, List.append_assoc,
        clauses_of_comma hclause, hnext, hrest', List.reverse_cons, List.append_assoc]
      rfl

theorem ident_of_ident {cs : List Char} (hne : ¬ (ident cs).isEmpty = true) :
    Ident (String.ofList (ident cs)).toList := by
  rw [String.toList_ofList]
  refine ⟨fun hnil => hne (List.isEmpty_iff.mpr hnil), fun c hc => ?_⟩
  exact isIdentChar_iff.mp (List.mem_takeWhile_imp hc)

/-- A mark and the name behind it stand for one more condition. -/
theorem marked_cons_ident {mark : Char} {cs text : List Char} {new : List Simple}
    (hmark : isMark mark = true) (hname : ¬ (ident cs).isEmpty = true) (hnew : Marked text new) :
    Marked (mark :: ident cs ++ text) (marked mark (ident cs) :: new) := by
  -- The mark decides which of the two conditions the name belongs to.
  rw [isMark, Bool.or_eq_true, beq_iff_eq, beq_iff_eq] at hmark
  rcases hmark with rfl | rfl
  · have hid := Marked.id (ident_of_ident hname) hnew
    rw [String.toList_ofList] at hid
    rw [marked, if_pos rfl]
    exact hid
  · have hcls := Marked.cls (ident_of_ident hname) hnew
    rw [String.toList_ofList] at hcls
    rw [marked, if_neg (by decide)]
    exact hcls

theorem marked_of_markedParts {cs rest : List Char} {read parts : List Simple}
    (h : markedParts read cs = .ok (parts, rest)) :
    ∃ text new, parts = read.reverse ++ new ∧ cs = text ++ rest ∧ Marked text new := by
  fun_induction markedParts read cs with
  | case1 read =>
      cases h
      exact ⟨[], [], (List.append_nil _).symm, rfl, .nil⟩
  | case2 => cases h
  | case3 read c cs hmark hname ih =>
      rcases ih h with ⟨text, new, hparts, hcs, hnew⟩
      refine ⟨c :: ident cs ++ text, marked c (ident cs) :: new, ?_, ?_, ?_⟩
      · rw [hparts, List.reverse_cons, List.append_assoc]
        rfl
      · rw [List.append_assoc, ← hcs, List.cons_append, ident_append_afterIdent]
      · exact marked_cons_ident hmark hname hnew
  | case4 read c cs hmark =>
      cases h
      exact ⟨[], [], (List.append_nil _).symm, rfl, .nil⟩

theorem reverse_tagPart (cs : List Char) : (tagPart cs).reverse = tagPart cs := by
  rw [tagPart]
  split <;> rfl

/-- A type name or none and marked names make a compound when there is one of
    these. -/
theorem derives_tagPart_append {cs text : List Char} {new : List Simple} (hmarked : Marked text new)
    (hne : tagPart cs ++ new ≠ []) : Compound.Derives (ident cs ++ text) ⟨tagPart cs ++ new⟩ := by
  by_cases htag : (ident cs).isEmpty = true
  · rw [tagPart, if_pos htag, List.nil_append] at hne ⊢
    rw [List.isEmpty_iff.mp htag, List.nil_append]
    exact .marked hmarked hne
  · have htext := Compound.Derives.tagged (ident_of_ident htag) hmarked
    rw [String.toList_ofList] at htext
    rw [tagPart, if_neg htag]
    exact htext

theorem derives_of_compound {cs rest : List Char} {c : Compound}
    (h : compound cs = .ok (c, rest)) : ∃ text, cs = text ++ rest ∧ Compound.Derives text c := by
  unfold compound at h
  split at h
  · cases h
  · cases h
  · next parts rest' hne hparts =>
    cases h
    rcases marked_of_markedParts hparts with ⟨text, new, hnew, hcs, hmarked⟩
    rw [reverse_tagPart] at hnew
    subst hnew
    refine ⟨ident cs ++ text, ?_, derives_tagPart_append hmarked hne⟩
    rw [List.append_assoc, ← hcs, ident_append_afterIdent]

theorem derives_of_combinator? {cs more after : List Char} {x : Char} {comb : Combinator}
    (hskip : Text.skipSpace cs = x :: more)
    (h : combinator? (startsSpaced cs) (x :: more) = some (comb, after)) :
    ∃ mid, cs = mid ++ after ∧ Combinator.Derives mid comb := by
  rcases exists_spacing_append cs with ⟨u, hu, hcs, hspaced⟩
  rw [hskip] at hcs
  unfold combinator? at h
  split at h
  · next hnil => cases hnil
  · next x' more' hcons =>
    cases hcons
    split at h
    · next comb' hsign =>
      cases h
      -- The spacing behind the sign belongs to the combinator too.
      rcases exists_spacing_append more with ⟨v, hv, hmore, _⟩
      refine ⟨u ++ x :: v, ?_, .sign hu (combinatorOf?_eq_some_iff.mp hsign) hv⟩
      rw [List.append_assoc, List.cons_append, ← hmore]
      exact hcs
    · split at h
      · next hstart =>
        cases h
        rw [Bool.and_eq_true] at hstart
        refine ⟨u, hcs, .spacing hu fun hnil => ?_⟩
        rw [hspaced.mp hnil] at hstart
        exact Bool.false_ne_true hstart.1
      · cases h

/-- What the rest of a clause has taken extends the clause. Spacing behind it was
    skipped, and a comma or the end stopped it. -/
theorem extends_of_clauseTail {sel sel' : Selector} {cs rest : List Char}
    (h : clauseTail sel cs = .ok (sel', rest)) (hdepth : sel.depth ≤ maxCombinators) :
    ∃ text w, cs = text ++ (w ++ rest) ∧ Extends sel text sel' ∧ Spacing w ∧
      (rest = [] ∨ ∃ more, rest = ',' :: more) ∧ sel'.depth ≤ maxCombinators := by
  fun_induction clauseTail sel cs with
  | case1 sel cs hskip =>
      cases h
      rcases exists_spacing_append cs with ⟨w, hw, hcs, _⟩
      rw [hskip] at hcs
      exact ⟨[], w, hcs, .refl _, hw, .inl rfl, hdepth⟩
  | case2 sel cs more hskip =>
      cases h
      rcases exists_spacing_append cs with ⟨w, hw, hcs, _⟩
      rw [hskip] at hcs
      exact ⟨[], w, hcs, .refl _, hw, .inr ⟨more, rfl⟩, hdepth⟩
  | case3 => cases h
  | case4 => cases h
  | case5 => cases h
  | case6 sel cs c more hskip hcomma comb after hcomb hlimit right rest' hright ih =>
      have hdepth' : (sel.combine comb right).depth ≤ maxCombinators := by
        rw [depth_combine]
        omega
      rcases ih h hdepth' with ⟨text, w, hrest, hext, hw, hend, hle⟩
      rcases derives_of_combinator? hskip hcomb with ⟨mid, hmid, hderives⟩
      rcases derives_of_compound hright with ⟨back, hback, hcompound⟩
      refine ⟨mid ++ (back ++ text), w, ?_, .link hderives hcompound hext, hw, hend, hle⟩
      rw [List.append_assoc, List.append_assoc, ← hrest, ← hback]
      exact hmid

theorem derives_of_clause {sel : Selector} {cs rest : List Char}
    (h : clause cs = .ok (sel, rest)) :
    ∃ text w, cs = text ++ (w ++ rest) ∧ Derives text sel ∧ Spacing w ∧
      (rest = [] ∨ ∃ more, rest = ',' :: more) ∧ sel.depth ≤ maxCombinators := by
  unfold clause at h
  split at h
  · cases h
  · next subject rest' hsubject =>
    rcases derives_of_compound hsubject with ⟨front, hfront, hcompound⟩
    rcases extends_of_clauseTail h (Nat.zero_le _) with ⟨text, w, hrest, hext, hw, hend, hle⟩
    refine ⟨front ++ text, w, ?_, derives_iff_extends.mpr ⟨_, _, _, rfl, hcompound, hext⟩, hw, hend,
      hle⟩
    rw [List.append_assoc, ← hrest]
    exact hfront

theorem derives_of_clauses {read sels : List Selector} {cs : List Char}
    (h : clauses read cs = .ok sels) :
    ∃ text v new, sels = read.reverse ++ new ∧ cs = text ++ v ∧
      SelectorList.DerivesClauses text new ∧ Spacing v ∧
      ∀ sel ∈ new, sel.depth ≤ maxCombinators := by
  fun_induction clauses read cs with
  | case1 => cases h
  | case2 read cs sel more hclause ih =>
      -- A comma: the spacing on either side of it goes to this step.
      rcases derives_of_clause hclause with ⟨front, u, hcs, hsel, hu, _, hdepth⟩
      rcases exists_spacing_append more with ⟨w, hw, hmore, _⟩
      rcases ih h with ⟨text, v, new, hsels, htext, hnew, hv, hdepths⟩
      refine ⟨front ++ (u ++ ',' :: (w ++ text)), v, sel :: new, ?_, ?_, .comma hsel hu hw hnew, hv,
        ?_⟩
      · rw [hsels, List.reverse_cons, List.append_assoc]
        rfl
      · rw [hcs, hmore, htext]
        simp only [List.append_assoc, List.cons_append]
      · intro sel' hsel'
        rcases List.mem_cons.mp hsel' with rfl | hsel'
        · exact hdepth
        · exact hdepths sel' hsel'
  | case3 read cs sel rest hnocomma hclause =>
      cases h
      rcases derives_of_clause hclause with ⟨front, w, hcs, hsel, hw, hend, hdepth⟩
      -- The clause was stopped by a comma or the end, and not by a comma.
      have hrest : rest = [] := by
        rcases hend with hend | ⟨more, hend⟩
        · exact hend
        · exact absurd hend (hnocomma more)
      rw [hrest, List.append_nil] at hcs
      refine ⟨front, w, [sel], List.reverse_cons, hcs, .one hsel, hw, fun sel' hsel' => ?_⟩
      rw [List.mem_singleton.mp hsel']
      exact hdepth

end Parser

end Selector

namespace SelectorList

open Selector.Parser

/-- A derived text is read as what it is derived from. -/
theorem parse_of_derives {text : String} {sels : SelectorList}
    (h : SelectorList.Derives text.toList sels)
    (hdepth : ∀ sel ∈ sels.clauses, sel.depth ≤ maxCombinators) : parse text = .ok sels := by
  generalize hcs : text.toList = cs at h
  cases h with
  | @padded u cs v sels hu hclauses hv =>
      have hread : Selector.Parser.clauses [] (cs ++ v) = .ok sels :=
        clauses_append hclauses hv hdepth
      have hopens := hclauses.opens.append v
      have hlist : list (u ++ (cs ++ v)) = .ok sels := by
        rw [list, hopens.skipSpace_append hu]
        rcases hopens with ⟨x, more, hcons, _⟩
        rw [hcons] at hread ⊢
        exact hread
      rw [parse, hcs, hlist]

/-- A text that is read is derived from what it is read as. -/
theorem derives_of_parse {text : String} {sels : SelectorList} (h : parse text = .ok sels) :
    SelectorList.Derives text.toList sels ∧ ∀ sel ∈ sels.clauses, sel.depth ≤ maxCombinators := by
  unfold parse at h
  split at h
  · cases h
  · next clauses' hlist =>
    cases h
    unfold list at hlist
    split at hlist
    · cases hlist
    · next c more hskip =>
      rcases exists_spacing_append text.toList with ⟨u, hu, htext, _⟩
      rcases derives_of_clauses hlist with ⟨cs, v, new, hnew, hcs, hclauses, hv, hdepth⟩
      rw [List.reverse_nil, List.nil_append] at hnew
      rw [htext, hskip, hcs, hnew]
      exact ⟨.padded hu hclauses hv, hdepth⟩

end SelectorList

section Unique

variable {cs cs' rest rest' : List Char}

/-- A compound at the front of a text is the only one there. -/
theorem Compound.Derives.unique {c c' : Compound} (h : Compound.Derives cs c)
    (h' : Compound.Derives cs' c') (hstop : Stops Selector.Parser.startsCompound rest)
    (hstop' : Stops Selector.Parser.startsCompound rest') (heq : cs ++ rest = cs' ++ rest') :
    c = c' ∧ rest = rest' := by
  have hread := Selector.Parser.compound_append h hstop
  rw [heq, Selector.Parser.compound_append h' hstop'] at hread
  cases hread
  exact ⟨rfl, rfl⟩

/-- What extends a clause at the front of a text is the only thing that does. -/
theorem Selector.Extends.unique {sel sel₁ sel₂ : Selector} (h : Selector.Extends sel cs sel₁)
    (h' : Selector.Extends sel cs' sel₂) (hclose : Closes rest) (hclose' : Closes rest')
    (heq : cs ++ rest = cs' ++ rest') : sel₁ = sel₂ ∧ rest = rest' := by
  -- Along the first derivation. Where one of them ends the other cannot go on, a
  -- clause not ending in front of a link.
  induction h generalizing cs' with
  | refl sel =>
      cases h' with
      | refl => exact ⟨rfl, heq⟩
      | @link mid back tail _ _ _ _ hcomb hback htail =>
          rw [List.nil_append, List.append_assoc, List.append_assoc] at heq
          rw [heq] at hclose
          exact absurd hclose (hcomb.not_closes (hback.opens.append (tail ++ rest')))
  | @link mid back tail sel sel₁ comb c hcomb hback htail ih =>
      cases h' with
      | refl =>
          rw [List.nil_append, List.append_assoc, List.append_assoc] at heq
          rw [← heq] at hclose'
          exact absurd hclose' (hcomb.not_closes (hback.opens.append (tail ++ rest)))
      | @link mid' back' tail' _ _ comb' c' hcomb' hback' htail' =>
          rw [List.append_assoc, List.append_assoc, List.append_assoc, List.append_assoc] at heq
          rcases hcomb.skipSpace_append (hback.opens.append (tail ++ rest)) with
            ⟨y, after, hskip, _, hread⟩
          rcases hcomb'.skipSpace_append (hback'.opens.append (tail' ++ rest')) with
            ⟨y', after', hskip', _, hread'⟩
          -- Both derivations see the same combinator and the same text behind it.
          rw [heq, hskip'] at hskip
          rw [heq, ← hskip, hread'] at hread
          rw [Option.some.injEq, Prod.mk.injEq] at hread
          rcases hread with ⟨rfl, hbacks⟩
          rcases hback.unique hback' (htail.stops hclose) (htail'.stops hclose') hbacks.symm with
            ⟨rfl, htails⟩
          exact ih htail' htails

theorem Selector.Derives.unique {sel sel' : Selector} (h : Selector.Derives cs sel)
    (h' : Selector.Derives cs' sel') (hclose : Closes rest) (hclose' : Closes rest')
    (heq : cs ++ rest = cs' ++ rest') : sel = sel' ∧ rest = rest' := by
  rcases Selector.derives_iff_extends.mp h with ⟨front, tail, c, rfl, hc, hext⟩
  rcases Selector.derives_iff_extends.mp h' with ⟨front', tail', c', rfl, hc', hext'⟩
  rw [List.append_assoc, List.append_assoc] at heq
  rcases hc.unique hc' (hext.stops hclose) (hext'.stops hclose') heq with ⟨rfl, htails⟩
  exact hext.unique hext' hclose hclose' htails

theorem SelectorList.DerivesClauses.unique {sels sels' : List Selector} {v v' : List Char}
    (h : SelectorList.DerivesClauses cs sels) (h' : SelectorList.DerivesClauses cs' sels')
    (hv : Spacing v) (hv' : Spacing v') (heq : cs ++ v = cs' ++ v') : sels = sels' := by
  have hend := hv.skipSpace_eq_nil
  have hend' := hv'.skipSpace_eq_nil
  -- Spacing at the end of a text is no comma with a clause behind it.
  have hcomma : ∀ {u w e : List Char}, Spacing u → Text.skipSpace w = [] → w ≠ u ++ ',' :: e := by
    intro u w e hu hw hwe
    rw [hwe, hu.skipSpace_comma] at hw
    exact List.cons_ne_nil _ _ hw
  induction h generalizing cs' sels' with
  | @one cs sel h =>
      cases h' with
      | one h' => rw [(h.unique h' (.inl hend) (.inl hend') heq).1]
      | @comma cs' u w rest sel' sels' h' hu hw hrest =>
          simp only [List.append_assoc, List.cons_append] at heq
          have hclose := hu.skipSpace_comma (w ++ (rest ++ v'))
          exact absurd (h.unique h' (.inl hend) (.inr ⟨_, hclose⟩) heq).2 (hcomma hu hend)
  | @comma cs u w rest sel sels h hu hw hrest ih =>
      have hclose := hu.skipSpace_comma (w ++ (rest ++ v))
      cases h' with
      | one h' =>
          simp only [List.append_assoc, List.cons_append] at heq
          exact absurd (h.unique h' (.inr ⟨_, hclose⟩) (.inl hend') heq).2.symm (hcomma hu hend')
      | @comma cs' u' w' rest' sel' sels' h' hu' hw' hrest' =>
          simp only [List.append_assoc, List.cons_append] at heq
          have hclose' := hu'.skipSpace_comma (w' ++ (rest' ++ v'))
          -- The clauses are the same, and so is what the comma and its spacing leave.
          rcases h.unique h' (.inr ⟨_, hclose⟩) (.inr ⟨_, hclose'⟩) heq with ⟨rfl, hcommas⟩
          have hmore := congrArg Text.skipSpace hcommas
          rw [hclose, hclose', List.cons.injEq] at hmore
          have hnext := congrArg Text.skipSpace hmore.2
          rw [(hrest.opens.append v).skipSpace_append hw,
            (hrest'.opens.append v').skipSpace_append hw'] at hnext
          rw [ih hrest' hnext]

/-- A text has one meaning, whatever the length of its chains. -/
theorem SelectorList.Derives.unique {list list' : SelectorList} (h : SelectorList.Derives cs list)
    (h' : SelectorList.Derives cs list') : list = list' := by
  generalize hcs : cs = text at h'
  cases h with
  | @padded u front v sels hu h hv =>
      cases h' with
      | @padded u' front' v' sels' hu' h' hv' =>
          -- The spacing in front is all that is skipped of either reading.
          have hskip := congrArg Text.skipSpace hcs
          rw [(h.opens.append v).skipSpace_append hu,
            (h'.opens.append v').skipSpace_append hu'] at hskip
          rw [h.unique h' hv hv' hskip]

end Unique

/-- The reader and the grammar. A text is read as a list when the whole of it is
    derived from the list and no clause has more than 256 combinators, and no
    text is derived from two lists. -/
theorem parse_eq_ok_iff_derives (text : String) :
    (∀ list, SelectorList.parse text = .ok list ↔
      SelectorList.Derives text.toList list ∧ ∀ sel ∈ list.clauses, sel.depth ≤ 256) ∧
    ∀ list list', SelectorList.Derives text.toList list → SelectorList.Derives text.toList list' →
      list = list' :=
  ⟨fun _ => ⟨SelectorList.derives_of_parse, fun h => SelectorList.parse_of_derives h.1 h.2⟩,
    fun _ _ => SelectorList.Derives.unique⟩

end DomQuery
