import DomQuery.Proofs.Grammar
import DomQuery.Tree.Element

/-!
# Classes as Tokens

What the classes of an element are, said about its class attribute alone.

A class attribute is cut at every spacing character, and the empty pieces are
dropped. What is left over is told here without cutting. A `Text.Run` is a place
in a text: what stands in front, a word, and what stands behind. It is a maximal
run of the text when the word is free of spacing and spacing, or an end of the
text, stands on either side of it. The classes are the words of all these
places, from the front to the back (`Text.exists_runs`), and a name is a class
exactly when there is such a place for it.

A text starts with spacing, or with a word that reaches as far as the next
spacing, and `Text.words_induction` is the induction along that. In front of
what follows, a spacing character adds no place and moves all of them by one; a
word adds one place and moves the others by its length.

Words with spacing between any two of them are cut into the same words again,
whatever the spacing is, as long as there is some in each gap.

## Main definitions

* `Text.Word`, `Text.EndsSpaced`, `Text.StartsSpaced`: Words, and what may stand beside
  one.
* `Text.Run`, `Text.Run.In`: A place in a text, and that it is a maximal run.
* `Text.Joins`: Words with spacing between any two of them.
* `Element.classChars`: The characters of the class attribute.

## Theorems

* `Text.words_induction`: The induction along spacing and words.
* `Text.tokens_cons`, `Text.tokens_append`: The tokens behind spacing and words.
* `Text.exists_runs`: The tokens are the maximal runs.
* `Text.mem_tokens_iff`: When a word is one of the tokens.
* `Text.tokens_of_joins`: Tokens joined and cut again.
* `classes_are_maximal_runs`: All of it for the classes of an element.
-/

namespace DomQuery

namespace Text

open Grammar

/-- At least one character, and none of them spacing. -/
def Word (cs : List Char) : Prop := cs ≠ [] ∧ ∀ c ∈ cs, isSpace c = false

/-- The text is empty or ends with spacing. -/
def EndsSpaced (cs : List Char) : Prop := cs = [] ∨ ∃ front c, cs = front ++ [c] ∧ isSpace c = true

/-- The text is empty or starts with spacing. -/
def StartsSpaced (cs : List Char) : Prop := cs = [] ∨ ∃ c back, cs = c :: back ∧ isSpace c = true

/-- A text in three parts. -/
structure Run where
  front : List Char
  word : List Char
  back : List Char

/-- The part in the middle is a word of the text that cannot be made longer to either
    side. -/
structure Run.In (r : Run) (cs : List Char) : Prop where
  eq : cs = r.front ++ r.word ++ r.back
  word : Word r.word
  front : EndsSpaced r.front
  back : StartsSpaced r.back

/-- Words with spacing between any two of them. -/
inductive Joins : List (List Char) → List Char → Prop where
  | nil : Joins [] []
  | single (w : List Char) : Joins [w] w
  | cons {w w' gap cs : List Char} {words : List (List Char)} (hne : gap ≠ [])
      (hgap : ∀ c ∈ gap, isSpace c = true) (h : Joins (w' :: words) cs) :
      Joins (w :: w' :: words) (w ++ gap ++ cs)

variable {cs w back gap : List Char} {c : Char}

theorem startsSpaced_iff_stops : StartsSpaced cs ↔ Stops (!isSpace ·) cs := by
  constructor
  · rintro (rfl | ⟨c, back, rfl, hc⟩)
    · exact Stops.nil _
    · rw [stops_cons, hc, Bool.not_true]
  · intro h
    cases cs with
    | nil => exact .inl rfl
    | cons c back => exact .inr ⟨c, back, rfl, Bool.not_eq_eq_eq_not.mp (stops_cons.mp h)⟩

theorem StartsSpaced.append (hne : gap ≠ []) (hgap : ∀ c ∈ gap, isSpace c = true)
    (cs : List Char) : StartsSpaced (gap ++ cs) := by
  cases gap with
  | nil => exact absurd rfl hne
  | cons c gap => exact .inr ⟨c, gap ++ cs, rfl, hgap c List.mem_cons_self⟩

theorem endsSpaced_cons (hc : isSpace c = true) : EndsSpaced (c :: cs) ↔ EndsSpaced cs := by
  constructor
  · rintro (hnil | ⟨front, d, hcs, hd⟩)
    · cases hnil
    · cases front with
      | nil => exact .inl (List.cons.inj hcs).2
      | cons x front => exact .inr ⟨front, d, (List.cons.inj hcs).2, hd⟩
  · rintro (rfl | ⟨front, d, rfl, hd⟩)
    · exact .inr ⟨[], c, rfl, hc⟩
    · exact .inr ⟨c :: front, d, rfl, hd⟩

/-- A word does not start with spacing. -/
theorem Word.not_startsSpaced (h : Word w) (back : List Char) : ¬ StartsSpaced (w ++ back) := by
  rintro (hnil | ⟨c, rest, hcons, hc⟩)
  · exact h.1 (List.append_eq_nil_iff.mp hnil).1
  · cases w with
    | nil => exact h.1 rfl
    | cons x w =>
        rcases List.cons.inj hcons with ⟨rfl, _⟩
        rw [h.2 x List.mem_cons_self] at hc
        cases hc

/-- A text starts with one word only that spacing follows. -/
theorem Word.unique {w' back' : List Char} (h : Word w) (h' : Word w') (hback : StartsSpaced back)
    (hback' : StartsSpaced back') (heq : w ++ back = w' ++ back') : w = w' ∧ back = back' := by
  have hfree : ∀ {w}, Word w → ∀ c ∈ w, (!isSpace c) = true := fun h c hc => by
    rw [h.2 c hc, Bool.not_false]
  rw [startsSpaced_iff_stops] at hback hback'
  constructor
  · rw [← takeWhile_append_of_stops (hfree h) hback, heq,
      takeWhile_append_of_stops (hfree h') hback']
  · rw [← dropWhile_append_of_stops (hfree h) hback, heq,
      dropWhile_append_of_stops (hfree h') hback']

/-- Induction along a text that takes spacing one character at a time, and a word as
    a whole. -/
@[elab_as_elim]
theorem words_induction {motive : List Char → Prop} (nil : motive [])
    (space : ∀ c cs, isSpace c = true → motive cs → motive (c :: cs))
    (word : ∀ w back, Word w → StartsSpaced back → motive back → motive (w ++ back))
    (cs : List Char) : motive cs := by
  match cs with
  | [] => exact nil
  | c :: cs =>
      cases hc : isSpace c with
      | true => exact space c cs hc (words_induction nil space word cs)
      | false =>
          -- The word is as long as it can be, so what is left starts with spacing.
          have hw : Word (c :: cs.takeWhile (!isSpace ·)) := by
            refine ⟨List.cons_ne_nil _ _, fun x hx => ?_⟩
            rcases List.mem_cons.mp hx with rfl | hx
            · exact hc
            · have hfree := List.mem_takeWhile_imp hx
              rwa [Bool.not_eq_true'] at hfree
          have hback : StartsSpaced (cs.dropWhile (!isSpace ·)) :=
            startsSpaced_iff_stops.mpr (stops_dropWhile _ cs)
          have hlen : (cs.dropWhile (!isSpace ·)).length < (c :: cs).length :=
            Nat.lt_succ_of_le (List.dropWhile_sublist _).length_le
          have hcs : c :: cs = (c :: cs.takeWhile (!isSpace ·)) ++ cs.dropWhile (!isSpace ·) := by
            rw [List.cons_append, List.takeWhile_append_dropWhile]
          rw [hcs]
          exact word _ _ hw hback (words_induction nil space word _)
termination_by cs.length
decreasing_by
  · exact hlen
  · exact Nat.lt_succ_self _

theorem tokens_nil : tokens [] = [] := rfl

/-- Spacing in front leaves the tokens as they are. -/
theorem tokens_cons (hc : isSpace c = true) : tokens (c :: cs) = tokens cs := by
  rw [tokens, List.splitOnP_cons_eq_if_modifyHead, if_pos hc, List.filter_cons_of_neg (by decide),
    tokens]

/-- A word in front is the first token. -/
theorem tokens_append (hw : Word w) (hback : StartsSpaced back) :
    tokens (w ++ back) = w :: tokens back := by
  have hne : (!w.isEmpty) = true := by
    rw [Bool.not_eq_true', List.isEmpty_eq_false_iff]
    exact hw.1
  rcases hback with rfl | ⟨c, back, rfl, hc⟩
  · rw [List.append_nil, tokens, List.splitOnP_eq_singleton hw.2, List.filter_cons, if_pos hne,
      List.filter_nil, tokens_nil]
  · rw [tokens_cons hc, tokens, List.splitOnP_append_cons_of_forall_mem hw.2 c hc,
      List.filter_cons, if_pos hne, tokens]

theorem tokens_append_of_spacing (hgap : ∀ c ∈ gap, isSpace c = true) :
    tokens (gap ++ cs) = tokens cs := by
  induction gap with
  | nil => rfl
  | cons c gap ih =>
      rw [List.cons_append, tokens_cons (hgap c List.mem_cons_self),
        ih fun x hx => hgap x (List.mem_cons_of_mem c hx)]

namespace Run

variable {r : Run}

theorem not_in_nil : ¬ r.In [] := by
  intro h
  have hnil := h.eq.symm
  rw [List.append_eq_nil_iff, List.append_eq_nil_iff] at hnil
  exact h.word.1 hnil.1.2

/-- Spacing in front moves all runs by one. -/
theorem in_cons_iff (hc : isSpace c = true) :
    r.In (c :: cs) ↔ ∃ r' : Run, r'.In cs ∧ { r' with front := c :: r'.front } = r := by
  rcases r with ⟨front, word, back⟩
  constructor
  · rintro ⟨heq, hword, hfront, hback⟩
    cases front with
    | nil => exact absurd (.inr ⟨c, cs, heq.symm, hc⟩) (hword.not_startsSpaced back)
    | cons x front =>
        cases heq
        exact ⟨⟨front, word, back⟩, ⟨rfl, hword, (endsSpaced_cons hc).mp hfront, hback⟩, rfl⟩
  · rintro ⟨⟨front', word', back'⟩, ⟨rfl, hword, hfront, hback⟩, hr⟩
    cases hr
    exact ⟨rfl, hword, (endsSpaced_cons hc).mpr hfront, hback⟩

/-- A word in front is a run, and moves all others by its length. -/
theorem in_append_iff (hw : Word w) (hback : StartsSpaced back) :
    r.In (w ++ back) ↔
      r = ⟨[], w, back⟩ ∨ ∃ r' : Run, r'.In back ∧ { r' with front := w ++ r'.front } = r := by
  rcases r with ⟨front, word, back'⟩
  constructor
  · rintro ⟨heq, hword, hfront | ⟨front, d, rfl, hd⟩, hback'⟩
    · subst hfront
      rcases hw.unique hword hback hback' heq with ⟨rfl, rfl⟩
      exact .inl rfl
    · -- The spacing in front of the run is not in the word, so it is behind it.
      simp only [List.append_assoc, List.singleton_append] at heq
      rcases List.append_eq_append_iff.mp heq with ⟨mid, rfl, hrest⟩ | ⟨mid, rfl, hrest⟩
      · exact .inr ⟨⟨mid ++ [d], word, back'⟩,
          ⟨by simp only [hrest, List.append_assoc, List.cons_append, List.nil_append],
            hword, .inr ⟨mid, d, rfl, hd⟩, hback'⟩, by rw [List.append_assoc]⟩
      · cases mid with
        | nil =>
            refine .inr ⟨⟨[d], word, back'⟩, ⟨hrest.symm, hword, .inr ⟨[], d, rfl, hd⟩, hback'⟩, ?_⟩
            rw [List.append_nil]
        | cons x mid =>
            rcases List.cons.inj hrest with ⟨rfl, _⟩
            rw [hw.2 d (List.mem_append_right _ List.mem_cons_self)] at hd
            cases hd
  · rintro (hr | ⟨⟨front', word', back''⟩, ⟨rfl, hword, hfront, hback'⟩, hr⟩)
    · cases hr
      exact ⟨rfl, hw, .inl rfl, hback⟩
    · cases hr
      refine ⟨by simp only [List.append_assoc], hword, ?_, hback'⟩
      -- Spacing follows the word, so no run starts right behind it.
      rcases hfront with rfl | ⟨mid, d, rfl, hd⟩
      · exact absurd hback (hword.not_startsSpaced _)
      · exact .inr ⟨w ++ mid, d, (List.append_assoc w mid [d]).symm, hd⟩

end Run

/-- The tokens are the words of all maximal runs, from the front to the back. -/
theorem exists_runs (cs : List Char) :
    ∃ runs : List Run, (∀ r, r ∈ runs ↔ r.In cs) ∧
      runs.Pairwise (fun r s => r.front.length < s.front.length) ∧
      tokens cs = runs.map Run.word := by
  induction cs using words_induction with
  | nil => exact ⟨[], fun r => iff_of_false List.not_mem_nil Run.not_in_nil, .nil, rfl⟩
  | space c cs hc ih =>
      rcases ih with ⟨runs, hmem, hsorted, htokens⟩
      refine ⟨runs.map fun r => { r with front := c :: r.front }, fun r => ?_, ?_, ?_⟩
      · simp only [List.mem_map, Run.in_cons_iff hc, hmem]
      · exact hsorted.map _ fun r s hlt => Nat.succ_lt_succ hlt
      · rw [tokens_cons hc, htokens, List.map_map]
        rfl
  | word w back hw hback ih =>
      rcases ih with ⟨runs, hmem, hsorted, htokens⟩
      refine ⟨⟨[], w, back⟩ :: runs.map fun r => { r with front := w ++ r.front },
        fun r => ?_, ?_, ?_⟩
      · simp only [List.mem_cons, List.mem_map, Run.in_append_iff hw hback, hmem]
      · -- The word stands at the very front, and the others behind it.
        refine List.pairwise_cons.mpr ⟨fun r hr => ?_, hsorted.map _ fun r s hlt => ?_⟩
        · rcases List.mem_map.mp hr with ⟨r', _, rfl⟩
          rw [List.length_append]
          exact Nat.add_pos_left (List.length_pos_iff.mpr hw.1) _
        · rw [List.length_append, List.length_append]
          exact Nat.add_lt_add_left hlt _
      · rw [tokens_append hw hback, htokens, List.map_cons, List.map_map]
        rfl

theorem mem_tokens_iff : w ∈ tokens cs ↔ Word w ∧
    ∃ front back, cs = front ++ w ++ back ∧ EndsSpaced front ∧ StartsSpaced back := by
  rcases exists_runs cs with ⟨runs, hmem, _, htokens⟩
  rw [htokens, List.mem_map]
  constructor
  · rintro ⟨r, hr, rfl⟩
    have hin := (hmem r).mp hr
    exact ⟨hin.word, r.front, r.back, hin.eq, hin.front, hin.back⟩
  · rintro ⟨hw, front, back, heq, hfront, hback⟩
    exact ⟨⟨front, w, back⟩, (hmem _).mpr ⟨heq, hw, hfront, hback⟩, rfl⟩

/-- Words are the tokens of what they are joined to. -/
theorem tokens_of_joins {words : List (List Char)} (h : Joins words cs)
    (hwords : ∀ w ∈ words, Word w) : tokens cs = words := by
  induction h with
  | nil => rfl
  | single w =>
      have htokens := tokens_append (hwords w List.mem_cons_self) (.inl rfl)
      rwa [List.append_nil, tokens_nil] at htokens
  | @cons w w' gap cs words hne hgap h ih =>
      rw [List.append_assoc, tokens_append (hwords w List.mem_cons_self) (.append hne hgap cs),
        tokens_append_of_spacing hgap, ih fun v hv => hwords v (List.mem_cons_of_mem w hv)]

/-- The same spacing may stand in all gaps. -/
theorem joins_intercalate (hne : gap ≠ []) (hgap : ∀ c ∈ gap, isSpace c = true)
    (words : List (List Char)) : Joins words (gap.intercalate words) := by
  induction words with
  | nil => exact .nil
  | cons w words ih =>
      cases words with
      | nil =>
          rw [List.intercalate_singleton]
          exact .single w
      | cons w' words =>
          rw [List.intercalate_cons_cons]
          exact .cons hne hgap ih

end Text

namespace Element

variable {e e' : Element} {name text : String}

/-- The characters of the class attribute, none where there is no such attribute. -/
def classChars (e : Element) : List Char := ((e.attrs.get? "class").getD "").toList

theorem map_toList_classes (e : Element) :
    e.classes.map String.toList = Text.tokens e.classChars := by
  rw [classes, List.map_map]
  exact (List.map_congr_left fun _ _ => String.toList_ofList).trans (List.map_id _)

theorem mem_classes_iff : name ∈ e.classes ↔ name.toList ∈ Text.tokens e.classChars := by
  rw [← map_toList_classes, List.mem_map]
  exact ⟨fun h => ⟨name, h, rfl⟩, fun ⟨name', h, heq⟩ => String.toList_inj.mp heq ▸ h⟩

/-- A class is a token of the value that the class attribute has. -/
theorem hasClass_iff : e.hasClass name = true ↔
    ∃ value, e.attrs.get? "class" = some value ∧ name.toList ∈ Text.tokens value.toList := by
  rw [hasClass, List.contains_iff_mem, mem_classes_iff, classChars]
  rcases e.attrs.get? "class" with _ | value
  · exact iff_of_false List.not_mem_nil fun ⟨_, h, _⟩ => nomatch h
  · exact ⟨fun h => ⟨value, rfl, h⟩, fun ⟨_, h, hmem⟩ => Option.some.inj h ▸ hmem⟩

/-- Classes joined and read again are the same classes. -/
theorem classes_of_joins (h : Text.Joins (e.classes.map String.toList) text.toList)
    (he : e'.attrs.get? "class" = some text) : e'.classes = e.classes := by
  have htokens : Text.tokens e'.classChars = Text.tokens e.classChars := by
    rw [map_toList_classes] at h
    rw [classChars, he]
    exact Text.tokens_of_joins h fun w hw => (Text.mem_tokens_iff.mp hw).1
  exact congrArg (List.map String.ofList) htokens

end Element

/-- The classes of an element are tokens of its class attribute, and nothing but the
    five spacing characters tells tokens apart. A name is a class when it stands in
    the attribute as a word, with spacing or an end on either side. The classes are
    the maximal runs of the attribute, each at its place, and none of them is empty.
    An attribute in which they are joined by any spacing has the same classes. -/
theorem classes_are_maximal_runs (e : Element) :
    (∀ c, Text.isSpace c = true ↔ c ∈ [' ', '\t', '\n', '\r', '\x0c']) ∧
    (∀ name : String, e.hasClass name = true ↔
      name ≠ "" ∧ (∀ c ∈ name.toList, Text.isSpace c = false) ∧
      ∃ value, e.attrs.get? "class" = some value ∧ ∃ u v : List Char,
        value.toList = u ++ name.toList ++ v ∧ Text.EndsSpaced u ∧ Text.StartsSpaced v) ∧
    (∃ runs : List Text.Run,
      (∀ r, r ∈ runs ↔ r.In ((e.attrs.get? "class").getD "").toList) ∧
      runs.Pairwise (fun r s => r.front.length < s.front.length) ∧
      e.classes = runs.map fun r => String.ofList r.word) ∧
    (∀ name ∈ e.classes, name ≠ "") ∧
    (∀ (e' : Element) (text : String), e'.attrs.get? "class" = some text →
      Text.Joins (e.classes.map String.toList) text.toList → e'.classes = e.classes) ∧
    ∀ (e' : Element) (gap : String), gap ≠ "" → (∀ c ∈ gap.toList, Text.isSpace c = true) →
      e'.attrs.get? "class" = some (gap.intercalate e.classes) → e'.classes = e.classes := by
  refine ⟨fun c => Grammar.isSpace_iff, fun name => ?_, ?_, fun name hname => ?_,
    fun e' text he' hjoins => Element.classes_of_joins hjoins he', fun e' gap hne hgap he' => ?_⟩
  · simp only [Element.hasClass_iff, Text.mem_tokens_iff, Text.Word, ne_eq,
      String.toList_eq_nil_iff]
    constructor
    · rintro ⟨value, hvalue, ⟨hne, hfree⟩, hplace⟩
      exact ⟨hne, hfree, value, hvalue, hplace⟩
    · rintro ⟨hne, hfree, value, hvalue, hplace⟩
      exact ⟨value, hvalue, ⟨hne, hfree⟩, hplace⟩
  · rcases Text.exists_runs e.classChars with ⟨runs, hmem, hsorted, htokens⟩
    refine ⟨runs, hmem, hsorted, ?_⟩
    rw [Element.classes, ← Element.classChars, htokens, List.map_map]
    rfl
  · rintro rfl
    exact (Text.mem_tokens_iff.mp (Element.mem_classes_iff.mp hname)).1.1 rfl
  · refine Element.classes_of_joins ?_ he'
    rw [String.toList_intercalate]
    exact Text.joins_intercalate (mt String.toList_eq_nil_iff.mp hne) hgap _

/-- A no-break space is part of the class around it, and what is only a part is no
    class. -/
theorem spaced_classes :
    Element.classes ⟨"p", .ofList [("class", " a\tb\u00a0c \n a")]⟩ = ["a", "b\u00a0c", "a"] ∧
    Element.hasClass ⟨"p", .ofList [("class", " a\tb\u00a0c \n a")]⟩ "b" = false ∧
    Element.classes ⟨"p", .ofList [("class", "a\r\x0cb\u00a0c\r\x0ca")]⟩ =
      ["a", "b\u00a0c", "a"] := by
  have hclasses : Element.classes ⟨"p", .ofList [("class", " a\tb\u00a0c \n a")]⟩ =
      ["a", "b\u00a0c", "a"] := by decide
  have h := classes_are_maximal_runs ⟨"p", .ofList [("class", " a\tb\u00a0c \n a")]⟩
  refine ⟨hclasses, by decide, ?_⟩
  have hgap := h.2.2.2.2.2 ⟨"p", .ofList [("class", "a\r\x0cb\u00a0c\r\x0ca")]⟩ "\r\x0c"
    (by decide) (List.all_eq_true.mp (by decide))
  rw [hclasses] at hgap
  exact hgap (by decide)

end DomQuery
