import DomQuery.Proofs.Failure
import DomQuery.Report.Caret

/-!
# The Character under the Caret

A caret stands under what the error is about.

Three numbers have to agree for that. The place of an error is told in bytes, the
caret is moved by columns, and the line above it is the text with some characters
replaced. Columns are characters of the text, because a replaced character is
replaced by one space; and the bytes of the place become characters because the
place is a cut of the text. That it is one, and what stands behind it, is what a
failure tells in any case, so nothing about the readers has to be gone through
again here: for every cause the text from the place on either is empty, and then
the cause is that the text ended, or it starts with the character that the cause
names.

The replaced characters are more than the ones that are spacing to a selector, and
all that end a line are among them. So the text stays on one line, and a character
that is a failure for looking like a space and being none is shown as a space with
the caret under it.

## Main definitions

* `SyntaxError.Cause.Names`: What a cause says about the character at its place.

## Theorems

* `SyntaxError.eq_space_of_mem_shown`: No white space but spaces is on the first line.
* `SyntaxError.column_eq`: The column is the number of characters in front.
* `SyntaxError.Cause.Tells.names`, `SyntaxError.Cause.Tells.eq_of_end`: The character at
  the place of a failure, and the causes at the end of the text.
* `caret_of_parse_error`: The two lines of a failure.
-/

namespace DomQuery

open Grammar

namespace SyntaxError

/-- The cause names this character, the text in front of it being given. A combinator
    too many is its sign, or the start of the compound behind the spacing that is the
    combinator, and the clause in front has as many as there may be. -/
def Cause.Names (front : List Char) (c : Char) : Cause → Prop
  | .emptySelector => False
  | .expectedSelector found => found = some c
  | .expectedIdentifier mark => mark = c
  | .unexpectedCharacter found => found = c
  | .tooManyCombinators limit =>
    (∃ sel, SelectorList.ReadTo front sel ∧ sel.depth = limit) ∧
      ((∃ comb, Sign c comb) ∨ StartChar c ∧ ∃ x ∈ front.getLast?, Spacing [x])

theorem length_shown (cs : List Char) : (shown cs).length = cs.length := List.length_map _

theorem getElem?_shown (cs : List Char) (i : Nat) :
    (shown cs)[i]? = cs[i]?.map fun c => if Text.isBlank c then ' ' else c := List.getElem?_map

/-- No white space but spaces is on the first line, so it is one line. -/
theorem eq_space_of_mem_shown {cs : List Char} {c : Char} (hc : c ∈ shown cs)
    (hblank : Text.isBlank c = true) : c = ' ' := by
  rw [shown, List.mem_map] at hc
  rcases hc with ⟨d, _, rfl⟩
  by_cases hd : Text.isBlank d = true
  · rw [if_pos hd]
  · rw [if_neg hd] at hblank
    exact absurd hblank hd

theorem newline_not_mem_shown (cs : List Char) : '\n' ∉ shown cs := fun hmem =>
  absurd (eq_space_of_mem_shown hmem (by decide)) (by decide)

/-- Where the place of an error is a cut of the text, its column is the number of
    characters in front of the cut. -/
theorem column_eq {e : SyntaxError} {text : String} {front back : List Char}
    (hcut : text.toList = front ++ back) (hoffset : Text.utf8Size front = e.offset) :
    e.column text = front.length := by
  rw [column, ← hoffset, hcut, Text.dropBytes?_utf8Size, List.length_append]
  exact Nat.add_sub_cancel front.length back.length

/-- The lines of an error at a cut of the text. -/
theorem toList_rendered_plain {e : SyntaxError} {text : String} {front back : List Char}
    (hcut : text.toList = front ++ back) (hoffset : Text.utf8Size front = e.offset) :
    (e.rendered text .plain).toList = ([' ', ' '] ++ shown text.toList) ++
      '\n' :: ([' ', ' '] ++ List.replicate front.length ' ' ++ ['^']) := by
  rw [rendered, String.toList_ofList, caretLines, column_eq hcut hoffset]
  rfl

/-- What stands at the place of a failure is the character that its cause names. -/
theorem Cause.Tells.names {cause : Cause} {front more : List Char} {c : Char}
    (h : cause.Tells SelectorList.ReadTo front (c :: more)) : cause.Names front c := by
  cases cause with
  | emptySelector => exact absurd h.2 (List.cons_ne_nil c more)
  | expectedSelector found => exact h.2.1.symm
  | expectedIdentifier mark =>
      rcases h.2.2 with ⟨_, hcut, _⟩
      exact (List.cons.inj hcut).1.symm
  | unexpectedCharacter found => exact (Option.some.inj h.2.1).symm
  | tooManyCombinators limit =>
      rcases h with ⟨rfl, hread, d, hd, hnames⟩
      cases hd
      exact ⟨hread, hnames⟩

/-- At the end of a text a failure is that the text has ended. -/
theorem Cause.Tells.eq_of_end {cause : Cause} {front : List Char}
    (h : cause.Tells SelectorList.ReadTo front []) :
    cause = .emptySelector ∨ cause = .expectedSelector none := by
  cases cause with
  | emptySelector => exact .inl rfl
  | expectedSelector found => exact .inr (congrArg _ h.2.1.symm)
  | expectedIdentifier mark =>
      rcases h.2.2 with ⟨_, hcut, _⟩
      exact absurd hcut.symm (List.cons_ne_nil _ _)
  | unexpectedCharacter found => cases h.2.1
  | tooManyCombinators limit =>
      rcases h with ⟨_, _, d, hd, _⟩
      cases hd

end SyntaxError

open SyntaxError

/-- The two lines of a failure. The first one is the text, every white space character
    shown as a space, and the second one is a caret, both behind two spaces. The caret
    stands behind as many columns as there are characters in front of the place of the
    failure, which are no more than there are in the text. Unless that place is the end
    of the text, the caret stands under the character that the failure names; and if it
    is, the caret stands behind the last character and the failure is that the text has
    ended. -/
theorem caret_of_parse_error {text : String} {e : SyntaxError}
    (h : SelectorList.parse text = .error e) :
    ∃ front back, text.toList = front ++ back ∧ Text.utf8Size front = e.offset ∧
      (∃ line caret, (e.rendered text .plain).toList = line ++ '\n' :: caret ∧
        '\n' ∉ line ∧ '\n' ∉ caret ∧ line = [' ', ' '] ++ shown text.toList ∧
        caret = [' ', ' '] ++ List.replicate front.length ' ' ++ ['^']) ∧
      ((shown text.toList).length = text.length ∧ ∀ i : Nat, (shown text.toList)[i]? =
        text.toList[i]?.map fun c => if Text.isBlank c then ' ' else c) ∧
      front.length ≤ text.length ∧
      (e.offset ≠ text.utf8ByteSize → ∃ c, text.toList[front.length]? = some c ∧
        (shown text.toList)[front.length]? = some (if Text.isBlank c then ' ' else c) ∧
        e.cause.Names front c) ∧
      (e.offset = text.utf8ByteSize → front.length = text.length ∧
        (e.cause = .emptySelector ∨ e.cause = .expectedSelector none)) := by
  rcases exists_cut_of_parse_error h with ⟨front, back, hcut, hoffset, _, htells⟩
  have hlength : text.length = front.length + back.length := by
    rw [← String.length_toList, hcut, List.length_append]
  have hbytes : text.utf8ByteSize = e.offset + Text.utf8Size back := by
    rw [Text.utf8ByteSize_eq, hcut, Text.utf8Size_append, hoffset]
  refine ⟨front, back, hcut, hoffset, ?_, ⟨?_, getElem?_shown _⟩, ?_, fun hinside => ?_,
    fun hend => ?_⟩
  · refine ⟨_, _, toList_rendered_plain hcut hoffset, ?_, ?_, rfl, rfl⟩
    · simp [newline_not_mem_shown]
    · simp
  · rw [length_shown, String.length_toList]
  · omega
  · cases back with
    | nil => exact absurd hbytes.symm hinside
    | cons c more =>
        have hat : text.toList[front.length]? = some c := by
          rw [hcut, List.getElem?_append_right (Nat.le_refl _), Nat.sub_self]
          rfl
        exact ⟨c, hat, by rw [getElem?_shown, hat]; rfl, htells.names⟩
  · cases back with
    | nil => exact ⟨hlength.symm, htells.eq_of_end⟩
    | cons c more =>
        have hpos := c.utf8Size_pos
        rw [Text.utf8Size_cons] at hbytes
        omega

/-- A no-break space behind a combinator is no spacing. The failure names it, the first
    line shows it as a space, and that is where the caret points. -/
theorem caret_of_no_break_space :
    SelectorList.parse "b\t> \u00a0c" = .error ⟨4, .expectedSelector (some '\u00a0')⟩ ∧
    ∃ front back, "b\t> \u00a0c".toList = front ++ back ∧ Text.utf8Size front = 4 ∧
      "b\t> \u00a0c".toList[front.length]? = some '\u00a0' ∧
      (shown "b\t> \u00a0c".toList)[front.length]? = some ' ' := by
  have herror : SelectorList.parse "b\t> \u00a0c" =
      .error ⟨4, .expectedSelector (some '\u00a0')⟩ := by decide +kernel
  rcases caret_of_parse_error herror with ⟨front, back, hcut, hoffset, _, _, _, hinside, _⟩
  rcases hinside (by decide) with ⟨c, hat, hshown, hnames⟩
  cases hnames
  exact ⟨herror, front, back, hcut, hoffset, hat, hshown⟩

end DomQuery
