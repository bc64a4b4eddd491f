import DomQuery.Text.Space
import DomQuery.Selector.Basic
import DomQuery.Selector.SyntaxError

/-!
# Reading Selectors

From a text to the selector list it stands for, or to the first place where it
stops being one. The grammar, with `ws` for one spacing character:

    list       :=  ws* clause ( ws* ',' ws* clause )* ws*
    clause     :=  compound ( combinator compound )*
    combinator :=  ws* ( '>' | '+' | '~' ) ws*  |  ws+
    compound   :=  ident? ( '#' ident | '.' ident )*      not empty
    ident      :=  ( letter | digit | '-' )+               of ASCII

Spacing has four roles in it: around a list, around a comma, around a combinator
that is written, and as a combinator itself. One rule tells them apart. A
compound reads no spacing, so spacing is only ever met behind a compound, where
it is skipped and the next character decides: the end or a comma closes the
clause, a mark is a combinator, and a character that starts a compound makes
the spacing itself the combinator, provided there was some.

Every reader takes the text that is left and gives what it read with the text
left after it. A failure carries the text left at the point of failure, not a
number: the place in bytes is the difference between the whole text and that
rest, and it is computed once, at the end.

The chain of one clause is limited to `maxCombinators`. The limit is checked
when a combinator has been recognised and before anything of it is read, so
the reported place is that of the first combinator too many.

## Main definitions

* `compound`, `clause`, `clauses`: Readers for the parts of the grammar.
* `SelectorList.parse`: The reader of a whole text.
* `maxCombinators`: The limit on one clause.
-/

namespace DomQuery

/-- The largest number of combinators in one clause. -/
def maxCombinators : Nat := 256

namespace Selector

namespace Parser

/-- A failure: the text left where reading stopped, and the cause. -/
structure Fault where
  rest : List Char
  cause : SyntaxError.Cause
  deriving DecidableEq, Repr

/-- A letter or digit of ASCII, or a hyphen. -/
def isIdentChar (c : Char) : Bool := c.isAlphanum || c == '-'

/-- The identifier at the front of a text, empty when there is none. -/
def ident (cs : List Char) : List Char := cs.takeWhile isIdentChar

/-- The text behind the identifier at its front. -/
def afterIdent (cs : List Char) : List Char := cs.dropWhile isIdentChar

/-- An identifier and the text behind it make up the text. -/
theorem ident_append_afterIdent (cs : List Char) : ident cs ++ afterIdent cs = cs :=
  List.takeWhile_append_dropWhile

/-- The text behind an identifier is no longer than the text. -/
theorem length_afterIdent_le (cs : List Char) : (afterIdent cs).length ≤ cs.length :=
  (List.dropWhile_sublist isIdentChar).length_le

/-- A mark in front of a name inside a compound. -/
def isMark (c : Char) : Bool := c == '#' || c == '.'

/-- Whether a compound can start with this character. -/
def startsCompound (c : Char) : Bool := isIdentChar c || isMark c

/-- The condition that a mark and the name behind it stand for. -/
def marked (mark : Char) (name : List Char) : Simple :=
  if mark = '#' then .id (String.ofList name) else .cls (String.ofList name)

/-- The combinator that a character is the sign of. -/
def combinatorOf? : Char → Option Combinator
  | '>' => some .child
  | '+' => some .adjacent
  | '~' => some .sibling
  | _ => none

/-- The marked names at the front of a text, behind the parts already read,
    which come in reverse. -/
def markedParts (read : List Simple) : List Char → Except Fault (List Simple × List Char)
  | [] => .ok (read.reverse, [])
  | c :: cs =>
    if isMark c then
      if (ident cs).isEmpty then .error ⟨c :: cs, .expectedIdentifier c⟩
      else markedParts (marked c (ident cs) :: read) (afterIdent cs)
    else .ok (read.reverse, c :: cs)
termination_by cs => cs.length
decreasing_by
  exact Nat.lt_succ_of_le (length_afterIdent_le cs)

/-- The type name at the front of a text, as a list of no or one condition. -/
def tagPart (cs : List Char) : List Simple :=
  if (ident cs).isEmpty then [] else [.tag (String.ofList (ident cs))]

/-- The compound at the front of a text: a type name or none, then marked names,
    and at least one of these. -/
def compound (cs : List Char) : Except Fault (Compound × List Char) :=
  match markedParts (tagPart cs) (afterIdent cs) with
  | .error fault => .error fault
  | .ok ([], rest) => .error ⟨rest, .expectedSelector rest.head?⟩
  | .ok (parts, rest) => .ok (⟨parts⟩, rest)

/-- Whether there is spacing at the front of a text. -/
def startsSpaced (cs : List Char) : Bool := cs.head?.any Text.isSpace

/-- The combinator in front of a text that starts with no spacing, and the text
    where the compound on its right has to start. Spacing that was skipped just
    before is a combinator itself when a compound follows. -/
def combinator? (spaced : Bool) : List Char → Option (Combinator × List Char)
  | [] => none
  | c :: cs =>
    match combinatorOf? c with
    | some comb => some (comb, Text.skipSpace cs)
    | none => if spaced && startsCompound c then some (.descendant, c :: cs) else none

/-- The marked names of a compound leave no more text than they found. -/
theorem length_markedParts_le {read parts : List Simple} {cs rest : List Char}
    (h : markedParts read cs = .ok (parts, rest)) : rest.length ≤ cs.length := by
  fun_induction markedParts read cs with
  | case1 read =>
      cases h
      exact Nat.le_refl _
  | case2 => cases h
  | case3 read c cs hmark hname ih =>
      have hle := length_afterIdent_le cs
      have := ih h
      rw [List.length_cons]
      omega
  | case4 read c cs hmark =>
      cases h
      exact Nat.le_refl _

/-- The marked names of a compound take some of the text unless they add
    nothing to the parts. -/
theorem length_markedParts_lt {read parts : List Simple} {cs rest : List Char}
    (h : markedParts read cs = .ok (parts, rest)) (hne : parts ≠ read.reverse) :
    rest.length < cs.length := by
  unfold markedParts at h
  split at h
  · cases h
    exact absurd rfl hne
  · next c cs =>
    split at h
    · split at h
      · cases h
      · have hle := length_afterIdent_le cs
        have := length_markedParts_le h
        rw [List.length_cons]
        omega
    · cases h
      exact absurd rfl hne

/-- A compound takes some of the text. -/
theorem length_compound_lt {c : Compound} {cs rest : List Char}
    (h : compound cs = .ok (c, rest)) : rest.length < cs.length := by
  unfold compound at h
  split at h
  · cases h
  · cases h
  · next parts rest' hne hparts =>
    cases h
    have hsplit : (ident cs).length + (afterIdent cs).length = cs.length := by
      rw [← List.length_append, ident_append_afterIdent]
    by_cases htag : (ident cs).isEmpty
    · -- Without a type name the parts are marked names, and there are some.
      rw [tagPart, if_pos htag] at hparts
      have := length_markedParts_lt hparts hne
      omega
    · have hpos : 0 < (ident cs).length := by
        rcases hw : ident cs with _ | ⟨w, ws⟩
        · exact absurd (by rw [hw]; rfl) htag
        · exact Nat.succ_pos _
      have := length_markedParts_le hparts
      omega

/-- A combinator leaves no more text than it found. -/
theorem length_combinator?_le {spaced : Bool} {comb : Combinator} {cs after : List Char}
    (h : combinator? spaced cs = some (comb, after)) : after.length ≤ cs.length := by
  unfold combinator? at h
  split at h
  · cases h
  · next c cs =>
    split at h
    · cases h
      exact Nat.le_succ_of_le (Text.length_skipSpace_le cs)
    · split at h
      · cases h
        exact Nat.le_refl _
      · cases h

/-- The rest of a clause behind the chain already read: combinators and compounds
    up to a comma or the end. -/
def clauseTail (sel : Selector) (cs : List Char) : Except Fault (Selector × List Char) :=
  match _hskip : Text.skipSpace cs with
  | [] => .ok (sel, [])
  | c :: more =>
    if c = ',' then .ok (sel, c :: more)
    else
      match _hcomb : combinator? (startsSpaced cs) (c :: more) with
      | none => .error ⟨c :: more, .unexpectedCharacter c⟩
      | some (comb, after) =>
        if maxCombinators ≤ sel.depth then
          .error ⟨c :: more, .tooManyCombinators maxCombinators⟩
        else
          match _hright : compound after with
          | .error fault => .error fault
          | .ok (right, rest) => clauseTail (sel.combine comb right) rest
termination_by cs.length
decreasing_by
  have hlt := length_compound_lt _hright
  have hle := length_combinator?_le _hcomb
  have hskipped := Text.length_skipSpace_le cs
  rw [_hskip] at hskipped
  omega

/-- The clause at the front of a text, up to a comma or the end. -/
def clause (cs : List Char) : Except Fault (Selector × List Char) :=
  match compound cs with
  | .error fault => .error fault
  | .ok (subject, rest) => clauseTail (.ofCompound subject) rest

/-- The rest of a clause leaves no more text than it found. -/
theorem length_clauseTail_le {sel sel' : Selector} {cs rest : List Char}
    (h : clauseTail sel cs = .ok (sel', rest)) : rest.length ≤ cs.length := by
  fun_induction clauseTail sel cs with
  | case1 sel cs hskip =>
      cases h
      exact Nat.zero_le _
  | case2 sel cs more hskip =>
      cases h
      have := Text.length_skipSpace_le cs
      rw [hskip] at this
      exact this
  | case3 => cases h
  | case4 => cases h
  | case5 => cases h
  | case6 sel cs c more hskip hcomma comb after hcomb hdepth right rest' hright ih =>
      have := ih h
      have hlt := length_compound_lt hright
      have hle := length_combinator?_le hcomb
      have hskipped := Text.length_skipSpace_le cs
      rw [hskip] at hskipped
      omega

/-- A clause takes some of the text. -/
theorem length_clause_lt {sel : Selector} {cs rest : List Char}
    (h : clause cs = .ok (sel, rest)) : rest.length < cs.length := by
  unfold clause at h
  split at h
  · cases h
  · next subject rest' hsubject =>
    exact Nat.lt_of_le_of_lt (length_clauseTail_le h) (length_compound_lt hsubject)

/-- The clauses of a text, behind those already read, which come in reverse. -/
def clauses (read : List Selector) (cs : List Char) : Except Fault (List Selector) :=
  match _hclause : clause cs with
  | .error fault => .error fault
  | .ok (sel, ',' :: more) => clauses (sel :: read) (Text.skipSpace more)
  | .ok (sel, _) => .ok (sel :: read).reverse
termination_by cs.length
decreasing_by
  have hlt := length_clause_lt _hclause
  have hle := Text.length_skipSpace_le more
  rw [List.length_cons] at hlt
  omega

/-- The clauses of a whole text. A text of nothing but spacing is a failure of
    its own, told at the end of the text. -/
def list (cs : List Char) : Except Fault (List Selector) :=
  match Text.skipSpace cs with
  | [] => .error ⟨[], .emptySelector⟩
  | c :: more => clauses [] (c :: more)

/-- The failure told by its place in the text. -/
def Fault.toSyntaxError (fault : Fault) (cs : List Char) : SyntaxError :=
  ⟨Text.utf8Size cs - Text.utf8Size fault.rest, fault.cause⟩

end Parser

end Selector

/-- The selector list that a text stands for, or the first place where the text
    stops being one. -/
def SelectorList.parse (text : String) : Except SyntaxError SelectorList :=
  match Selector.Parser.list text.toList with
  | .error fault => .error (fault.toSyntaxError text.toList)
  | .ok sels => .ok ⟨sels⟩

end DomQuery
