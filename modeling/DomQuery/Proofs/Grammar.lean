import DomQuery.Selector.Parser
import Mathlib.Data.List.TakeWhile

/-!
# The Grammar of Selectors

What it means for a text to be derived by the grammar, apart from any reader.

    list       :=  ws* clause ( ws* ',' ws* clause )* ws*
    clause     :=  compound ( combinator compound )*
    combinator :=  ws* ( '>' | '+' | '~' ) ws*  |  ws+
    compound   :=  ident? ( '#' ident | '.' ident )*      not empty
    ident      :=  ( letter | digit | '-' )+               of ASCII

Each rule is a relation between the characters it covers and what they stand
for. The alternatives of a rule are constructors, and the characters of a
derivation are those of its parts put together, so nothing in front of, between
or behind the parts is left out. A clause is derived as it is folded, from the
left: a compound alone, or a clause extended by a combinator and a compound.

A reader meets a clause from the other end. `Selector.Extends` is the rule
turned around, what stands behind a compound and takes the clause read so far
to the whole, and `Selector.derives_iff_extends` says that both are the same
rule.

Spacing has four roles in the grammar, and a reader has to tell them apart by
the next character that is not spacing. What makes that possible is said here
once: a compound starts with a character that is neither spacing nor a comma nor
the sign of a combinator, so behind a compound there is nothing that could
belong to it (`Selector.Extends.stops`), and in front of one the combinator shows
(`Combinator.Derives.skipSpace_append`).

## Main definitions

* `Grammar.Spacing`, `Grammar.Ident`, `Grammar.Sign`: The characters.
* `Compound.Derives`, `Combinator.Derives`, `Selector.Derives`,
  `SelectorList.Derives`: The rules.
* `Selector.Extends`: A clause from a compound on.
* `Grammar.Stops`: A text that does not start with a class of characters.
* `Grammar.Opens`: A text that starts as a compound does.
* `Grammar.Closes`: A text in front of which a clause ends.

## Theorems

* `Selector.derives_iff_extends`: A clause from either end.
* `Compound.Derives.opens`, `Selector.Derives.opens`: How compounds and clauses
  start.
* `Combinator.Derives.skipSpace_append`: What shows in front of a compound.
* `Selector.Extends.stops`: What stands behind a compound.
-/

namespace DomQuery

namespace Grammar

/-- Any number of spacing characters. -/
def Spacing (cs : List Char) : Prop := ∀ c ∈ cs, c ∈ [' ', '\t', '\n', '\r', '\x0c']

/-- A letter or digit of ASCII, or a hyphen. -/
def IdentChar (c : Char) : Prop :=
  'A' ≤ c ∧ c ≤ 'Z' ∨ 'a' ≤ c ∧ c ≤ 'z' ∨ '0' ≤ c ∧ c ≤ '9' ∨ c = '-'

/-- One or more characters of an identifier. -/
def Ident (cs : List Char) : Prop := cs ≠ [] ∧ ∀ c ∈ cs, IdentChar c

/-- The signs of the combinators that are written. -/
inductive Sign : Char → Combinator → Prop where
  | child : Sign '>' .child
  | adjacent : Sign '+' .adjacent
  | sibling : Sign '~' .sibling

/-- Any number of names behind their marks. -/
inductive Marked : List Char → List Simple → Prop where
  | nil : Marked [] []
  | id {name : String} {cs : List Char} {parts : List Simple} (hname : Ident name.toList)
      (hrest : Marked cs parts) : Marked ('#' :: name.toList ++ cs) (.id name :: parts)
  | cls {name : String} {cs : List Char} {parts : List Simple} (hname : Ident name.toList)
      (hrest : Marked cs parts) : Marked ('.' :: name.toList ++ cs) (.cls name :: parts)

end Grammar

open Grammar

/-- A type name with marked names behind it, or at least one marked name. -/
inductive Compound.Derives : List Char → Compound → Prop where
  | tagged {name : String} {cs : List Char} {parts : List Simple} (hname : Ident name.toList)
      (hrest : Marked cs parts) : Derives (name.toList ++ cs) ⟨.tag name :: parts⟩
  | marked {cs : List Char} {parts : List Simple} (h : Marked cs parts) (hne : parts ≠ []) :
      Derives cs ⟨parts⟩

/-- Spacing, or a sign with any spacing around it. -/
inductive Combinator.Derives : List Char → Combinator → Prop where
  | spacing {u : List Char} (hu : Spacing u) (hne : u ≠ []) : Derives u .descendant
  | sign {u v : List Char} {c : Char} {comb : Combinator} (hu : Spacing u) (hsign : Sign c comb)
      (hv : Spacing v) : Derives (u ++ c :: v) comb

/-- A compound, or a clause extended by a combinator and a compound. -/
inductive Selector.Derives : List Char → Selector → Prop where
  | compound {cs : List Char} {c : Compound} (h : Compound.Derives cs c) :
      Derives cs (.ofCompound c)
  | combine {front mid back : List Char} {sel : Selector} {comb : Combinator} {c : Compound}
      (hsel : Derives front sel) (hcomb : Combinator.Derives mid comb)
      (hright : Compound.Derives back c) : Derives (front ++ mid ++ back) (sel.combine comb c)

/-- Clauses with commas between them and any spacing around a comma. -/
inductive SelectorList.DerivesClauses : List Char → List Selector → Prop where
  | one {cs : List Char} {sel : Selector} (h : Selector.Derives cs sel) : DerivesClauses cs [sel]
  | comma {cs u v rest : List Char} {sel : Selector} {sels : List Selector}
      (h : Selector.Derives cs sel) (hu : Spacing u) (hv : Spacing v)
      (hrest : DerivesClauses rest sels) :
      DerivesClauses (cs ++ (u ++ ',' :: (v ++ rest))) (sel :: sels)

/-- The clauses of a list with any spacing around them. -/
inductive SelectorList.Derives : List Char → SelectorList → Prop where
  | padded {u cs v : List Char} {sels : List Selector} (hu : Spacing u)
      (h : DerivesClauses cs sels) (hv : Spacing v) : Derives (u ++ (cs ++ v)) ⟨sels⟩

/-- What stands behind a clause and extends it to another one. -/
inductive Selector.Extends : Selector → List Char → Selector → Prop where
  | refl (sel : Selector) : Extends sel [] sel
  | link {mid back rest : List Char} {sel sel' : Selector} {comb : Combinator} {c : Compound}
      (hcomb : Combinator.Derives mid comb) (hright : Compound.Derives back c)
      (hrest : Extends (sel.combine comb c) rest sel') : Extends sel (mid ++ (back ++ rest)) sel'

namespace Selector

/-- One link more at the right end. -/
theorem Extends.concat {sel sel' : Selector} {cs mid back : List Char} {comb : Combinator}
    {c : Compound} (h : Extends sel cs sel') (hcomb : Combinator.Derives mid comb)
    (hright : Compound.Derives back c) :
    Extends sel (cs ++ mid ++ back) (sel'.combine comb c) := by
  induction h with
  | refl sel =>
      rw [List.nil_append, ← List.append_nil back]
      exact .link hcomb hright (.refl _)
  | link hcomb' hright' _ ih =>
      rw [List.append_assoc _ mid back] at ih
      rw [List.append_assoc, List.append_assoc, List.append_assoc]
      exact .link hcomb' hright' ih

/-- A clause and what extends it make up the extended clause. -/
theorem Derives.append_extends {sel sel' : Selector} {front cs : List Char}
    (hsel : Derives front sel) (h : Extends sel cs sel') : Derives (front ++ cs) sel' := by
  induction h generalizing front with
  | refl sel =>
      rw [List.append_nil]
      exact hsel
  | link hcomb hright _ ih =>
      rw [← List.append_assoc, ← List.append_assoc]
      exact ih (hsel.combine hcomb hright)

/-- A clause is a compound and what extends it. -/
theorem derives_iff_extends {cs : List Char} {sel : Selector} :
    Derives cs sel ↔ ∃ front rest c,
      cs = front ++ rest ∧ Compound.Derives front c ∧ Extends (.ofCompound c) rest sel := by
  constructor
  · intro h
    -- A clause grows at its right end, so what extends its first compound grows there.
    induction h with
    | @compound cs c h => exact ⟨cs, [], c, (List.append_nil cs).symm, h, .refl _⟩
    | combine _ hcomb hright ih =>
        rcases ih with ⟨front, rest, c, rfl, hc, hext⟩
        refine ⟨front, _, c, ?_, hc, hext.concat hcomb hright⟩
        rw [List.append_assoc, List.append_assoc, List.append_assoc]
  · rintro ⟨front, rest, c, rfl, hc, hext⟩
    exact (Derives.compound hc).append_extends hext

/-- Extending a clause adds combinators and takes none away. -/
theorem Extends.depth_le {sel sel' : Selector} {cs : List Char} (h : Extends sel cs sel') :
    sel.depth ≤ sel'.depth := by
  induction h with
  | refl sel => exact Nat.le_refl _
  | link _ _ _ ih => exact Nat.le_of_succ_le ih

end Selector

namespace Grammar

open Selector.Parser

/-- The text is empty or starts with a character outside of the class. -/
def Stops (p : Char → Bool) (cs : List Char) : Prop := ∀ c ∈ cs.head?, p c = false

/-- The text starts with a character with which a compound can start. -/
def Opens (cs : List Char) : Prop := ∃ x more, cs = x :: more ∧ startsCompound x = true

/-- The text is any spacing and then its end or a comma. -/
def Closes (cs : List Char) : Prop :=
  Text.skipSpace cs = [] ∨ ∃ more, Text.skipSpace cs = ',' :: more

section Characters

variable {c : Char} {comb : Combinator}

theorem isSpace_iff : Text.isSpace c = true ↔ c ∈ [' ', '\t', '\n', '\r', '\x0c'] := by
  simp only [Text.isSpace, Bool.or_eq_true, beq_iff_eq, List.mem_cons, List.not_mem_nil, or_false,
    or_assoc]

theorem isIdentChar_iff : isIdentChar c = true ↔ IdentChar c := by
  -- The classes of letters and digits are ranges of code points.
  have hupper : c.isUpper = true ↔ 'A' ≤ c ∧ c ≤ 'Z' := decide_eq_true_iff
  have hlower : c.isLower = true ↔ 'a' ≤ c ∧ c ≤ 'z' :=
    Bool.and_eq_true_iff.trans (and_congr decide_eq_true_iff decide_eq_true_iff)
  have hdigit : c.isDigit = true ↔ '0' ≤ c ∧ c ≤ '9' :=
    Bool.and_eq_true_iff.trans (and_congr decide_eq_true_iff decide_eq_true_iff)
  have halphanum : c.isAlphanum = true ↔
      (c.isUpper = true ∨ c.isLower = true) ∨ c.isDigit = true :=
    Bool.or_eq_true_iff.trans (or_congr_left Bool.or_eq_true_iff)
  rw [isIdentChar, Bool.or_eq_true, beq_iff_eq, halphanum, hupper, hlower, hdigit, or_assoc,
    or_assoc, IdentChar]

/-- The parser's own test decides whether a text is an identifier. -/
instance (cs : List Char) : Decidable (Ident cs) :=
  decidable_of_iff (cs ≠ [] ∧ cs.all isIdentChar = true) <| by
    simp only [Ident, List.all_eq_true, isIdentChar_iff]

theorem combinatorOf?_eq_some_iff : combinatorOf? c = some comb ↔ Sign c comb := by
  constructor
  · intro h
    unfold combinatorOf? at h
    split at h <;> cases h <;> constructor
  · intro h
    cases h <;> rfl

/-- A character with which a compound starts is of no other use behind one. -/
theorem of_startsCompound (h : startsCompound c = true) :
    Text.isSpace c = false ∧ c ≠ ',' ∧ combinatorOf? c = none := by
  refine ⟨?_, ?_, ?_⟩
  · by_contra hspace
    rw [Bool.not_eq_false, isSpace_iff] at hspace
    simp only [List.mem_cons, List.not_mem_nil, or_false] at hspace
    rcases hspace with rfl | rfl | rfl | rfl | rfl <;> exact absurd h (by decide)
  · rintro rfl
    exact absurd h (by decide)
  · rcases hcomb : combinatorOf? c with _ | comb
    · rfl
    · cases combinatorOf?_eq_some_iff.mp hcomb <;> exact absurd h (by decide)

theorem Sign.of_sign (h : Sign c comb) :
    Text.isSpace c = false ∧ c ≠ ',' ∧ startsCompound c = false := by
  cases h <;> decide

end Characters

theorem Stops.nil (p : Char → Bool) : Stops p [] := fun _ h => absurd h (Option.not_mem_none _)

theorem stops_cons {p : Char → Bool} {c : Char} {cs : List Char} :
    Stops p (c :: cs) ↔ p c = false := by
  simp only [Stops, List.head?_cons, Option.mem_some_iff, forall_eq']

theorem stops_dropWhile (p : Char → Bool) (cs : List Char) : Stops p (cs.dropWhile p) := by
  intro c hc
  have hnot := List.head?_dropWhile_not p cs
  rw [Option.mem_def.mp hc] at hnot
  simpa using hnot

section Runs

variable {p : Char → Bool} {run rest : List Char}

theorem takeWhile_of_stops (hstop : Stops p rest) : rest.takeWhile p = [] := by
  cases rest with
  | nil => rfl
  | cons c cs => exact List.takeWhile_cons_of_neg (by rw [stops_cons.mp hstop]; decide)

theorem dropWhile_of_stops (hstop : Stops p rest) : rest.dropWhile p = rest := by
  cases rest with
  | nil => rfl
  | cons c cs => exact List.dropWhile_cons_of_neg (by rw [stops_cons.mp hstop]; decide)

/-- A run of a class is taken as a whole in front of a text that stops it. -/
theorem takeWhile_append_of_stops (hrun : ∀ c ∈ run, p c = true) (hstop : Stops p rest) :
    (run ++ rest).takeWhile p = run := by
  rw [List.takeWhile_append_of_pos hrun, takeWhile_of_stops hstop, List.append_nil]

theorem dropWhile_append_of_stops (hrun : ∀ c ∈ run, p c = true) (hstop : Stops p rest) :
    (run ++ rest).dropWhile p = rest := by
  rw [List.dropWhile_append_of_pos hrun, dropWhile_of_stops hstop]

end Runs

theorem skipSpace_append {u rest : List Char} (hu : Spacing u) :
    Text.skipSpace (u ++ rest) = Text.skipSpace rest :=
  List.dropWhile_append_of_pos fun c hc => isSpace_iff.mpr (hu c hc)

theorem Spacing.nil : Spacing [] := fun _ hc => absurd hc List.not_mem_nil

theorem Spacing.space : Spacing [' '] := by
  intro c hc
  rw [List.mem_singleton.mp hc]
  exact List.mem_cons_self

theorem Spacing.skipSpace_eq_nil {u : List Char} (hu : Spacing u) : Text.skipSpace u = [] := by
  rw [← List.append_nil u, skipSpace_append hu]
  rfl

/-- Behind spacing, what is no spacing shows. -/
theorem Spacing.skipSpace_cons {u cs : List Char} {c : Char} (hu : Spacing u)
    (hc : Text.isSpace c = false) : Text.skipSpace (u ++ c :: cs) = c :: cs := by
  rw [skipSpace_append hu]
  exact dropWhile_of_stops (stops_cons.mpr hc)

theorem Spacing.skipSpace_comma {u : List Char} (hu : Spacing u) (rest : List Char) :
    Text.skipSpace (u ++ ',' :: rest) = ',' :: rest :=
  hu.skipSpace_cons (by decide)

theorem Spacing.isSpace_head {u : List Char} {c : Char} (hu : Spacing (c :: u)) :
    Text.isSpace c = true :=
  isSpace_iff.mpr (hu c List.mem_cons_self)

theorem startsSpaced_append_cons {u cs : List Char} {c : Char} (hu : Spacing u)
    (hc : Text.isSpace c = false) : startsSpaced (u ++ c :: cs) = !u.isEmpty := by
  cases u with
  | nil => rw [List.nil_append, startsSpaced, List.head?_cons, Option.any_some, hc]; rfl
  | cons x u =>
      rw [List.cons_append, startsSpaced, List.head?_cons, Option.any_some,
        hu.isSpace_head]
      rfl

theorem Opens.append {cs : List Char} (h : Opens cs) (rest : List Char) : Opens (cs ++ rest) := by
  rcases h with ⟨x, more, rfl, hx⟩
  exact ⟨x, more ++ rest, rfl, hx⟩

/-- In front of what opens there is no spacing left to be skipped. -/
theorem Opens.skipSpace_append {u cs : List Char} (h : Opens cs) (hu : Spacing u) :
    Text.skipSpace (u ++ cs) = cs := by
  rcases h with ⟨x, more, rfl, hx⟩
  exact hu.skipSpace_cons (of_startsCompound hx).1

/-- What is skipped is spacing, and what is left does not start with any. -/
theorem exists_spacing_append (cs : List Char) :
    ∃ u, Spacing u ∧ cs = u ++ Text.skipSpace cs ∧ (u = [] ↔ startsSpaced cs = false) := by
  refine ⟨cs.takeWhile Text.isSpace, fun c hc => ?_, List.takeWhile_append_dropWhile.symm, ?_⟩
  · exact isSpace_iff.mp (List.mem_takeWhile_imp hc)
  · cases cs with
    | nil => exact ⟨fun _ => rfl, fun _ => rfl⟩
    | cons c cs =>
        rw [startsSpaced, List.head?_cons, Option.any_some]
        by_cases hc : Text.isSpace c = true
        · simp only [List.takeWhile_cons_of_pos hc, hc, List.cons_ne_nil, Bool.true_eq_false]
        · rw [List.takeWhile_cons_of_neg hc]
          exact ⟨fun _ => Bool.eq_false_iff.mpr hc, fun _ => rfl⟩

theorem Closes.eq_comma {cs more : List Char} {x : Char} (h : Closes cs)
    (hskip : Text.skipSpace cs = x :: more) : x = ',' := by
  rw [Closes, hskip] at h
  rcases h with h | ⟨more', h⟩
  · exact absurd h (List.cons_ne_nil x more)
  · exact (List.cons.inj h).1

/-- In front of which a clause ends, in front of that a compound ends. -/
theorem Closes.stops {cs : List Char} (h : Closes cs) : Stops startsCompound cs := by
  cases cs with
  | nil => exact Stops.nil _
  | cons c cs =>
      rw [stops_cons]
      by_contra hc
      rw [Bool.not_eq_false] at hc
      -- The character would be neither spacing, to be skipped, nor a comma.
      rcases of_startsCompound hc with ⟨hspace, hcomma, _⟩
      exact hcomma (h.eq_comma (dropWhile_of_stops (stops_cons.mpr hspace)))

/-- Neither marked names nor what stops a compound go on with an identifier. -/
theorem Marked.stops_append {cs rest : List Char} {parts : List Simple} (h : Marked cs parts)
    (hstop : Stops startsCompound rest) : Stops isIdentChar (cs ++ rest) := by
  cases h with
  | nil =>
      intro c hc
      have hstart := hstop c hc
      rw [startsCompound, Bool.or_eq_false_iff] at hstart
      exact hstart.1
  | id => exact stops_cons.mpr (by decide)
  | cls => exact stops_cons.mpr (by decide)

end Grammar

open Selector.Parser

theorem Compound.Derives.opens {cs : List Char} {c : Compound} (h : Compound.Derives cs c) :
    Opens cs := by
  cases h with
  | @tagged name cs parts hname _ =>
      rcases List.exists_cons_of_ne_nil hname.1 with ⟨x, more, hcons⟩
      refine ⟨x, more ++ cs, by rw [hcons, List.cons_append], ?_⟩
      have hx : IdentChar x := hname.2 x (by rw [hcons]; exact List.mem_cons_self)
      rw [startsCompound, isIdentChar_iff.mpr hx, Bool.true_or]
  | marked hmarked hne =>
      cases hmarked with
      | nil => exact absurd rfl hne
      | id => exact ⟨_, _, rfl, by decide⟩
      | cls => exact ⟨_, _, rfl, by decide⟩

theorem Selector.Derives.opens {cs : List Char} {sel : Selector} (h : Selector.Derives cs sel) :
    Opens cs := by
  rcases Selector.derives_iff_extends.mp h with ⟨front, rest, c, rfl, hc, _⟩
  exact hc.opens.append rest

theorem SelectorList.DerivesClauses.opens {cs : List Char} {sels : List Selector}
    (h : SelectorList.DerivesClauses cs sels) : Opens cs := by
  cases h with
  | one h => exact h.opens
  | comma h => exact h.opens.append _

namespace Combinator

variable {mid rest : List Char} {comb : Combinator}

/-- A combinator does not start with a character that a compound goes on with. -/
theorem Derives.stops (h : Derives mid comb) (rest : List Char) :
    Stops startsCompound (mid ++ rest) := by
  have hspace : ∀ {u : List Char} {x : Char}, Spacing (x :: u) → startsCompound x = false := by
    intro u x hu
    by_contra hx
    rw [Bool.not_eq_false] at hx
    have hno := (of_startsCompound hx).1
    rw [hu.isSpace_head] at hno
    exact Bool.false_ne_true hno.symm
  -- The first character is spacing, or the sign when there is none in front of it.
  cases h with
  | spacing hu hne =>
      rcases List.exists_cons_of_ne_nil hne with ⟨x, more, rfl⟩
      exact stops_cons.mpr (hspace hu)
  | @sign u v c comb hu hsign _ =>
      cases u with
      | nil => exact stops_cons.mpr hsign.of_sign.2.2
      | cons x u => exact stops_cons.mpr (hspace hu)

/-- Between two compounds the combinator shows: behind the spacing there is a
    character other than a comma, and reading from there finds the combinator
    and stops in front of the compound. -/
theorem Derives.skipSpace_append (h : Derives mid comb) (hrest : Opens rest) :
    ∃ y after, Text.skipSpace (mid ++ rest) = y :: after ∧ y ≠ ',' ∧
      combinator? (startsSpaced (mid ++ rest)) (y :: after) = some (comb, rest) := by
  cases h with
  | spacing hu hne =>
      -- The compound shows, and its first character is no sign, so the spacing in
      -- front of it is the combinator.
      rcases hrest with ⟨x, more, rfl, hx⟩
      rcases of_startsCompound hx with ⟨hspace, hcomma, hnone⟩
      refine ⟨x, more, Opens.skipSpace_append ⟨x, more, rfl, hx⟩ hu, hcomma, ?_⟩
      rw [startsSpaced_append_cons hu hspace, List.isEmpty_eq_false_iff.mpr hne, combinator?,
        hnone, hx]
      rfl
  | @sign u v c comb hu hsign hv =>
      -- The sign shows, and the spacing behind it is skipped up to the compound.
      rcases hsign.of_sign with ⟨hc, hcomma, _⟩
      refine ⟨c, v ++ rest, ?_, hcomma, ?_⟩
      · rw [List.append_assoc, List.cons_append]
        exact hu.skipSpace_cons hc
      · rw [combinator?, combinatorOf?_eq_some_iff.mpr hsign, hrest.skipSpace_append hv]

/-- In front of a combinator and a compound no clause ends. -/
theorem Derives.not_closes (h : Derives mid comb) (hrest : Opens rest) :
    ¬ Closes (mid ++ rest) := by
  intro hclose
  rcases h.skipSpace_append hrest with ⟨y, after, hskip, hcomma, _⟩
  exact hcomma (hclose.eq_comma hskip)

end Combinator

/-- Behind a compound there is nothing that could belong to it. -/
theorem Selector.Extends.stops {sel sel' : Selector} {cs rest : List Char}
    (h : Selector.Extends sel cs sel') (hclose : Closes rest) :
    Stops startsCompound (cs ++ rest) := by
  cases h with
  | refl => exact hclose.stops
  | @link mid back tail _ _ _ _ hcomb =>
      rw [List.append_assoc]
      exact hcomb.stops _

end DomQuery
