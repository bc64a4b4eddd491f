import DomQuery.Proofs.Parsing
import DomQuery.Selector.Printer

/-!
# The Canonical Spelling

Which selectors survive being written and read again.

The type of selectors holds every chain that can be built by hand, and not every
one has a spelling that reads back as itself. Two conditions behind one another
with nothing between them run together, a compound without conditions leaves no
trace, a name with a comma in it ends a clause, and a chain past the limit is
refused. `SelectorList.WellFormed` lists what must not happen, and no more than
that: a list reads back as itself exactly when it is well formed.

The grammar stands between the two sides. The spelling of what is well formed is
derived from it, and whatever is derived from some text is well formed, so a
list that reads back is, having been read. For a compound the two facts are one
equivalence (`Compound.derives_iff_wellFormed`), there being no spacing inside a
compound and hence one spelling only.

## Main definitions

* `Simple.name`, `Selector.compounds`: The names and compounds of a clause.
* `Compound.WellFormed`, `Selector.WellFormed`, `SelectorList.WellFormed`: What
  has a spelling that reads back.

## Theorems

* `Compound.derives_iff_wellFormed`: The one text of a compound.
* `Selector.derives_chars`, `SelectorList.derives_chars`: The canonical spelling
  is derived from what it spells.
* `SelectorList.wellFormed_of_parse`, `SelectorList.parse_toString_of_wellFormed`:
  What is read is well formed, and what is well formed reads back.
* `parse_toString_iff_wellFormed`: Writing and reading.
-/

namespace DomQuery

open Grammar

/-- The name in a condition. -/
def Simple.name : Simple → String
  | tag name => name
  | id name => name
  | cls name => name

/-- The compounds of a clause, the subject first. -/
def Selector.compounds (sel : Selector) : List Compound :=
  sel.subject :: sel.links.map Link.compound

/-- There is a condition, types stand in the first place only, and every name is
    an identifier. -/
structure Compound.WellFormed (c : Compound) : Prop where
  ne_nil : c.parts ≠ []
  tag_first : ∀ i name, c.parts[i]? = some (.tag name) → i = 0
  names : ∀ s ∈ c.parts, Ident s.name.toList

/-- There are no more than 256 combinators, and every compound is well formed. -/
structure Selector.WellFormed (sel : Selector) : Prop where
  depth_le : sel.depth ≤ 256
  compounds : ∀ c ∈ sel.compounds, c.WellFormed

/-- There is a clause, and every clause is well formed. -/
structure SelectorList.WellFormed (list : SelectorList) : Prop where
  ne_nil : list.clauses ≠ []
  clauses : ∀ sel ∈ list.clauses, sel.WellFormed

/-- Marked names have one text, and it is that of conditions other than types. -/
theorem Grammar.marked_iff {cs : List Char} {parts : List Simple} :
    Marked cs parts ↔ cs = parts.flatMap Simple.chars ∧
      ∀ s ∈ parts, (∀ name, s ≠ .tag name) ∧ Ident s.name.toList := by
  constructor
  · intro h
    induction h with
    | nil => exact ⟨rfl, fun s hs => absurd hs List.not_mem_nil⟩
    | id hname _ ih =>
        refine ⟨by rw [ih.1]; rfl, fun s hs => ?_⟩
        rcases List.mem_cons.mp hs with rfl | hs
        · exact ⟨fun _ => Simple.noConfusion, hname⟩
        · exact ih.2 s hs
    | cls hname _ ih =>
        refine ⟨by rw [ih.1]; rfl, fun s hs => ?_⟩
        rcases List.mem_cons.mp hs with rfl | hs
        · exact ⟨fun _ => Simple.noConfusion, hname⟩
        · exact ih.2 s hs
  · rintro ⟨rfl, h⟩
    induction parts with
    | nil => exact .nil
    | cons s parts ih =>
        have hrest := ih fun s' hs' => h s' (List.mem_cons_of_mem _ hs')
        have hs := h s List.mem_cons_self
        cases s with
        | tag name => exact absurd rfl (hs.1 name)
        | id name => exact .id hs.2 hrest
        | cls name => exact .cls hs.2 hrest

/-- A compound has one text, and has it when it is well formed. -/
theorem Compound.derives_iff_wellFormed {cs : List Char} {c : Compound} :
    Compound.Derives cs c ↔ cs = c.chars ∧ c.WellFormed := by
  constructor
  · intro h
    cases h with
    | @tagged name cs parts hname hmarked =>
        rcases marked_iff.mp hmarked with ⟨rfl, hparts⟩
        refine ⟨rfl, List.cons_ne_nil _ _, fun i name' hi => ?_, fun s hs => ?_⟩
        · cases i with
          | zero => rfl
          | succ i =>
              rw [List.getElem?_cons_succ] at hi
              exact absurd rfl ((hparts _ (List.mem_of_getElem? hi)).1 name')
        · rcases List.mem_cons.mp hs with rfl | hs
          · exact hname
          · exact (hparts s hs).2
    | @marked cs parts hmarked hne =>
        rcases marked_iff.mp hmarked with ⟨rfl, hparts⟩
        exact ⟨rfl, hne, fun i name hi => absurd rfl ((hparts _ (List.mem_of_getElem? hi)).1 name),
          fun s hs => (hparts s hs).2⟩
  · rintro ⟨rfl, h⟩
    rcases c with ⟨parts⟩
    rcases List.exists_cons_of_ne_nil h.ne_nil with ⟨first, rest, rfl⟩
    -- Behind the first condition there is no type.
    have hrest : Marked (rest.flatMap Simple.chars) rest := by
      refine marked_iff.mpr ⟨rfl, fun s hs => ⟨?_, h.names s (List.mem_cons_of_mem _ hs)⟩⟩
      rintro name rfl
      rcases List.getElem?_of_mem hs with ⟨i, hi⟩
      exact absurd (h.tag_first (i + 1) name hi) (Nat.succ_ne_zero i)
    have hfirst := h.names first List.mem_cons_self
    cases first with
    | tag name => exact .tagged hfirst hrest
    | id name => exact .marked (.id hfirst hrest) (List.cons_ne_nil _ _)
    | cls name => exact .marked (.cls hfirst hrest) (List.cons_ne_nil _ _)

/-- The spelling of a combinator stands for it. -/
theorem Combinator.derives_chars (comb : Combinator) : Combinator.Derives comb.chars comb := by
  cases comb with
  | descendant => exact .spacing Spacing.space (List.cons_ne_nil _ _)
  | child => exact .sign Spacing.space .child Spacing.space
  | adjacent => exact .sign Spacing.space .adjacent Spacing.space
  | sibling => exact .sign Spacing.space .sibling Spacing.space

namespace Selector

/-- The spelling of a clause is derived from it when its compounds are well
    formed, however many they are. -/
theorem derives_chars {sel : Selector} (h : ∀ c ∈ sel.compounds, c.WellFormed) :
    Derives sel.chars sel := by
  rcases sel with ⟨subject, links⟩
  -- Along the links, each of them taking the subject off a shorter clause.
  induction links generalizing subject with
  | nil => exact .compound (Compound.derives_iff_wellFormed.mpr ⟨rfl, h subject List.mem_cons_self⟩)
  | cons link links ih =>
      rcases link with ⟨comb, far⟩
      have hsubject := Compound.derives_iff_wellFormed.mpr ⟨rfl, h subject List.mem_cons_self⟩
      have hleft := ih far fun c hc => h c (List.mem_cons_of_mem _ hc)
      have hchars := chars_combine ⟨far, links⟩ comb subject
      have hcombined := hleft.combine comb.derives_chars hsubject
      rw [← hchars] at hcombined
      exact hcombined

/-- The compounds of a clause that is derived from a text are well formed. -/
theorem Derives.wellFormed_compounds {cs : List Char} {sel : Selector} (h : Derives cs sel) :
    ∀ c ∈ sel.compounds, c.WellFormed := by
  induction h with
  | compound h =>
      intro c hc
      rw [List.mem_singleton.mp hc]
      exact (Compound.derives_iff_wellFormed.mp h).2
  | combine _ _ hright ih =>
      intro c hc
      rcases List.mem_cons.mp hc with rfl | hc
      · exact (Compound.derives_iff_wellFormed.mp hright).2
      · exact ih c hc

end Selector

namespace SelectorList

/-- The spelling of clauses is derived from them. -/
theorem derivesClauses_intercalate {sels : List Selector} (hne : sels ≠ [])
    (h : ∀ sel ∈ sels, ∀ c ∈ sel.compounds, c.WellFormed) :
    DerivesClauses ([',', ' '].intercalate (sels.map Selector.chars)) sels := by
  induction sels with
  | nil => exact absurd rfl hne
  | cons sel sels ih =>
      have hsel := Selector.derives_chars (h sel List.mem_cons_self)
      cases sels with
      | nil =>
          rw [List.map_singleton, List.intercalate_singleton]
          exact .one hsel
      | cons next sels =>
          have hrest := ih (List.cons_ne_nil _ _) fun sel' hsel' =>
            h sel' (List.mem_cons_of_mem _ hsel')
          rw [List.map_cons, List.map_cons, List.intercalate_cons_cons, List.append_assoc]
          exact .comma hsel Spacing.nil Spacing.space hrest

/-- The canonical spelling of a list is derived from it. -/
theorem derives_chars {list : SelectorList} (hne : list.clauses ≠ [])
    (h : ∀ sel ∈ list.clauses, ∀ c ∈ sel.compounds, c.WellFormed) : Derives list.chars list := by
  have hpadded := Derives.padded Spacing.nil (derivesClauses_intercalate hne h) Spacing.nil
  rw [List.nil_append, List.append_nil] at hpadded
  exact hpadded

theorem DerivesClauses.wellFormed_compounds {cs : List Char} {sels : List Selector}
    (h : DerivesClauses cs sels) :
    sels ≠ [] ∧ ∀ sel ∈ sels, ∀ c ∈ sel.compounds, c.WellFormed := by
  induction h with
  | one h =>
      refine ⟨List.cons_ne_nil _ _, fun sel hsel => ?_⟩
      rw [List.mem_singleton.mp hsel]
      exact h.wellFormed_compounds
  | comma h _ _ _ ih =>
      refine ⟨List.cons_ne_nil _ _, fun sel hsel => ?_⟩
      rcases List.mem_cons.mp hsel with rfl | hsel
      · exact h.wellFormed_compounds
      · exact ih.2 sel hsel

/-- What is read from a text is well formed. -/
theorem wellFormed_of_parse {text : String} {list : SelectorList} (h : parse text = .ok list) :
    list.WellFormed := by
  rcases derives_of_parse h with ⟨hderives, hdepth⟩
  generalize text.toList = cs at hderives
  cases hderives with
  | padded _ hclauses _ =>
      rcases hclauses.wellFormed_compounds with ⟨hne, hcompounds⟩
      exact ⟨hne, fun sel hsel => ⟨hdepth sel hsel, hcompounds sel hsel⟩⟩

/-- What is well formed reads back as itself. -/
theorem parse_toString_of_wellFormed {list : SelectorList} (h : list.WellFormed) :
    parse (toString list) = .ok list := by
  have hderives := derives_chars h.ne_nil fun sel hsel => (h.clauses sel hsel).compounds
  have hchars : (toString list).toList = list.chars := String.toList_ofList
  rw [← hchars] at hderives
  exact parse_of_derives hderives fun sel hsel => (h.clauses sel hsel).depth_le

end SelectorList

/-- Writing and reading. A list reads back as itself exactly when it is well
    formed, everything that is read is well formed, and so whatever a text was
    read as reads back from its canonical spelling. -/
theorem parse_toString_iff_wellFormed :
    (∀ list : SelectorList, SelectorList.parse (toString list) = .ok list ↔ list.WellFormed) ∧
    ∀ text list, SelectorList.parse text = .ok list →
      list.WellFormed ∧ SelectorList.parse (toString list) = .ok list := by
  refine ⟨fun list => ⟨SelectorList.wellFormed_of_parse, SelectorList.parse_toString_of_wellFormed⟩,
    fun text list h => ?_⟩
  have hwell := SelectorList.wellFormed_of_parse h
  exact ⟨hwell, SelectorList.parse_toString_of_wellFormed hwell⟩

end DomQuery
