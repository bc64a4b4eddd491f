import DomQuery.Proofs.Query
import DomQuery.Proofs.Spelling
import DomQuery.Report.Path

/-!
# What a Path Selects

A path is the spelling of a selector, and the selector matches where the path
was made.

The label of an element is the spelling of a compound that asks for its type,
its id and each of its classes (`Element.compound`). Labels with the sign of a
parent between them are the spelling of a chain of such compounds, the outermost
first, and `Tree.pathSelector` is that chain. The spelling holds for every
element there is. That it reads back as the same chain takes names that are
identifiers and no more elements than a clause has room for, which is the
condition for any selector to read back.

The chain matches without any condition on the names. An element meets what its
own compound asks for, and the links of the chain lead from parent to parent the
way the path went up.

## Main definitions

* `Element.Named`: Type name, id and classes are identifiers.
* `Element.compound`: What a label spells.
* `Tree.elementsAbove`: The elements that a path goes up through.
* `Tree.pathSelector`: What a path spells.

## Theorems

* `Element.label_plain`, `Tree.pathChars_plain`: The spelling.
* `Element.holdsOf_compound`, `Tree.pathSelector_matches`: The match.
* `parse_elementPath`: A path is read as a selector of the element it was made
  for.
-/

namespace DomQuery

namespace Element

/-- Type name, id and classes are identifiers, as far as there are any. -/
structure Named (e : Element) : Prop where
  tag : Grammar.Ident e.tag.toList
  id : ∀ name ∈ e.id?, Grammar.Ident name.toList
  classes : ∀ name ∈ e.classes, Grammar.Ident name.toList

instance (e : Element) : Decidable e.Named :=
  decidable_of_iff (Grammar.Ident e.tag.toList ∧ (∀ name ∈ e.id?, Grammar.Ident name.toList) ∧
      ∀ name ∈ e.classes, Grammar.Ident name.toList)
    ⟨fun h => ⟨h.1, h.2.1, h.2.2⟩, fun h => ⟨h.tag, h.id, h.classes⟩⟩

/-- The compound that asks for the type, the id and the classes of an element. -/
def compound (e : Element) : Compound :=
  ⟨.tag e.tag :: (e.id?.toList.map Simple.id ++ e.classes.map Simple.cls)⟩

theorem label_plain (e : Element) : e.label .plain = e.compound.chars := by
  simp only [label, compound, Compound.chars, Palette.attr_plain, Palette.tag_plain,
    List.flatMap_cons, List.flatMap_append, List.flatMap_map, Simple.chars, List.append_assoc]

theorem Named.wellFormed {e : Element} (h : e.Named) : e.compound.WellFormed := by
  have hmarked : ∀ s ∈ e.id?.toList.map Simple.id ++ e.classes.map Simple.cls,
      (∀ name, s ≠ .tag name) ∧ Grammar.Ident s.name.toList := by
    intro s hs
    rcases List.mem_append.mp hs with hs | hs
    · rcases List.mem_map.mp hs with ⟨name, hname, rfl⟩
      exact ⟨fun _ => Simple.noConfusion, h.id name (Option.mem_toList.mp hname)⟩
    · rcases List.mem_map.mp hs with ⟨name, hname, rfl⟩
      exact ⟨fun _ => Simple.noConfusion, h.classes name hname⟩
  -- A type and marked names behind it are what the grammar has for a compound.
  exact (Compound.derives_iff_wellFormed.mp
    (.tagged h.tag (Grammar.marked_iff.mpr ⟨rfl, hmarked⟩))).2

/-- An element meets what its own compound asks for. -/
theorem holdsOf_compound (e : Element) : ∀ s ∈ e.compound.parts, s.holdsOf e = true := by
  intro s hs
  rcases List.mem_cons.mp hs with rfl | hs
  · exact Text.sameButCase_iff.mpr rfl
  · rcases List.mem_append.mp hs with hs | hs
    · rcases List.mem_map.mp hs with ⟨name, hname, rfl⟩
      rw [Simple.holdsOf, Option.mem_toList.mp hname, beq_self_eq_true]
    · rcases List.mem_map.mp hs with ⟨name, hname, rfl⟩
      exact List.contains_iff_mem.mpr hname

theorem compound_matches {t : Tree} {n : NodeId} {e : Element} (h : t.element? n = some e) :
    e.compound.matches t n = true := by
  rw [Compound.matches, h, Option.any_some, List.all_eq_true]
  exact e.holdsOf_compound

/-- The link to a parent that is this element. -/
def childLink (e : Element) : Link := ⟨.child, e.compound⟩

end Element

namespace Tree

/-- The elements that a path goes up through, the parent first. -/
def elementsAbove (t : Tree) (n : NodeId) : List Element :=
  (t.elementAncestors n).filterMap t.element?

/-- The clause that asks for an element below the elements above a node. -/
def pathSelector (t : Tree) (n : NodeId) (e : Element) : Selector :=
  ⟨e.compound, (t.elementsAbove n).map Element.childLink⟩

/-- Pieces with a separator between them are each piece but the last one with the
    separator behind it. -/
theorem intercalate_concat {α : Type} (sep last : List α) (pieces : List (List α)) :
    sep.intercalate (pieces ++ [last]) = pieces.flatMap (· ++ sep) ++ last := by
  induction pieces with
  | nil => exact List.intercalate_singleton
  | cons piece pieces ih =>
      have hne : pieces ++ [last] ≠ [] :=
        List.append_ne_nil_of_right_ne_nil _ (List.cons_ne_nil _ _)
      rw [List.cons_append, List.intercalate_cons_of_ne_nil hne, ih, List.flatMap_cons,
        List.append_assoc, List.append_assoc, List.append_assoc]

variable {t : Tree} {n : NodeId} {e : Element} {path : List NodeId}

theorem pathChars_plain (he : t.element? n = some e) :
    t.pathChars .plain n = (t.pathSelector n e).chars := by
  have hlabels : t.pathLabels .plain n =
      ((t.elementsAbove n).reverse.map fun e => e.compound.chars) ++ [e.compound.chars] := by
    rw [pathLabels, List.filterMap_reverse, List.filterMap_cons_some he, List.reverse_cons,
      List.map_append, List.map_singleton]
    simp only [Element.label_plain, elementsAbove]
  -- A separator behind each label but the last is the sign of a parent behind each link.
  rw [pathChars, hlabels, intercalate_concat, Selector.chars, pathSelector, ← List.map_reverse,
    List.flatMap_map, List.flatMap_map]
  rfl

/-- Along a chain of parents that are elements, the links are satisfied one after
    the other. -/
theorem satisfied_childLinks (h : Chain t.parentElement? n path) :
    Link.satisfied t ((path.filterMap t.element?).map Element.childLink) n = true := by
  induction h with
  | nil _ => rfl
  | @cons n m path hstep _ ih =>
      have helement : t.isElement m = true := (Option.filter_eq_some_iff.mp hstep).2
      rcases Option.isSome_iff_exists.mp helement with ⟨e, he⟩
      -- The parent is the only candidate of its link.
      have hrelated : t.related .child n = [m] := by
        show walk t.parentElement? 1 n = [m]
        simp only [walk, hstep]
      rw [List.filterMap_cons_some he, List.map_cons, Element.childLink, Link.satisfied, hrelated,
        List.any_cons, Element.compound_matches he, ih]
      rfl

theorem pathSelector_matches (ht : NoCycle (Follows t.parent?)) (he : t.element? n = some e) :
    (t.pathSelector n e).matches t n = true := by
  rw [Selector.matches_eq_fits, Selector.fits, Bool.and_eq_true]
  exact ⟨Element.compound_matches he, satisfied_childLinks (chain_elementAncestors ht n)⟩

theorem isElement_of_mem_chain (h : Chain t.parentElement? n path) :
    ∀ m ∈ path, t.isElement m = true := by
  induction h with
  | nil _ => exact fun m hm => absurd hm List.not_mem_nil
  | cons hstep _ ih =>
      intro m hm
      rcases List.mem_cons.mp hm with rfl | hm
      · exact (Option.filter_eq_some_iff.mp hstep).2
      · exact ih m hm

/-- A path has one combinator for each element above. -/
theorem depth_pathSelector (h : Chain t.parentElement? n (t.elementAncestors n)) :
    (t.pathSelector n e).depth = (t.elementAncestors n).length := by
  rw [Selector.depth, pathSelector, List.length_map, elementsAbove,
    List.length_filterMap_eq_countP, List.countP_eq_length]
  exact isElement_of_mem_chain h

/-- What a path spells is well formed when there is room for all its elements and
    their names are identifiers. -/
theorem pathSelector_wellFormed (hdepth : (t.pathSelector n e).depth ≤ 256)
    (he : t.element? n = some e)
    (hnamed : ∀ m ∈ n :: t.elementAncestors n, ∀ e ∈ t.element? m, e.Named) :
    (t.pathSelector n e).WellFormed := by
  refine ⟨hdepth, fun c hc => ?_⟩
  rcases List.mem_cons.mp hc with rfl | hc
  · exact (hnamed n List.mem_cons_self e he).wellFormed
  · rcases List.mem_map.mp hc with ⟨link, hlink, rfl⟩
    rcases List.mem_map.mp hlink with ⟨above, habove, rfl⟩
    rcases List.mem_filterMap.mp habove with ⟨m, hm, hm'⟩
    exact (hnamed m (List.mem_cons_of_mem _ hm) above hm').wellFormed

end Tree

/-- A path is read as a selector of the element it was made for. In a tree whose
    parents form no cycle, an element is given with the whole chain of elements
    above it, no more than 257 together and all names on them identifiers. Then its
    path is read as one clause, which asks for a parent with each combinator, one
    for each element above; the element matches; the clause is spelled as the path;
    and a query finds the element below whatever root has it. -/
theorem parse_elementPath {t : Tree} (ht : Tree.NoCycle (Tree.Follows t.parent?)) {n : NodeId}
    {path : List NodeId} (hn : t.isElement n = true) (hpath : Tree.Chain t.parentElement? n path)
    (hlen : (n :: path).length ≤ 257)
    (hnamed : ∀ m ∈ n :: path, ∀ e ∈ t.element? m, e.Named) :
    ∃ sel : Selector, SelectorList.parse (t.elementPath .plain n) = .ok ⟨[sel]⟩ ∧
      (∀ link ∈ sel.links, link.combinator = .child) ∧ sel.depth = path.length ∧
      SelectorList.matches ⟨[sel]⟩ t n = true ∧
      toString (⟨[sel]⟩ : SelectorList) = t.elementPath .plain n ∧
      ∀ root, n ∈ t.descendants root → n ∈ SelectorList.queryAll ⟨[sel]⟩ t root := by
  rcases Option.isSome_iff_exists.mp hn with ⟨e, he⟩
  have hall := Tree.chain_elementAncestors ht n
  rw [hpath.unique hall] at hlen hnamed ⊢
  have hdepth := Tree.depth_pathSelector (e := e) hall
  have hspelled : toString (⟨[t.pathSelector n e]⟩ : SelectorList) = t.elementPath .plain n := by
    rw [Tree.elementPath, Tree.pathChars_plain he]
    exact congrArg String.ofList List.intercalate_singleton
  have hwell : SelectorList.WellFormed ⟨[t.pathSelector n e]⟩ := by
    refine ⟨List.cons_ne_nil _ _, fun sel hsel => ?_⟩
    rw [List.mem_singleton.mp hsel]
    rw [List.length_cons] at hlen
    exact Tree.pathSelector_wellFormed (by omega) he hnamed
  have hmatches : SelectorList.matches ⟨[t.pathSelector n e]⟩ t n = true := by
    rw [SelectorList.matches_eq_any, List.any_cons, Tree.pathSelector_matches ht he, Bool.true_or]
  refine ⟨t.pathSelector n e, ?_, ?_, hdepth, hmatches, hspelled, ?_⟩
  · -- The path is what is read, being the spelling of a list that reads back.
    rw [← hspelled]
    exact SelectorList.parse_toString_of_wellFormed hwell
  · intro link hlink
    rcases List.mem_map.mp hlink with ⟨above, _, rfl⟩
    rfl
  · intro root hroot
    rw [SelectorList.queryAll_eq_eraseDups, List.mem_eraseDups, List.mem_filter]
    exact ⟨hroot, hmatches⟩

/-- An element with an id and two classes, behind a text below an element with a
    class. -/
def nestedDivs : Tree :=
  .grown [(0, .element { tag := "div", attrs := .ofList [("class", "parent")] }), (1, .text "\n "),
    (1, .element { tag := "div", attrs := .ofList [("id", "x"), ("class", "child big")] })]

theorem nestedDivs_noCycle : Tree.NoCycle (Tree.Follows nestedDivs.parent?) :=
  (Tree.Acyclic.of_forall_lt (by decide)).parent

/-- The path of the inner element is read as a selector of it. -/
theorem nestedDivs_path : nestedDivs.elementPath .plain 3 = "div.parent > div#x.child.big" ∧
    ∃ sel, SelectorList.parse "div.parent > div#x.child.big" = .ok ⟨[sel]⟩ ∧
      SelectorList.matches ⟨[sel]⟩ nestedDivs 3 = true := by
  have hpath : nestedDivs.elementPath .plain 3 = "div.parent > div#x.child.big" := by decide
  have hchain : Tree.Chain nestedDivs.parentElement? 3 [1] := .cons (by decide) (.nil (by decide))
  rcases parse_elementPath nestedDivs_noCycle (by decide) hchain (by decide) (by decide) with
    ⟨sel, hparse, _, _, hmatches, _⟩
  rw [hpath] at hparse
  exact ⟨hpath, sel, hparse, hmatches⟩

end DomQuery
