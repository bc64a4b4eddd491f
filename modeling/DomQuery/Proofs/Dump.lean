import DomQuery.Proofs.Depth
import DomQuery.Report.Dump

/-!
# What a Dump Shows

A dump has a line for each node, and its indentation gives the tree back. How far both
of that can be said depends on what stands in the tree.

A dump goes down the tree by itself, with the level as a number that it hands on, while
the traversal keeps a stack and knows of no levels. The nodes that a dump comes by are
those of an outline, which is the traversal with depths. So the lines of a dump, as they
are put together, show the node and what is below it in document order, each indented by
its depth. That holds of anything that is built.

What the dump says to a reader who only has its text is another matter. The text is cut
at its line feeds, and those of a text node are made visible, but those of tags,
attributes and comments are not. As long as none of these has a line feed in it, cutting
the dump gives its lines back, since nothing that is shown starts with a space the
spaces in front of a line are twice the level, and levels tell the shape. A single line
feed in them is one more than there are nodes, and what follows it can pass for the line
of a node that is not there.

## Main definitions

* `Content.OneLine`, `Tree.OneLine`: What is shown as it stands has no line feed in it.
* `Tree.Renders`: A line shows a node at its place.

## Theorems

* `splitOn_flatMap_newline`, `count_newline_eq_length_iff`: Lines put together.
* `Tree.Forest.dumpLines_eq`: A dump is the traversal with depths.
* `Tree.Forest.sameShape_of_dump_eq`: A dump tells the shape.
* `dump_of_built`: Dumps of what is built.
-/

namespace DomQuery

/-- What a dump shows as it stands has no line feed in it. Those of a text are made
    visible, so that a text may have any. -/
def Content.OneLine : Content → Prop
  | .document => True
  | .element data => '\n' ∉ data.tag.toList ∧
      ∀ field ∈ data.attrs.pairs, '\n' ∉ field.1.toList ∧ '\n' ∉ field.2.toList
  | .text _ => True
  | .comment s => '\n' ∉ s.toList

instance : DecidablePred Content.OneLine
  | .document => .isTrue trivial
  | .element data => inferInstanceAs (Decidable ('\n' ∉ data.tag.toList ∧
      ∀ field ∈ data.attrs.pairs, '\n' ∉ field.1.toList ∧ '\n' ∉ field.2.toList))
  | .text _ => .isTrue trivial
  | .comment s => inferInstanceAs (Decidable ('\n' ∉ s.toList))

namespace Content

variable {content : Content}

/-- What is shown of a node starts with a character that is no space. -/
theorem exists_line_eq_cons (content : Content) :
    ∃ c more, content.line .plain = c :: more ∧ c ≠ ' ' := by
  cases content with
  | document => exact ⟨'D', "ocument".toList, by decide, by decide⟩
  | element data => exact ⟨'<', _, rfl, by decide⟩
  | text s => exact ⟨'"', _, rfl, by decide⟩
  | comment s => exact ⟨'<', "!-- ".toList ++ s.toList ++ " -->".toList, rfl, by decide⟩

theorem newline_mem_fieldChars {field : String × String} :
    '\n' ∈ Attributes.fieldChars .plain field ↔ '\n' ∈ field.1.toList ∨ '\n' ∈ field.2.toList := by
  rw [Attributes.fieldChars]
  by_cases hvalue : field.2.isEmpty = true
  · rw [if_pos hvalue, String.isEmpty_iff.mp hvalue]
    simp
  · rw [if_neg hvalue]
    simp

theorem newline_not_mem_visibleChars (c : Char) : '\n' ∉ visibleChars c := by
  unfold visibleChars
  split
  · decide
  · split
    · decide
    · next hnewline _ => exact fun hmem => hnewline (List.mem_singleton.mp hmem).symm

/-- What is shown of a node is on one line if what it shows as it stands is. -/
theorem newline_not_mem_line_iff : '\n' ∉ content.line .plain ↔ content.OneLine := by
  cases content with
  | document => exact iff_of_true (by decide) trivial
  | element data =>
      have hfields : '\n' ∈ data.attrs.sorted.flatMap (Attributes.fieldChars .plain) ↔
          ∃ field ∈ data.attrs.pairs, '\n' ∈ field.1.toList ∨ '\n' ∈ field.2.toList := by
        rw [List.mem_flatMap, Attributes.sorted]
        simp only [(List.mergeSort_perm _ _).mem_iff, newline_mem_fieldChars]
      rw [line, Element.openingTag, OneLine]
      simp [hfields]
  | text s =>
      refine iff_of_true ?_ trivial
      rw [line]
      simp [newline_not_mem_visibleChars]
  | comment s =>
      rw [line, OneLine]
      simp

end Content

/-! ### Lines of a text -/

/-- Lines put together and cut apart again, none of them with a line feed in it. -/
theorem splitOn_flatMap_newline {lines : List (List Char)} (h : ∀ line ∈ lines, '\n' ∉ line) :
    (lines.flatMap (· ++ ['\n'])).splitOn '\n' = lines ++ [[]] := by
  induction lines with
  | nil => rfl
  | cons line lines ih =>
      have hline : ∀ c ∈ line, (c == '\n') = false := by
        intro c hc
        rw [beq_eq_false_iff_ne]
        rintro rfl
        exact h line List.mem_cons_self hc
      rw [List.flatMap_cons, List.append_assoc, List.singleton_append, List.splitOn,
        List.splitOnP_append_cons_of_forall_mem hline _ (beq_self_eq_true _), ← List.splitOn,
        ih fun l hl => h l (List.mem_cons_of_mem _ hl), List.cons_append]

theorem count_newline_flatMap (lines : List (List Char)) :
    (lines.flatMap (· ++ ['\n'])).count '\n' = lines.length + lines.flatten.count '\n' := by
  induction lines with
  | nil => rfl
  | cons line lines ih =>
      rw [List.flatMap_cons, List.flatten_cons, List.length_cons, List.count_append,
        List.count_append, List.count_append, ih, List.count_singleton_self]
      omega

/-- There are as many line feeds as lines if the lines have none themselves. -/
theorem count_newline_eq_length_iff {lines : List (List Char)} :
    (lines.flatMap (· ++ ['\n'])).count '\n' = lines.length ↔ ∀ line ∈ lines, '\n' ∉ line := by
  rw [count_newline_flatMap, Nat.add_eq_left, List.count_eq_zero, List.mem_flatten]
  exact ⟨fun h line hline hmem => h ⟨line, hline, hmem⟩, fun h ⟨line, hline, hmem⟩ =>
    h line hline hmem⟩

namespace Tree

/-- What is shown of a node, nothing if it is not there. -/
def lineOf (t : Tree) (p : Palette) (n : NodeId) : List Char :=
  (t.content? n).elim [] (Content.line p)

variable {t t' : Tree} {p : Palette} {r n : NodeId} {depth level : Nat}

theorem linesTo_succ (hn : n < t.size) : t.linesTo p (depth + 1) level n =
    (List.replicate (2 * level) ' ' ++ t.lineOf p n) ::
      (t.children n).flatMap (t.linesTo p depth (level + 1)) := by
  rcases hcell : t.cell? n with _ | cell
  · exact absurd rfl (ne_of_cell?_eq_none hn hcell)
  · rw [linesTo, hcell, children, hcell, lineOf, content?, hcell]
    rfl

/-- The lines of a node and of what is below it are those of its outline. -/
theorem Forest.linesTo_eq (h : t.Forest) (hn : n < t.size) (hends : t.EndsBelow depth n) :
    t.linesTo p (depth + 1) level n =
      (t.outlineTo depth level n).map fun place =>
        List.replicate (2 * place.1) ' ' ++ t.lineOf p place.2 := by
  induction depth generalizing level n with
  | zero =>
      rw [EndsBelow] at hends
      rw [linesTo_succ hn, hends]
      rfl
  | succ depth ih =>
      rw [linesTo_succ hn, outlineTo, List.map_cons, List.map_flatMap]
      congr 1
      exact List.flatMap_congr fun c hc => ih (h.lt_size_of_mem_children hc) (hends c hc)

/-- A dump is the traversal, every node indented by its depth. -/
theorem Forest.dumpLines_eq (h : t.Forest) (hr : r < t.size) : t.dumpLines p r =
    (r :: t.descendants r).map fun n =>
      List.replicate (2 * t.depthBelow r n) ' ' ++ t.lineOf p n := by
  have hsize : t.size - 1 + 1 = t.size := Nat.sub_add_cancel (Nat.one_le_of_lt hr)
  rw [dumpLines, ← hsize, h.linesTo_eq hr (h.endsBelow_pred_size hr), h.outlineTo_pred_size hr,
    List.map_map]
  rfl

/-- A line shows a node at its place below another: two spaces for each step down to
    the node, and behind them what is shown of it, which starts with no space. -/
def Renders (t : Tree) (r : NodeId) (line : List Char) (n : NodeId) : Prop :=
  ∃ content c more, t.content? n = some content ∧ content.line .plain = c :: more ∧ c ≠ ' ' ∧
    line = List.replicate (2 * t.depthBelow r n) ' ' ++ c :: more

/-- Of a node and of what is below it, nothing that a dump shows as it stands has a line
    feed in it. -/
def OneLine (t : Tree) (r : NodeId) : Prop :=
  ∀ n ∈ r :: t.descendants r, ∀ content ∈ t.content? n, content.OneLine

instance : Decidable (t.OneLine r) :=
  inferInstanceAs (Decidable
    (∀ n ∈ r :: t.descendants r, ∀ content ∈ t.content? n, content.OneLine))

/-- The number of spaces that a line starts with. -/
def indent (line : List Char) : Nat := (line.takeWhile (· == ' ')).length

theorem Renders.indent_eq {line : List Char} (h : t.Renders r line n) :
    indent line = 2 * t.depthBelow r n := by
  rcases h with ⟨_, c, more, _, _, hc, rfl⟩
  have hspaces : ∀ k : Nat, indent (List.replicate k ' ' ++ c :: more) = k := by
    intro k
    induction k with
    | zero => simp [indent, hc]
    | succ k ih => simpa [indent, List.replicate_succ] using ih
  exact hspaces _

namespace Forest

/-- A node and what is below it are nodes that are there. -/
theorem exists_content? (h : t.Forest) (hr : r < t.size) (hn : n ∈ r :: t.descendants r) :
    ∃ content, t.content? n = some content := by
  have hlt : n < t.size := by
    rcases List.mem_cons.mp hn with rfl | hbelow
    · exact hr
    · rw [mem_descendants_iff h.noCycle_hasChild, Relation.TransGen.tail'_iff] at hbelow
      rcases hbelow with ⟨m, _, hm⟩
      exact h.lt_size_of_mem_children hm
  exact ⟨_, congrArg (Option.map Cell.content) (Array.getElem?_eq_getElem hlt)⟩

/-- The lines of a dump show the node and what is below it, one after the other. -/
theorem renders_dumpLines (h : t.Forest) (hr : r < t.size) :
    List.Forall₂ (t.Renders r) (t.dumpLines .plain r) (r :: t.descendants r) := by
  rw [h.dumpLines_eq hr, List.forall₂_map_left_iff, List.forall₂_same]
  intro n hn
  rcases h.exists_content? hr hn with ⟨content, hcontent⟩
  rcases content.exists_line_eq_cons with ⟨c, more, hline, hc⟩
  exact ⟨content, c, more, hcontent, hline, hc, by rw [lineOf, hcontent, ← hline]; rfl⟩

/-- The lines of a dump have no line feed in them if what they show has not. -/
theorem newline_not_mem_dumpLines_iff (h : t.Forest) (hr : r < t.size) :
    (∀ line ∈ t.dumpLines .plain r, '\n' ∉ line) ↔ t.OneLine r := by
  rw [h.dumpLines_eq hr, List.forall_mem_map, OneLine]
  refine forall₂_congr fun n hn => ?_
  rcases h.exists_content? hr hn with ⟨content, hcontent⟩
  rw [lineOf, hcontent]
  simp [List.mem_append, List.mem_replicate, Content.newline_not_mem_line_iff]

/-- The lines of a dump are indented by two spaces for each level. -/
theorem map_indent_dumpLines (h : t.Forest) (hr : r < t.size) :
    (t.dumpLines .plain r).map indent = (t.levelsTo (t.size - 1) 0 r).map (2 * ·) := by
  have hall : List.Forall₂ (· = ·) ((t.dumpLines .plain r).map indent)
      ((r :: t.descendants r).map fun n => 2 * t.depthBelow r n) := by
    rw [List.forall₂_map_left_iff, List.forall₂_map_right_iff]
    exact (h.renders_dumpLines hr).imp fun line n => Renders.indent_eq
  rw [List.forall₂_eq_eq_eq] at hall
  rw [hall, h.levelsTo_pred_size hr, List.map_map]
  rfl

/-- Where lines have no line feeds in them, dumps that are the same show subtrees of
    the same shape. -/
theorem sameShape_of_dump_eq {r' : NodeId} (h : t.Forest) (hr : r < t.size) (h' : t'.Forest)
    (hr' : r' < t'.size) (hline : t.OneLine r) (hline' : t'.OneLine r')
    (heq : t.dump .plain r = t'.dump .plain r') : SameShape t t' r r' := by
  have hlines : t.dumpLines .plain r = t'.dumpLines .plain r' := by
    have hsplit := congrArg (List.splitOn '\n') (String.ofList_injective heq)
    rw [dumpChars, dumpChars,
      splitOn_flatMap_newline ((h.newline_not_mem_dumpLines_iff hr).mpr hline),
      splitOn_flatMap_newline ((h'.newline_not_mem_dumpLines_iff hr').mpr hline')] at hsplit
    exact List.append_cancel_right hsplit
  have hlevels : t.levelsTo (t.size - 1) 0 r = t'.levelsTo (t'.size - 1) 0 r' := by
    have hindents := congrArg (List.map indent) hlines
    rw [h.map_indent_dumpLines hr, h'.map_indent_dumpLines hr'] at hindents
    refine List.map_injective_iff.mpr (fun a b hab => ?_) hindents
    exact Nat.eq_of_mul_eq_mul_left (by decide) hab
  exact sameShape_of_levelsTo_eq (h.endsBelow_pred_size hr) (h'.endsBelow_pred_size hr') hlevels

end Forest

end Tree

/-- Dumps of what is built. A dump is put together from lines, one for each node in
    document order, that show the nodes at their places. Cut at its line feeds it
    falls apart in these lines as long as what is shown has no line feed in it, and
    then its indentation tells the shape of the subtree. Line feeds of texts are made
    visible and do not count. One in a tag, an attribute or a comment is written as it
    is, and then there are more line feeds than nodes. -/
theorem dump_of_built {t : Tree} (ht : t.Built) {r : NodeId} (hr : r < t.size) :
    (∃ lines, t.dump .plain r = String.ofList (lines.flatMap (· ++ ['\n'])) ∧
      List.Forall₂ (t.Renders r) lines (r :: t.descendants r) ∧
      (t.OneLine r → (t.dump .plain r).toList.splitOn '\n' = lines ++ [[]])) ∧
    ((t.dump .plain r).toList.count '\n' = 1 + (t.descendants r).length ↔ t.OneLine r) ∧
    ∀ (t' : Tree) (r' : NodeId), t'.Built → r' < t'.size → t.OneLine r → t'.OneLine r' →
      t.dump .plain r = t'.dump .plain r' → Tree.SameShape t t' r r' := by
  have h : t.Forest := ht.forest
  have hchars : (t.dump .plain r).toList = (t.dumpLines .plain r).flatMap (· ++ ['\n']) :=
    String.toList_ofList
  have hrenders := h.renders_dumpLines hr
  have hlength : (t.dumpLines .plain r).length = 1 + (t.descendants r).length := by
    rw [hrenders.length_eq, List.length_cons, Nat.add_comm]
  refine ⟨⟨_, rfl, hrenders, fun hline => ?_⟩, ?_, fun t' r' ht' hr' hline hline' heq => ?_⟩
  · rw [hchars, splitOn_flatMap_newline ((h.newline_not_mem_dumpLines_iff hr).mpr hline)]
  · rw [hchars, ← hlength, count_newline_eq_length_iff, h.newline_not_mem_dumpLines_iff hr]
  · exact h.sameShape_of_dump_eq hr ht'.forest hr' hline hline' heq

/-- Two elements that hold the same text, which has a line feed in it. -/
def sameParagraphs : List Document.Item :=
  [.element { tag := "p" } [.text "\n "], .element { tag := "p" } [.text "\n "]]

/-- The line feeds of the texts are not in the dump, and the elements have the same
    shape. -/
theorem sameParagraphs_dump : (Document.toTree sameParagraphs).Built ∧
    (Document.toTree sameParagraphs).OneLine 1 ∧ (Document.toTree sameParagraphs).OneLine 3 ∧
    (Document.toTree sameParagraphs).dump .plain 1 = "<p>\n  \"\\n·\"\n" ∧
    ((Document.toTree sameParagraphs).dump .plain 1).toList.count '\n' = 2 ∧
    Tree.SameShape (Document.toTree sameParagraphs) (Document.toTree sameParagraphs) 1 3 := by
  have ht : (Document.toTree sameParagraphs).Built :=
    (Document.built_rooted_toTree sameParagraphs).1
  have h1 : (Document.toTree sameParagraphs).OneLine 1 := by decide +kernel
  have h3 : (Document.toTree sameParagraphs).OneLine 3 := by decide +kernel
  have hdump : (Document.toTree sameParagraphs).dump .plain 1 =
      (Document.toTree sameParagraphs).dump .plain 3 := by
    decide +kernel
  rcases dump_of_built ht (r := 1) (by decide +kernel) with ⟨_, hcount, hshape⟩
  have hshapes := hshape _ 3 ht (by decide +kernel) h1 h3 hdump
  exact ⟨ht, h1, h3, by decide +kernel, hcount.mpr h1, hshapes⟩

/-- An element whose attribute goes on over a line feed as the line of another element
    would. -/
def twoLineAttr : List Document.Item :=
  [.element ⟨"p", .ofList [("k", "1\">\n    <q l=\"2")]⟩ []]

/-- An element that holds the other element. -/
def twoElements : List Document.Item :=
  [.element ⟨"p", .ofList [("k", "1")]⟩ [.element ⟨"q", .ofList [("l", "2")]⟩ []]]

/-- The one element takes two lines, and is not told from the two in one another. -/
theorem twoLineAttr_dump : (Document.toTree twoLineAttr).Built ∧
    (Document.toTree twoElements).Built ∧
    (Document.toTree twoLineAttr).descendants 0 = [1] ∧
    ((Document.toTree twoLineAttr).dump .plain 0).toList.count '\n' = 3 ∧
    (Document.toTree twoLineAttr).dump .plain 0 = (Document.toTree twoElements).dump .plain 0 ∧
    ¬ Tree.SameShape (Document.toTree twoLineAttr) (Document.toTree twoElements) 0 0 := by
  have hroot : (Document.toTree twoLineAttr).children 0 = [1] := by decide +kernel
  have hroot' : (Document.toTree twoElements).children 0 = [1] := by decide +kernel
  have hp : (Document.toTree twoLineAttr).children 1 = [] := by decide +kernel
  have hp' : (Document.toTree twoElements).children 1 = [2] := by decide +kernel
  refine ⟨(Document.built_rooted_toTree twoLineAttr).1,
    (Document.built_rooted_toTree twoElements).1, by decide +kernel, by decide +kernel,
    by decide +kernel, fun hshape => ?_⟩
  rcases hshape with ⟨hchildren⟩
  rw [hroot, hroot', List.forall₂_cons] at hchildren
  rcases hchildren.1 with ⟨hbelow⟩
  rw [hp, hp'] at hbelow
  cases hbelow

end DomQuery
