import DomQuery.Proofs.Loading
import DomQuery.Report.Caret
import DomQuery.Report.Dump
import DomQuery.Report.Path

/-!
# Reports without Their Colors

A colored report with its control sequences deleted is the plain report.

A control sequence is found by reading on from an escape character, so deleting is not
a matter of single characters. What is deleted from a text may depend on what stands
behind it, and a sequence could come about where two pieces meet. Reports are put
together from many pieces, some of them set off by a palette and others written as they
are, and none of this may happen at any of the places where they meet.

`Style.Erases` rules it out once for all. A piece erases to another when in front of any
text whatever the one is deleted down to the other, and what is deleted further on is
what would be deleted there alone. Said of whatever follows, the property passes from
pieces to what is put together from them, without a look at the place where they meet.
It holds of a piece without an escape character, which is left as it is, and of a control
sequence of a palette, which goes away. Every report is then followed as it is built, with
both palettes side by side.

The strings that a report shows must have no escape character in them, or a sequence
among them would be deleted along with those of the palette.

## Main definitions

* `Style.behind?`: What stands behind a control sequence.
* `Style.erase`, `Style.unstyled`: A text without its control sequences.
* `Style.Erases`: A piece that erases to another, whatever follows it.
* `Content.strings`, `Tree.Unescaped`: The strings that a report can show.

## Theorems

* `Style.Erases.append`, `Style.Erases.flatMap`, `Style.Erases.intercalate`: Pieces put
  together.
* `Style.erases_between`: A part of a palette.
* `Element.erases_label`, `Content.erases_line`, `Tree.erases_linesTo`: The reports, from
  their parts.
* `unstyled_report`: Dumps, paths and carets without their colors.
-/

namespace DomQuery

namespace Style

/-- The character that a control sequence starts with. -/
def escape : Char := '\x1b'

/-- What stands behind the control sequence that a text starts with: an escape character
    and a bracket, at least one digit, and an `m`. -/
def behind? : List Char → Option (List Char)
  | first :: '[' :: digit :: rest =>
    if first = escape ∧ digit.isDigit then
      match rest.dropWhile Char.isDigit with
      | 'm' :: more => some more
      | _ => none
    else none
  | _ => none

theorem length_behind?_lt {cs more : List Char} (h : behind? cs = some more) :
    more.length < cs.length := by
  unfold behind? at h
  split at h
  · next rest =>
    split at h
    · split at h
      · next heq =>
        have hle := (List.dropWhile_sublist Char.isDigit (l := rest)).length_le
        simp only [Option.some.injEq] at h
        rw [heq, h] at hle
        simp only [List.length_cons] at hle ⊢
        omega
      · simp only [reduceCtorEq] at h
    · simp only [reduceCtorEq] at h
  · simp only [reduceCtorEq] at h

/-- A text without its control sequences, found from the front. -/
def erase : List Char → List Char
  | [] => []
  | c :: cs =>
    match _hmore : behind? (c :: cs) with
    | some more => erase more
    | none => c :: erase cs
termination_by cs => cs.length
decreasing_by
  · exact length_behind?_lt _hmore
  · exact Nat.lt_succ_self _

/-- A text without its control sequences. -/
def unstyled (text : String) : String := String.ofList (erase text.toList)

/-- In front of any text, the first piece is deleted down to the second one, and the text
    loses what it would lose alone. -/
def Erases (piece left : List Char) : Prop :=
  ∀ rest, erase (piece ++ rest) = left ++ erase rest

theorem erase_cons_of_ne {c : Char} (hc : c ≠ escape) (cs : List Char) :
    erase (c :: cs) = c :: erase cs := by
  have hnone : behind? (c :: cs) = none := by
    unfold behind?
    split
    · next heq =>
      rw [List.cons.injEq] at heq
      rw [if_neg (fun h => hc (heq.1.trans h.1))]
    · rfl
  rw [erase]
  split
  · next more hsome =>
    rw [hnone] at hsome
    simp only [reduceCtorEq] at hsome
  · rfl

/-- A control sequence is found wherever it stands, its digits ending at the `m`. -/
theorem behind?_sequence {code : List Char} (hne : code ≠ [])
    (hcode : ∀ c ∈ code, c.isDigit = true) (rest : List Char) :
    behind? (Palette.sequence code ++ rest) = some rest := by
  cases code with
  | nil => exact absurd rfl hne
  | cons digit code =>
      have hdigit := hcode digit List.mem_cons_self
      have hm : Char.isDigit 'm' = false := by decide
      have hdrop : (code ++ 'm' :: rest).dropWhile Char.isDigit = 'm' :: rest := by
        rw [List.dropWhile_append_of_pos fun c hc => hcode c (List.mem_cons_of_mem _ hc),
          List.dropWhile_cons_of_neg (by rw [hm]; exact Bool.false_ne_true)]
      simp only [Palette.sequence, List.cons_append, List.append_assoc, List.nil_append, behind?,
        escape, hdigit, and_self, if_true, hdrop]

namespace Erases

variable {piece left piece' left' : List Char}

/-- The text that is left is all of it when nothing follows. -/
theorem erase_eq (h : Erases piece left) : erase piece = left := by
  have hnil := h []
  rw [List.append_nil, erase, List.append_nil] at hnil
  exact hnil

theorem unstyled_eq (h : Erases piece left) :
    unstyled (String.ofList piece) = String.ofList left := by
  rw [unstyled, String.toList_ofList, h.erase_eq]

theorem nil : Erases [] [] := fun _ => rfl

theorem append (h : Erases piece left) (h' : Erases piece' left') :
    Erases (piece ++ piece') (left ++ left') := by
  intro rest
  rw [List.append_assoc, h, h', List.append_assoc]

/-- A piece without an escape character is left as it is. -/
theorem of_not_mem (h : escape ∉ piece) : Erases piece piece := by
  intro rest
  induction piece with
  | nil => rfl
  | cons c piece ih =>
      rw [List.mem_cons, not_or] at h
      rw [List.cons_append, erase_cons_of_ne (Ne.symm h.1), ih h.2, List.cons_append]

theorem sequence {code : List Char} (hne : code ≠ []) (hcode : ∀ c ∈ code, c.isDigit = true) :
    Erases (Palette.sequence code) [] := by
  intro rest
  have hbehind := behind?_sequence hne hcode rest
  rw [Palette.sequence, List.cons_append, List.cons_append] at hbehind ⊢
  rw [erase]
  split
  · next more hsome =>
    rw [hbehind, Option.some.injEq] at hsome
    rw [hsome, List.nil_append]
  · next hnone =>
    rw [hbehind] at hnone
    simp only [reduceCtorEq] at hnone

/-- Pieces one after the other, each erasing to its own. -/
theorem flatMap {α : Type} {xs : List α} {f g : α → List Char}
    (h : ∀ x ∈ xs, Erases (f x) (g x)) : Erases (xs.flatMap f) (xs.flatMap g) := by
  induction xs with
  | nil => exact nil
  | cons x xs ih =>
      rw [List.flatMap_cons, List.flatMap_cons]
      exact (h x List.mem_cons_self).append (ih fun y hy => h y (List.mem_cons_of_mem _ hy))

/-- Pieces with a separator between them that is left as it is. -/
theorem intercalate {α : Type} {sep : List Char} (hsep : escape ∉ sep) {xs : List α}
    {f g : α → List Char} (h : ∀ x ∈ xs, Erases (f x) (g x)) :
    Erases (sep.intercalate (xs.map f)) (sep.intercalate (xs.map g)) := by
  induction xs with
  | nil => exact nil
  | cons x xs ih =>
      have hx := h x List.mem_cons_self
      have hxs := ih fun y hy => h y (List.mem_cons_of_mem _ hy)
      cases xs with
      | nil =>
          rw [List.map_singleton, List.map_singleton, List.intercalate_singleton,
            List.intercalate_singleton]
          exact hx
      | cons y xs =>
          rw [List.map_cons, List.map_cons, List.map_cons, List.map_cons,
            List.intercalate_cons_cons, List.intercalate_cons_cons]
          exact (hx.append (of_not_mem hsep)).append hxs

end Erases

/-- What a palette sets off erases to what was set off, in either palette. -/
theorem erases_between (p : Palette) {set reset part left : List Char} (hset : set ≠ [])
    (hreset : reset ≠ []) (hdigits : (set ++ reset).all Char.isDigit = true)
    (hpart : Erases part left) : Erases (p.between set reset part) left := by
  rw [List.all_eq_true] at hdigits
  unfold Palette.between
  by_cases hcolored : p.colored = true
  · rw [if_pos hcolored]
    have hfront := Erases.sequence hset fun c hc => hdigits c (List.mem_append_left _ hc)
    have hback := Erases.sequence hreset fun c hc => hdigits c (List.mem_append_right _ hc)
    have hall := (hfront.append hpart).append hback
    rwa [List.nil_append, List.append_nil] at hall
  · rw [if_neg hcolored]
    exact hpart

variable {part : List Char}

/-- Neither is there one in a part that stands between two others. -/
theorem escape_not_mem_around (front back : List Char) (hpart : escape ∉ part)
    (hends : escape ∉ front ++ back) : escape ∉ front ++ part ++ back := by
  rw [List.mem_append, not_or] at hends
  intro hmem
  rcases List.mem_append.mp hmem with hmem | hmem
  · rcases List.mem_append.mp hmem with hmem | hmem
    · exact hends.1 hmem
    · exact hpart hmem
  · exact hends.2 hmem

theorem erases_tag (p : Palette) (h : escape ∉ part) :
    Erases (p.tag part) (Palette.plain.tag part) :=
  erases_between p (by decide) (by decide) rfl (.of_not_mem h)

theorem erases_attr (p : Palette) (h : escape ∉ part) :
    Erases (p.attr part) (Palette.plain.attr part) :=
  erases_between p (by decide) (by decide) rfl (.of_not_mem h)

theorem erases_muted (p : Palette) (h : escape ∉ part) :
    Erases (p.muted part) (Palette.plain.muted part) :=
  erases_between p (by decide) (by decide) rfl (.of_not_mem h)

/-- The parts for what is wrong are set off twice, the one way inside of the other. -/
theorem erases_error (p : Palette) (h : escape ∉ part) :
    Erases (p.error part) (Palette.plain.error part) :=
  erases_between p (by decide) (by decide) rfl
    (erases_between p (by decide) (by decide) rfl (.of_not_mem h))

end Style

open Style

/-- The strings of a node: what a text or a comment says, and of an element the type name
    and the names and values of the attributes. -/
def Content.strings : Content → List String
  | .document => []
  | .element data => data.tag :: data.attrs.pairs.flatMap fun field => [field.1, field.2]
  | .text s => [s]
  | .comment s => [s]

/-- There is no escape character in the strings of a node. -/
def Content.Unescaped (content : Content) : Prop := ∀ s ∈ content.strings, escape ∉ s.toList

/-- There is no escape character in the strings of a tree. -/
def Tree.Unescaped (t : Tree) : Prop := ∀ n, ∀ content ∈ t.content? n, content.Unescaped

/-- It is enough to look at the nodes that are there. -/
theorem Tree.unescaped_of_forall_mem {t : Tree}
    (h : ∀ cell ∈ t.cells.toList, ∀ s ∈ cell.content.strings, escape ∉ s.toList) :
    t.Unescaped := by
  intro n content hcontent
  unfold content? cell? at hcontent
  rcases Option.map_eq_some_iff.mp hcontent with ⟨cell, hcell, rfl⟩
  exact h cell (Array.mem_toList_iff.mpr (Array.mem_of_getElem? hcell))

/-- A piece between cuts is made of characters of the text. -/
theorem Text.mem_of_mem_splitOnP {p : Char → Bool} {cs piece : List Char}
    (hpiece : piece ∈ cs.splitOnP p) {c : Char} (hc : c ∈ piece) : c ∈ cs := by
  induction cs generalizing piece with
  | nil =>
      rw [List.splitOnP_nil, List.mem_singleton] at hpiece
      rwa [hpiece] at hc
  | cons d cs ih =>
      rw [List.splitOnP_cons_eq_if_modifyHead] at hpiece
      by_cases hd : p d = true
      · rw [if_pos hd] at hpiece
        rcases List.mem_cons.mp hpiece with rfl | hbehind
        · exact absurd hc List.not_mem_nil
        · exact List.mem_cons_of_mem _ (ih hbehind hc)
      · -- The character goes to the first piece of what is behind it.
        rw [if_neg hd] at hpiece
        rcases List.exists_cons_of_ne_nil (List.splitOnP_ne_nil p cs) with ⟨first, others, hcs⟩
        rw [hcs, List.modifyHead_cons] at hpiece
        rw [hcs] at ih
        rcases List.mem_cons.mp hpiece with rfl | hbehind
        · rcases List.mem_cons.mp hc with rfl | hc
          · exact List.mem_cons_self
          · exact List.mem_cons_of_mem _ (ih List.mem_cons_self hc)
        · exact List.mem_cons_of_mem _ (ih (List.mem_cons_of_mem _ hbehind) hc)

namespace Element

variable {e : Element}

theorem escape_not_mem_tag (h : Content.Unescaped (.element e)) : escape ∉ e.tag.toList :=
  h e.tag List.mem_cons_self

theorem escape_not_mem_field (h : Content.Unescaped (.element e)) {field : String × String}
    (hfield : field ∈ e.attrs.pairs) : escape ∉ field.1.toList ∧ escape ∉ field.2.toList := by
  have hmem : ∀ s ∈ [field.1, field.2], escape ∉ s.toList := by
    intro s hs
    exact h s (List.mem_cons_of_mem _ (List.mem_flatMap.mpr ⟨field, hfield, hs⟩))
  exact ⟨hmem _ (by simp only [List.mem_cons, true_or]),
    hmem _ (by simp only [List.mem_cons, true_or, or_true])⟩

theorem escape_not_mem_get? (h : Content.Unescaped (.element e)) {name value : String}
    (hvalue : e.attrs.get? name = some value) : escape ∉ value.toList :=
  (escape_not_mem_field h ((lookup_eq_some_iff_mem e.attrs.nodup_names).mp hvalue)).2

theorem escape_not_mem_classes (h : Content.Unescaped (.element e)) {name : String}
    (hname : name ∈ e.classes) : escape ∉ name.toList := by
  intro hmem
  rw [classes, List.mem_map] at hname
  rcases hname with ⟨token, htoken, rfl⟩
  rw [String.toList_ofList] at hmem
  have hclass := Text.mem_of_mem_splitOnP (List.mem_of_mem_filter htoken) hmem
  cases hget : e.attrs.get? "class" with
  | none =>
      rw [hget] at hclass
      exact absurd hclass List.not_mem_nil
  | some value =>
      rw [hget] at hclass
      exact escape_not_mem_get? h hget hclass

/-- The label of an element, its mark and its name set off together. -/
theorem erases_label (h : Content.Unescaped (.element e)) (p : Palette) :
    Erases (e.label p) (e.label .plain) := by
  unfold label
  refine ((erases_tag p (escape_not_mem_tag h)).append (.flatMap ?_)).append (.flatMap ?_)
  · intro id hid
    have hid' := escape_not_mem_get? h (Option.mem_toList.mp hid)
    exact erases_attr p (List.not_mem_cons_of_ne_of_not_mem (by decide) hid')
  · intro name hname
    have hname' := escape_not_mem_classes h hname
    exact erases_attr p (List.not_mem_cons_of_ne_of_not_mem (by decide) hname')

/-- A name is set off, and its value behind it is not. -/
theorem erases_fieldChars {field : String × String} (hname : escape ∉ field.1.toList)
    (hvalue : escape ∉ field.2.toList) (p : Palette) :
    Erases (Attributes.fieldChars p field) (Attributes.fieldChars .plain field) := by
  have hvalue' : escape ∉ (if field.2.isEmpty then [] else '=' :: '"' :: field.2.toList ++ ['"'])
      := by
    by_cases hempty : field.2.isEmpty = true
    · rw [if_pos hempty]
      exact List.not_mem_nil
    · rw [if_neg hempty]
      exact escape_not_mem_around ['=', '"'] ['"'] hvalue (by decide)
  have hblank : Erases [' '] [' '] := .of_not_mem (by decide)
  exact (hblank.append (erases_attr p hname)).append (.of_not_mem hvalue')

theorem erases_openingTag (h : Content.Unescaped (.element e)) (p : Palette) :
    Erases (e.openingTag p) (e.openingTag .plain) := by
  have hopen : Erases ['<'] ['<'] := .of_not_mem (by decide)
  have hclose : Erases ['>'] ['>'] := .of_not_mem (by decide)
  refine ((hopen.append (erases_tag p (escape_not_mem_tag h))).append (.flatMap ?_)).append hclose
  intro field hfield
  have hpair := (List.mergeSort_perm _ _).mem_iff.mp hfield
  exact erases_fieldChars (escape_not_mem_field h hpair).1 (escape_not_mem_field h hpair).2 p

end Element

theorem escape_not_mem_visibleChars {c : Char} (hc : c ≠ escape) : escape ∉ visibleChars c := by
  unfold visibleChars
  by_cases hnewline : c = '\n'
  · rw [if_pos hnewline]
    decide
  · rw [if_neg hnewline]
    by_cases hspace : c = ' '
    · rw [if_pos hspace]
      decide
    · rw [if_neg hspace, List.mem_singleton]
      exact Ne.symm hc

/-- What a dump shows of a node. -/
theorem Content.erases_line {content : Content} (h : content.Unescaped) (p : Palette) :
    Erases (content.line p) (content.line .plain) := by
  cases content with
  | document => exact erases_muted p (by decide)
  | element data => exact Element.erases_openingTag h p
  | text s =>
      have hs : escape ∉ s.toList := h s (List.mem_singleton_self s)
      have hshown : escape ∉ s.toList.flatMap visibleChars := by
        rw [List.mem_flatMap]
        rintro ⟨c, hc, hmem⟩
        exact escape_not_mem_visibleChars (fun heq => hs (heq ▸ hc)) hmem
      exact erases_muted p (escape_not_mem_around ['"'] ['"'] hshown (by decide))
  | comment s =>
      have hs : escape ∉ s.toList := h s (List.mem_singleton_self s)
      exact erases_muted p
        (escape_not_mem_around "<!-- ".toList " -->".toList hs (by decide))

namespace Tree

variable {t : Tree}

/-- The lines of a node and of what is below it, each with its line feed. -/
theorem erases_linesTo (h : t.Unescaped) (p : Palette) (fuel level : Nat) (n : NodeId) :
    Erases ((t.linesTo p fuel level n).flatMap (· ++ ['\n']))
      ((t.linesTo .plain fuel level n).flatMap (· ++ ['\n'])) := by
  induction fuel generalizing level n with
  | zero => exact .nil
  | succ fuel ih =>
      unfold linesTo
      cases hcell : t.cell? n with
      | none => exact .nil
      | some cell =>
          have hcontent : cell.content.Unescaped :=
            h n cell.content (congrArg (Option.map Cell.content) hcell)
          have hindent : Erases (List.replicate (2 * level) ' ') (List.replicate (2 * level) ' ') :=
            .of_not_mem fun hmem => absurd (List.eq_of_mem_replicate hmem) (by decide)
          have hnewline : Erases ['\n'] ['\n'] := .of_not_mem (by decide)
          simp only [List.flatMap_cons, List.flatMap_assoc]
          exact ((hindent.append (Content.erases_line hcontent p)).append hnewline).append
            (.flatMap fun child _ => ih (level + 1) child)

theorem erases_pathChars (h : t.Unescaped) (p : Palette) (n : NodeId) :
    Erases (t.pathChars p n) (t.pathChars .plain n) := by
  refine .intercalate (by decide) ?_
  intro e he
  rcases List.mem_filterMap.mp he with ⟨m, _, hm⟩
  exact Element.erases_label (h m (.element e) (content?_of_element? hm)) p

end Tree

/-- The text above a caret has white space replaced by spaces, and nothing else. -/
theorem SyntaxError.erases_rendered {text : String} (h : escape ∉ text.toList) (e : SyntaxError)
    (p : Palette) : unstyled (e.rendered text p) = e.rendered text .plain := by
  have hshown : escape ∉ shown text.toList := by
    unfold shown
    rw [List.mem_map]
    rintro ⟨c, hc, heq⟩
    by_cases hblank : Text.isBlank c = true
    · rw [if_pos hblank] at heq
      exact absurd heq (by decide)
    · rw [if_neg hblank] at heq
      exact h (heq ▸ hc)
  have hcolumn : escape ∉ List.replicate (e.column text) ' ' := fun hmem =>
    absurd (List.eq_of_mem_replicate hmem) (by decide)
  -- The two lines as one, cut at the caret.
  have hline : Erases
      ([' ', ' '] ++ shown text.toList ++ ['\n', ' ', ' '] ++ List.replicate (e.column text) ' ')
      ([' ', ' '] ++ shown text.toList ++ ['\n', ' ', ' '] ++ List.replicate (e.column text) ' ') :=
    (Erases.of_not_mem (escape_not_mem_around _ _ hshown (by decide))).append (.of_not_mem hcolumn)
  have hcaret : escape ∉ ['^'] := by decide
  have hrendered : ∀ q : Palette, e.rendered text q = String.ofList
      ([' ', ' '] ++ shown text.toList ++ ['\n', ' ', ' '] ++ List.replicate (e.column text) ' ' ++
        q.error ['^']) := by
    intro q
    simp only [rendered, caretLines, List.append_assoc, List.cons_append, List.nil_append]
  rw [hrendered, hrendered, (hline.append (erases_error p hcaret)).unstyled_eq]

/-- Colors are control sequences and nothing else. As far as no string has an escape
    character in it, deleting the control sequences from a dump, a path or the lines of a
    caret leaves what the plain palette writes, for every node and every error, be its
    place one in the text or not. -/
theorem unstyled_report {t : Tree} (ht : t.Unescaped) (p : Palette) :
    (∀ n, unstyled (t.dump p n) = t.dump .plain n ∧
      unstyled (t.elementPath p n) = t.elementPath .plain n) ∧
    ∀ (text : String) (e : SyntaxError), escape ∉ text.toList →
      unstyled (e.rendered text p) = e.rendered text .plain := by
  refine ⟨fun n => ⟨?_, ?_⟩, fun text e h => e.erases_rendered h p⟩
  · exact (Tree.erases_linesTo ht p t.size 0 n).unstyled_eq
  · exact (Tree.erases_pathChars ht p n).unstyled_eq

/-- An attribute without a value, another with classes, and a text and a comment that look
    like what is left of a control sequence. -/
def sequenceLookalikes : Tree :=
  let (t, a) := Tree.new.add Tree.root (.element ⟨"a", .ofList [("k", "")]⟩)
  let (t, b) := t.add a (.element ⟨"b", .ofList [("class", "c d")]⟩)
  ((t.add b (.text "[3 m")).1.add b (.comment "m")).1

/-- Both palettes tell their reports apart, and deleting brings them together. -/
theorem unstyled_lookalikes : sequenceLookalikes.Unescaped ∧
    sequenceLookalikes.dump ⟨true⟩ 1 ≠ sequenceLookalikes.dump .plain 1 ∧
    unstyled (sequenceLookalikes.dump ⟨true⟩ 1) =
      "<a k>\n  <b class=\"c d\">\n    \"[3·m\"\n    <!-- m -->\n" ∧
    unstyled (sequenceLookalikes.elementPath ⟨true⟩ 2) = "a > b.c.d" ∧
    unstyled (SyntaxError.rendered ⟨2, .emptySelector⟩ "a,\tb" ⟨true⟩) = "  a, b\n    ^" := by
  have hunescaped : sequenceLookalikes.Unescaped := Tree.unescaped_of_forall_mem (by decide +kernel)
  rcases unstyled_report hunescaped ⟨true⟩ with ⟨hreport, herror⟩
  refine ⟨hunescaped, by decide +kernel, (hreport 1).1.trans (by decide +kernel),
    (hreport 2).2.trans (by decide +kernel), ?_⟩
  exact (herror "a,\tb" ⟨2, .emptySelector⟩ (by decide +kernel)).trans (by decide +kernel)

end DomQuery
