import DomQuery.Proofs.Loading
import Mathlib.Data.List.Nodup

/-!
# The Document Format

Which JSON values are documents.

The format is soon described. A text is a string. An element is an object that names
its type and may name its attributes and the nodes inside of it, and nothing else. A
document is an array of nodes, or one node. The reader takes more than that, for an
element may come without the names of its members too, as a list of their values in
their order. `Document.IsDocument` is the format either way, by a proposition that says
whether there are such lists.

A list is read as the object would be that names its members, so there is one way only
in which elements are read, and one proof for both. That everything is read that fits
the format, and nothing else, is an induction on the value. The inside of an element is
two steps down, the array and the nodes in it, so the induction says of a value at once
what it is as a node and what it is as the inside of an element.

Inside of a document a list stands where an array holds another array. At the top it may
also be the document itself, which then is an array of which some item need not be a
node. Where neither is so there is no list, and the value fits the format as described.

## Main definitions

* `Json.Unnested`: No array in a value directly holds another.
* `Document.IsMember`, `Document.IsNode`, `Document.IsDocument`: The format.
* `Document.Item.childrenOf?`, `Document.Item.ofMembers?`: How the inside of an element
  and an element are read.

## Theorems

* `Json.induction`: Induction on a value from what is in it.
* `Document.Item.ofJson?_obj`, `Document.Item.ofJson?_arr`: How objects and lists are read.
* `Document.Item.isSome_iff`, `Document.isSome_ofJson?_iff`: What is read.
* `Document.isNode_false_iff`, `Document.isDocument_false_iff`: What has no lists.
* `read_iff_document`: Which JSON documents are read.
-/

namespace DomQuery

namespace Json

/-- Induction on a value from what is in it. -/
@[elab_as_elim]
theorem induction {motive : Json → Prop} (null : motive .null) (bool : ∀ b, motive (.bool b))
    (num : ∀ n, motive (.num n)) (str : ∀ s, motive (.str s))
    (arr : ∀ items, (∀ value ∈ items, motive value) → motive (.arr items))
    (obj : ∀ members, (∀ member ∈ members, motive member.2) → motive (.obj members)) :
    ∀ value, motive value
  | .null => null
  | .bool b => bool b
  | .num n => num n
  | .str s => str s
  | .arr items => arr items fun value _ => induction null bool num str arr obj value
  | .obj members => obj members fun (_, value) _ => induction null bool num str arr obj value
termination_by value => sizeOf value
decreasing_by
  · have := List.sizeOf_lt_of_mem ‹value ∈ items›
    simp only [Json.arr.sizeOf_spec]
    omega
  · have := List.sizeOf_lt_of_mem ‹_ ∈ members›
    simp only [Json.obj.sizeOf_spec, Prod.mk.sizeOf_spec] at this ⊢
    omega

/-- No array in the value directly holds another array. -/
inductive Unnested : Json → Prop where
  | null : Unnested .null
  | bool (b : Bool) : Unnested (.bool b)
  | num (n : Numeral) : Unnested (.num n)
  | str (s : String) : Unnested (.str s)
  | arr {items : List Json} (harr : ∀ inner, .arr inner ∉ items)
      (h : ∀ value ∈ items, Unnested value) : Unnested (.arr items)
  | obj {members : List (String × Json)} (h : ∀ member ∈ members, Unnested member.2) :
      Unnested (.obj members)

theorem unnested_arr_iff {items : List Json} : Unnested (.arr items) ↔
    (∀ inner, .arr inner ∉ items) ∧ ∀ value ∈ items, value.Unnested := by
  constructor
  · rintro ⟨⟩
    exact ⟨‹_›, ‹_›⟩
  · exact fun h => .arr h.1 h.2

theorem unnested_obj_iff {members : List (String × Json)} :
    Unnested (.obj members) ↔ ∀ member ∈ members, member.2.Unnested := by
  constructor
  · rintro ⟨⟩
    assumption
  · exact .obj

end Json

/-- A step for each of several things succeeds if every one does. -/
theorem isSome_mapM_iff {α β : Type} {f : α → Option β} {l : List α} :
    (l.mapM f).isSome ↔ ∀ a ∈ l, (f a).isSome := by
  induction l with
  | nil => simp
  | cons a l ih =>
      rw [List.forall_mem_cons, ← ih, List.mapM_cons]
      cases f a with
      | none => simp
      | some b => simp [Option.isSome_bind]

namespace Document

mutual

/-- A member of an element: its type, its attributes, or the nodes inside. -/
inductive IsMember (lists : Prop) : String × Json → Prop where
  | tag (s : String) : IsMember lists ("tag", .str s)
  | attrs {pairs : List (String × Json)} (h : ∀ pair ∈ pairs, ∃ s, pair.2 = .str s) :
      IsMember lists ("attrs", .obj pairs)
  | children {values : List Json} (h : ∀ value ∈ values, IsNode lists value) :
      IsMember lists ("children", .arr values)

/-- A node: a text, or an element that names its members, its type among them and none
    of them twice. If there are lists for elements, also the values of the members in
    their order, the last ones left out or not. -/
inductive IsNode (lists : Prop) : Json → Prop where
  | text (s : String) : IsNode lists (.str s)
  | element {members : List (String × Json)} (hnodup : (members.map Prod.fst).Nodup)
      (htag : "tag" ∈ members.map Prod.fst) (h : ∀ member ∈ members, IsMember lists member) :
      IsNode lists (.obj members)
  | list (hlists : lists) {values : List Json} (hlength : values.length ≤ fieldNames.length)
      (h : IsNode lists (.obj (fieldNames.zip values))) : IsNode lists (.arr values)

end

/-- A document: an array of nodes, or one node. -/
inductive IsDocument (lists : Prop) : Json → Prop where
  | nodes {values : List Json} (h : ∀ value ∈ values, IsNode lists value) :
      IsDocument lists (.arr values)
  | node {value : Json} (h : IsNode lists value) : IsDocument lists value

/-- The items that a value stands for as what is inside an element. -/
def Item.childrenOf? : Json → Option (List Item)
  | .arr values => ofArray? [] values
  | _ => none

/-- The element that the values of its members stand for, as far as these are there. -/
def Item.ofMembers? (tag attrs children : Option Json) : Option Item :=
  tag.bind fun tag => (elementOf? tag attrs).bind fun data =>
    (children.elim (some []) childrenOf?).map (.element data)

variable {lists : Prop} {value tag : Json} {values : List Json} {member : String × Json}
  {members : List (String × Json)}

/-! ### Members -/

theorem isMember_iff : IsMember lists member ↔ (∃ s, member = ("tag", .str s)) ∨
    (∃ pairs, member = ("attrs", .obj pairs) ∧ ∀ pair ∈ pairs, ∃ s, pair.2 = .str s) ∨
    ∃ values, member = ("children", .arr values) ∧ ∀ value ∈ values, IsNode lists value := by
  constructor
  · intro h
    cases h with
    | tag s => exact .inl ⟨s, rfl⟩
    | attrs h => exact .inr (.inl ⟨_, rfl, h⟩)
    | children h => exact .inr (.inr ⟨_, rfl, h⟩)
  · rintro (⟨s, rfl⟩ | ⟨pairs, rfl, h⟩ | ⟨values, rfl, h⟩)
    · exact .tag s
    · exact .attrs h
    · exact .children h

theorem IsMember.name_mem (h : IsMember lists member) : member.1 ∈ fieldNames := by
  rcases isMember_iff.mp h with ⟨_, rfl⟩ | ⟨_, rfl, _⟩ | ⟨_, rfl, _⟩ <;> simp [fieldNames]

theorem isMember_tag_iff : IsMember lists ("tag", value) ↔ (stringOf? value).isSome := by
  rw [isMember_iff]
  cases value <;> simp [stringOf?]

theorem isSome_stringOf?_iff : (stringOf? value).isSome ↔ ∃ s, value = .str s := by
  cases value <;> simp [stringOf?]

theorem isSome_attributesOf?_iff : (attributesOf? (.obj members)).isSome ↔
    ∀ member ∈ members, ∃ s, member.2 = .str s := by
  rw [attributesOf?, Option.isSome_map, isSome_mapM_iff]
  simp only [Option.isSome_map, isSome_stringOf?_iff]

theorem isMember_attrs_iff : IsMember lists ("attrs", value) ↔ (attributesOf? value).isSome := by
  rw [isMember_iff]
  cases value with
  | obj members => simp [isSome_attributesOf?_iff]
  | _ => simp [attributesOf?]

theorem isMember_children_iff : IsMember lists ("children", value) ↔
    ∃ values, value = .arr values ∧ ∀ value ∈ values, IsNode lists value := by
  rw [isMember_iff]
  simp

theorem isNode_obj_iff : IsNode lists (.obj members) ↔ (members.map Prod.fst).Nodup ∧
    "tag" ∈ members.map Prod.fst ∧ ∀ member ∈ members, IsMember lists member := by
  constructor
  · rintro ⟨⟩
    exact ⟨‹_›, ‹_›, ‹_›⟩
  · rintro ⟨hnodup, htag, h⟩
    exact .element hnodup htag h

theorem isNode_arr_iff : IsNode lists (.arr values) ↔
    lists ∧ values.length ≤ fieldNames.length ∧ IsNode lists (.obj (fieldNames.zip values)) := by
  constructor
  · rintro ⟨⟩
    exact ⟨‹_›, ‹_›, ‹_›⟩
  · rintro ⟨hlists, hlength, h⟩
    exact .list hlists hlength h

/-! ### What is read -/

theorem Item.isSome_ofArray?_iff {read : List Item} :
    (ofArray? read values).isSome ↔ ∀ value ∈ values, (ofJson? value).isSome := by
  induction values generalizing read with
  | nil => simp [ofArray?]
  | cons value values ih =>
      rw [ofArray?]
      cases h : ofJson? value with
      | none => simp [h]
      | some item => simp [h, ih]

theorem hasFieldsOnly_iff : hasFieldsOnly members = true ↔
    (∀ member ∈ members, member.1 ∈ fieldNames) ∧ (members.map Prod.fst).Nodup := by
  rw [hasFieldsOnly, Bool.and_eq_true, List.all_eq_true, List.all_eq_true,
    List.nodup_iff_count_le_one]
  simp only [List.contains_iff_mem, decide_eq_true_eq, List.count_eq_countP, List.countP_map]
  refine and_congr_right fun hknown => ⟨fun hone name => ?_, fun h name _ => h name⟩
  by_cases hname : name ∈ fieldNames
  · exact hone name hname
  · -- A name that no field has is not there at all.
    rw [List.countP_eq_zero.mpr fun member hmember heq => hname ?_]
    · exact Nat.zero_le 1
    · rw [← eq_of_beq heq]
      exact hknown member hmember

theorem isSome_elementOf?_iff {attrs : Option Json} : (elementOf? tag attrs).isSome ↔
    (stringOf? tag).isSome ∧ ∀ value ∈ attrs, (attributesOf? value).isSome := by
  cases htag : stringOf? tag <;> cases attrs <;> simp [elementOf?, htag]

theorem Item.isSome_ofMembers?_iff {tag attrs children : Option Json} :
    (ofMembers? tag attrs children).isSome ↔ tag.isSome ∧
      (∀ value ∈ tag, (stringOf? value).isSome) ∧ (∀ value ∈ attrs, (attributesOf? value).isSome) ∧
      ∀ value ∈ children, (childrenOf? value).isSome := by
  have hboth : ∀ (data : Option Element) (inside : Option (List Item)),
      (data.bind fun data => inside.map (element data)).isSome ↔ data.isSome ∧ inside.isSome := by
    rintro (_ | data) (_ | inside) <;> simp
  rw [ofMembers?]
  cases tag with
  | none => simp
  | some tag =>
      rw [Option.bind_some, hboth, isSome_elementOf?_iff, and_assoc]
      cases children <;> simp

theorem Item.ofChildren?_eq_elim (members : List (String × Json)) :
    ofChildren? members = (members.lookup "children").elim (some []) childrenOf? := by
  rw [ofChildren?_eq]
  rcases members.lookup "children" with _ | _ | _ | _ | _ | _ | _ <;> rfl

theorem Item.ofJson?_obj (members : List (String × Json)) : ofJson? (.obj members) =
    if hasFieldsOnly members then ofMembers? (members.lookup "tag") (members.lookup "attrs")
      (members.lookup "children") else none := by
  rw [ofJson?, ofMembers?, ← ofChildren?_eq_elim]
  cases members.lookup "tag" with
  | none => rfl
  | some tag =>
      simp only [Option.bind_some]
      cases elementOf? tag (members.lookup "attrs") <;> cases ofChildren? members <;> rfl

/-- An element without names is read as it would be with the names of its members. -/
theorem Item.ofJson?_arr (values : List Json) : ofJson? (.arr values) =
    if values.length ≤ fieldNames.length then ofJson? (.obj (fieldNames.zip values)) else none := by
  rw [ofJson?_obj]
  match values with
  | [] => rfl
  | [tag] =>
      change ofJson? (.arr [tag]) = ofMembers? (some tag) none none
      rw [ofJson?]
      exact Option.map_eq_bind
  | [tag, attrs] =>
      change ofJson? (.arr [tag, attrs]) = ofMembers? (some tag) (some attrs) none
      rw [ofJson?]
      exact Option.map_eq_bind
  | [tag, attrs, children] =>
      change ofJson? (.arr [tag, attrs, children]) =
        ofMembers? (some tag) (some attrs) (some children)
      rw [ofMembers?, Option.bind_some]
      cases hchildren : children with
      | arr inner =>
          rw [ofJson?, Option.elim_some, childrenOf?]
          cases elementOf? tag (some attrs) <;> cases ofArray? [] inner <;> rfl
      | _ => simp [ofJson?, childrenOf?]
  | a :: b :: c :: d :: rest =>
      have hlong : ¬ (a :: b :: c :: d :: rest).length ≤ fieldNames.length := by simp [fieldNames]
      rw [if_neg hlong]
      cases c <;> rfl

/-- An object is read as a node if it is one, given that what is inside it is read if
    it is an array of nodes. -/
theorem Item.isSome_ofJson?_obj_iff (h : ∀ member ∈ members,
      ((childrenOf? member.2).isSome ↔ IsMember True ("children", member.2))) :
    (ofJson? (.obj members)).isSome ↔ IsNode True (.obj members) := by
  rw [ofJson?_obj, isNode_obj_iff]
  by_cases hfields : hasFieldsOnly members = true
  · rcases hasFieldsOnly_iff.mp hfields with ⟨hknown, hnodup⟩
    -- No name is there twice, so what is looked up is what there is.
    rw [if_pos hfields, isSome_ofMembers?_iff, Option.isSome_iff_exists]
    simp only [Option.mem_def, lookup_eq_some_iff_mem hnodup]
    constructor
    · rintro ⟨⟨tag, htag⟩, hstring, hattrs, hchildren⟩
      refine ⟨hnodup, List.mem_map.mpr ⟨_, htag, rfl⟩, fun member hmember => ?_⟩
      have hname := hknown member hmember
      rcases member with ⟨name, value⟩
      simp only [fieldNames, List.mem_cons, List.not_mem_nil, or_false] at hname
      rcases hname with rfl | rfl | rfl
      · exact isMember_tag_iff.mpr (hstring value hmember)
      · exact isMember_attrs_iff.mpr (hattrs value hmember)
      · exact (h _ hmember).mp (hchildren value hmember)
    · rintro ⟨_, htag, hmembers⟩
      rcases List.mem_map.mp htag with ⟨⟨name, tag⟩, hmember, rfl⟩
      exact ⟨⟨tag, hmember⟩, fun value hvalue => isMember_tag_iff.mp (hmembers _ hvalue),
        fun value hvalue => isMember_attrs_iff.mp (hmembers _ hvalue),
        fun value hvalue => (h _ hvalue).mpr (hmembers _ hvalue)⟩
  · rw [if_neg hfields]
    refine iff_of_false Bool.false_ne_true fun hnode => hfields ?_
    exact hasFieldsOnly_iff.mpr ⟨fun member hmember => (hnode.2.2 member hmember).name_mem, hnode.1⟩

/-- What is read as a node is a node, and what is read as the inside of an element is
    an array of nodes. -/
theorem Item.isSome_iff (value : Json) : ((ofJson? value).isSome ↔ IsNode True value) ∧
    ((childrenOf? value).isSome ↔ IsMember True ("children", value)) := by
  induction value using Json.induction with
  | arr items ih =>
      refine ⟨?_, ?_⟩
      · rw [ofJson?_arr, isNode_arr_iff]
        by_cases hlength : items.length ≤ fieldNames.length
        · -- The members that the items are have them as their values.
          have hvalues : ∀ member ∈ fieldNames.zip items, member.2 ∈ items := fun member hmember =>
            (List.of_mem_zip hmember).2
          rw [if_pos hlength, isSome_ofJson?_obj_iff fun member hmember =>
            (ih _ (hvalues member hmember)).2]
          simp [hlength]
        · simp [hlength]
      · rw [childrenOf?, isSome_ofArray?_iff, isMember_children_iff]
        simp only [Json.arr.injEq, exists_eq_left']
        exact forall₂_congr fun value hvalue => (ih value hvalue).1
  | obj members ih =>
      refine ⟨isSome_ofJson?_obj_iff fun member hmember => (ih member hmember).2, ?_⟩
      simp [childrenOf?, isMember_children_iff]
  | str s =>
      refine ⟨iff_of_true ?_ (.text s), ?_⟩
      · rw [ofJson?]
        rfl
      · simp [childrenOf?, isMember_children_iff]
  | _ =>
    refine ⟨iff_of_false ?_ ?_, ?_⟩
    · simp [ofJson?]
    · rintro ⟨⟩
    · simp [childrenOf?, isMember_children_iff]

theorem isDocument_iff : IsDocument lists value ↔
    (∃ values, value = .arr values ∧ ∀ value ∈ values, IsNode lists value) ∨
      IsNode lists value := by
  constructor
  · rintro (h | h)
    · exact .inl ⟨_, rfl, h⟩
    · exact .inr h
  · rintro (⟨values, rfl, h⟩ | h)
    · exact .nodes h
    · exact .node h

/-- What is read is a document, where elements may also be lists. -/
theorem isSome_ofJson?_iff (value : Json) : (ofJson? value).isSome ↔ IsDocument True value := by
  rw [isDocument_iff, ← (Item.isSome_iff value).1]
  cases value with
  | arr values =>
      have hall : (∃ inner, Json.arr values = .arr inner ∧ ∀ value ∈ inner, IsNode True value) ↔
          (Item.ofArray? [] values).isSome := by
        rw [Item.isSome_ofArray?_iff]
        simp only [Json.arr.injEq, exists_eq_left', (Item.isSome_iff _).1]
      rw [hall, ofJson?]
      cases Item.ofArray? [] values <;> simp
  | _ => simp [ofJson?]

/-! ### Lists for elements -/

/-- The type and the attributes of an element hold no arrays, so that a member is without
    lists for elements if the one for the inside is. -/
theorem isMember_false_iff
    (h : IsMember False ("children", value) ↔ IsMember True ("children", value) ∧ value.Unnested)
    (name : String) :
    IsMember False (name, value) ↔ IsMember True (name, value) ∧ value.Unnested := by
  constructor
  · intro hmember
    rcases isMember_iff.mp hmember with ⟨s, heq⟩ | ⟨pairs, heq, hpairs⟩ | ⟨values, heq, _⟩
    · cases heq
      exact ⟨.tag s, .str s⟩
    · cases heq
      refine ⟨.attrs hpairs, .obj fun pair hpair => ?_⟩
      rcases hpairs pair hpair with ⟨s, hs⟩
      rw [hs]
      exact .str s
    · cases heq
      exact h.mp hmember
  · rintro ⟨hmember, hunnested⟩
    rcases isMember_iff.mp hmember with ⟨s, heq⟩ | ⟨pairs, heq, hpairs⟩ | ⟨values, heq, _⟩
    · cases heq
      exact .tag s
    · cases heq
      exact .attrs hpairs
    · cases heq
      exact h.mpr ⟨hmember, hunnested⟩

/-- A node is without lists for elements if it is no list and no list in it holds
    another. -/
theorem isNode_false_iff (value : Json) :
    (IsNode False value ↔ IsNode True value ∧ (∀ inner, value ≠ .arr inner) ∧ value.Unnested) ∧
    (IsMember False ("children", value) ↔
      IsMember True ("children", value) ∧ value.Unnested) := by
  induction value using Json.induction with
  | arr items ih =>
      refine ⟨iff_of_false (fun h => (isNode_arr_iff.mp h).1) fun h => h.2.1 items rfl, ?_⟩
      rw [isMember_children_iff, isMember_children_iff, Json.unnested_arr_iff]
      simp only [Json.arr.injEq, exists_eq_left']
      constructor
      · intro h
        have hitem := fun item hitem => (ih item hitem).1.mp (h item hitem)
        exact ⟨fun item hmem => (hitem item hmem).1, fun inner hmem => (hitem _ hmem).2.1 inner rfl,
          fun item hmem => (hitem item hmem).2.2⟩
      · rintro ⟨h, hlist, hunnested⟩ item hmem
        exact (ih item hmem).1.mpr
          ⟨h item hmem, fun inner heq => hlist inner (heq ▸ hmem), hunnested item hmem⟩
  | obj members ih =>
      have hmember : ∀ member ∈ members, (IsMember False member ↔
          IsMember True member ∧ member.2.Unnested) :=
        fun member hmem => isMember_false_iff (ih member hmem).2 member.1
      refine ⟨?_, by simp [isMember_children_iff]⟩
      rw [isNode_obj_iff, isNode_obj_iff, Json.unnested_obj_iff, forall₂_congr hmember]
      simp only [ne_eq, reduceCtorEq, not_false_eq_true, implies_true, true_and, forall_and,
        and_assoc]
  | str s =>
      exact ⟨iff_of_true (.text s) ⟨.text s, by simp, .str s⟩, by simp [isMember_children_iff]⟩
  | _ =>
      refine ⟨iff_of_false ?_ ?_, by simp [isMember_children_iff]⟩
      · rintro ⟨⟩
      · rintro ⟨⟨⟩, _⟩

/-- A document is without lists for elements if all it holds are nodes and no list in
    it holds another. -/
theorem isDocument_false_iff (value : Json) : IsDocument False value ↔
    IsDocument True value ∧ value.Unnested ∧
      ∀ values, value = .arr values → ∀ value ∈ values, IsNode True value := by
  cases value with
  | arr values =>
      -- The array is no node itself, but may be the inside of an element.
      have hnodes := (isNode_false_iff (.arr values)).2
      have hlist : ¬ IsNode False (.arr values) := fun h => (isNode_arr_iff.mp h).1
      simp only [isMember_children_iff, Json.arr.injEq, exists_eq_left'] at hnodes
      simp only [isDocument_iff, Json.arr.injEq, exists_eq_left', forall_eq']
      rw [or_iff_left hlist, hnodes]
      exact ⟨fun h => ⟨.inl h.1, h.2, h.1⟩, fun h => ⟨h.2.2, h.2.1⟩⟩
  | _ => simp [isDocument_iff, (isNode_false_iff _).1]

end Document

/-- Which JSON documents are read. A value is read as a document if it is an array of
    nodes or one node, where an element is an object or, without the names of its
    members, a list of up to three values. Among these documents those without lists for
    elements are the ones in which all that an array as a whole holds are nodes, and no
    array directly holds another. A text that is one JSON value is loaded exactly if the
    value is read, and is otherwise no document. -/
theorem read_iff_document (value : Json) :
    ((Document.ofJson? value).isSome ↔ Document.IsDocument True value) ∧
    (Document.IsDocument False value ↔ Document.IsDocument True value ∧ value.Unnested ∧
      ∀ values, value = .arr values → ∀ value ∈ values, Document.IsNode True value) ∧
    ∀ text, Json.Reads text value →
      ((∃ tree, Document.load text = .ok tree) ↔ Document.IsDocument True value) ∧
      (Document.load text = .error .notDocument ↔ ¬ Document.IsDocument True value) := by
  have hread := Document.isSome_ofJson?_iff value
  refine ⟨hread, Document.isDocument_false_iff value, fun text htext => ?_⟩
  rw [Document.load_eq_of_reads htext, ← hread]
  cases Document.ofJson? value <;> simp

/-- A paragraph with a member that no element has. -/
theorem classed_reads : Json.Reads "\x7b\"tag\": \"p\", \"class\": \"a\"\x7d"
    (.obj [("tag", .str "p"), ("class", .str "a")]) := by
  have hopen : Json.begin? [] "\x7b\"tag\": \"p\", \"class\": \"a\"\x7d".toList =
      some (.next [.object [] "tag"] " \"p\", \"class\": \"a\"\x7d".toList) := by cbv
  have htag : Json.begin? [.object [] "tag"] " \"p\", \"class\": \"a\"\x7d".toList =
      some (.next [.object [("tag", .str "p")] "class"] " \"a\"\x7d".toList) := by cbv
  have hclose : Json.begin? [.object [("tag", .str "p")] "class"] " \"a\"\x7d".toList =
      some (.done (.obj [("tag", .str "p"), ("class", .str "a")]) []) := by cbv
  exact ⟨[], Json.scanIn?_of_next hopen (Json.scanIn?_of_next htag
    (Json.scanIn?_of_done hclose)), rfl⟩

/-- The paragraph with a text in it is loaded, and is a document without lists for
    elements. The one with a class is none at all. -/
theorem paragraph_document :
    Document.IsDocument False (.obj [("children", .arr [.str "."]), ("tag", .str "p")]) ∧
    (∃ tree, Document.load "\x7b\"children\": [\".\"], \"tag\": \"p\"\x7d" = .ok tree) ∧
    Document.load "\x7b\"tag\": \"p\", \"class\": \"a\"\x7d" = .error .notDocument := by
  have hread : Document.IsDocument True (.obj [("children", .arr [.str "."]), ("tag", .str "p")]) :=
    (read_iff_document _).1.mp (by rw [Document.ofJson?_eq_of_written paragraph_written]; rfl)
  have hclass : ¬ Document.IsDocument True (.obj [("tag", .str "p"), ("class", .str "a")]) :=
    (read_iff_document _).1.not.mp (by decide)
  refine ⟨(read_iff_document _).2.1.mpr ⟨hread, ?_, by simp⟩,
    ((read_iff_document _).2.2 _ paragraph_reads).1.mpr hread,
    ((read_iff_document _).2.2 _ classed_reads).2.mpr hclass⟩
  simp [Json.unnested_obj_iff, Json.unnested_arr_iff, Json.Unnested.str]

/-- A list in a list, and a list of a string and an object without a type. -/
theorem listed_reads : Json.Reads "[[\"div\"]]" (.arr [.arr [.str "div"]]) ∧
    Json.Reads "[\"div\",\x7b\"id\":\"x\"\x7d]" (.arr [.str "div", .obj [("id", .str "x")]]) := by
  have hopen : Json.begin? [] "[[\"div\"]]".toList =
      some (.next [.array []] "[\"div\"]]".toList) := by cbv
  have hinner : Json.begin? [.array []] "[\"div\"]]".toList =
      some (.next [.array [], .array []] "\"div\"]]".toList) := by cbv
  have hclose : Json.begin? [.array [], .array []] "\"div\"]]".toList =
      some (.done (.arr [.arr [.str "div"]]) []) := by cbv
  have hopen' : Json.begin? [] "[\"div\",\x7b\"id\":\"x\"\x7d]".toList =
      some (.next [.array []] "\"div\",\x7b\"id\":\"x\"\x7d]".toList) := by cbv
  have htag : Json.begin? [.array []] "\"div\",\x7b\"id\":\"x\"\x7d]".toList =
      some (.next [.array [.str "div"]] "\x7b\"id\":\"x\"\x7d]".toList) := by cbv
  have hattrs : Json.begin? [.array [.str "div"]] "\x7b\"id\":\"x\"\x7d]".toList =
      some (.next [.object [] "id", .array [.str "div"]] "\"x\"\x7d]".toList) := by cbv
  have hclose' : Json.begin? [.object [] "id", .array [.str "div"]] "\"x\"\x7d]".toList =
      some (.done (.arr [.str "div", .obj [("id", .str "x")]]) []) := by cbv
  exact ⟨⟨[], Json.scanIn?_of_next hopen (Json.scanIn?_of_next hinner
      (Json.scanIn?_of_done hclose)), rfl⟩,
    ⟨[], Json.scanIn?_of_next hopen' (Json.scanIn?_of_next htag (Json.scanIn?_of_next hattrs
      (Json.scanIn?_of_done hclose'))), rfl⟩⟩

/-- Both are loaded as one element, though the one has a list for an element and the
    other holds what is no node. -/
theorem listed_loaded :
    Document.load "[[\"div\"]]" = .ok (Document.toTree [.element { tag := "div" } []]) ∧
    ¬ Document.IsDocument False (.arr [.arr [.str "div"]]) ∧
    Document.load "[\"div\",\x7b\"id\":\"x\"\x7d]" =
      .ok (Document.toTree [.element ⟨"div", .ofList [("id", "x")]⟩ []]) ∧
    ¬ Document.IsDocument False (.arr [.str "div", .obj [("id", .str "x")]]) ∧
    ¬ Document.IsNode True (.obj [("id", .str "x")]) := by
  have hid : ¬ Document.IsNode True (.obj [("id", .str "x")]) := fun h =>
    absurd (Document.isNode_obj_iff.mp h).2.1 (by decide)
  refine ⟨Document.load_eq_of_reads listed_reads.1, fun h => ?_,
    Document.load_eq_of_reads listed_reads.2, fun h => hid ?_, hid⟩
  · rw [Document.isDocument_false_iff, Json.unnested_arr_iff] at h
    exact h.2.1.1 _ List.mem_cons_self
  · rw [Document.isDocument_false_iff] at h
    exact h.2.2 _ rfl _ (List.mem_cons_of_mem _ List.mem_cons_self)

end DomQuery
