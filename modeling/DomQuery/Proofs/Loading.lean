import DomQuery.Proofs.Layout
import DomQuery.Proofs.Query

/-!
# Loading Documents

From the JSON form of a document to its tree, and back from there.

An item is written as a string or as an object, and an object has some freedom:
its members come in any order, and the ones for attributes and for the items
inside may be left out where there are none. `Item.Written` is the relation
between items and their forms, and reading is a function the other way, so it
has to be shown that it takes every form of an item to that item. The order of
members is no obstacle because reading looks them up, and no name is there
twice; what is left out is read as nothing.

A whole document is written as the array of its items, or, if it has one item
only, as that. An array is never the form of an item, so the two readings of a
document do not get into each other's way.

Once the items are read, what comes out is fixed by where they go in the tree,
and that has been settled for every list of items. So loading loses nothing: the
items are read back from the tree, and the order of the document is that of the
positions.

## Main definitions

* `Json.Reads`: A text is one value.
* `Document.AttrsMember`, `Item.ChildrenMember`, `Item.Written`, `Item.AllWritten`:
  The forms of items.
* `Document.Written`: The forms of a document.

## Theorems

* `lookup_eq_of_perm`: Looking up does not depend on the order.
* `Attributes.ofList_pairs`: Attributes are their own settings.
* `Document.ofJson?_eq_of_written`: A form of a document is read as it.
* `Document.queryAll_toTree_increasing`: Queries find nodes in document order.
* `loaded_of_written`: What loading makes of a document.
-/

namespace DomQuery

/-- The text is one JSON value, with spacing around it and nothing else. -/
def Json.Reads (text : String) (value : Json) : Prop :=
  ∃ rest, Json.scan? text.toList = some (value, rest) ∧ Json.skipJsonSpace rest = []

namespace Attributes

theorem setIn_of_not_mem {name value : String} {pairs : List (String × String)}
    (h : name ∉ pairs.map Prod.fst) : setIn name value pairs = pairs ++ [(name, value)] := by
  induction pairs with
  | nil => rfl
  | cons pair pairs ih =>
      rw [List.map_cons, List.mem_cons, not_or] at h
      rw [setIn, if_neg fun heq => h.1 heq.symm, ih h.2, List.cons_append]

/-- Settings with new names only are the pairs that come behind the old ones. -/
theorem pairs_foldl_set {a : Attributes} {settings : List (String × String)}
    (h : ((a.pairs ++ settings).map Prod.fst).Nodup) :
    (settings.foldl (fun a setting => a.set setting.1 setting.2) a).pairs =
      a.pairs ++ settings := by
  induction settings generalizing a with
  | nil => exact (List.append_nil _).symm
  | cons setting settings ih =>
      -- The first setting has a new name, so it goes behind the pairs that are there.
      have hnew : setting.1 ∉ a.pairs.map Prod.fst := by
        rw [List.map_append, List.map_cons, List.nodup_append] at h
        exact fun hmem => h.2.2 _ hmem _ List.mem_cons_self rfl
      have hset : (a.set setting.1 setting.2).pairs = a.pairs ++ [setting] := setIn_of_not_mem hnew
      rw [List.foldl_cons, ih (by rwa [hset, List.append_assoc]), hset, List.append_assoc]
      rfl

/-- Attributes are their own settings. -/
theorem ofList_pairs (a : Attributes) : ofList a.pairs = a := by
  have hpairs : (ofList a.pairs).pairs = a.pairs := pairs_foldl_set a.nodup_names
  -- Attributes are the same when their pairs are, the rest of them being a proof.
  generalize ofList a.pairs = b at hpairs
  rcases a with ⟨pairs, _⟩
  rcases b with ⟨pairs', _⟩
  cases hpairs
  rfl

end Attributes

theorem lookup_eq_some_iff_mem {α : Type} {l : List (String × α)} (hnodup : (l.map Prod.fst).Nodup)
    {name : String} {value : α} : l.lookup name = some value ↔ (name, value) ∈ l := by
  induction l with
  | nil => simp only [List.lookup_nil, reduceCtorEq, List.not_mem_nil]
  | cons pair l ih =>
      rcases pair with ⟨name', value'⟩
      rw [List.map_cons, List.nodup_cons] at hnodup
      rw [List.mem_cons, Prod.mk.injEq]
      by_cases hname : name = name'
      · -- The name is not there a second time.
        subst hname
        have hnot : (name, value) ∉ l := fun hmem => hnodup.1 (List.mem_map.mpr ⟨_, hmem, rfl⟩)
        rw [List.lookup_cons_self, Option.some.injEq, or_iff_left hnot, eq_comm, and_iff_right rfl]
      · have hname' : (name == name') = false := beq_false_of_ne hname
        rw [List.lookup_cons, hname', ← ih hnodup.2, or_iff_right fun h => hname h.1]

/-- Where no name is there twice, looking up does not depend on the order. -/
theorem lookup_eq_of_perm {α : Type} {l l' : List (String × α)} (h : l.Perm l')
    (hnodup : (l'.map Prod.fst).Nodup) (name : String) : l.lookup name = l'.lookup name := by
  -- What is looked up is then a matter of membership.
  have hnodup' : (l.map Prod.fst).Nodup := (h.map Prod.fst).nodup_iff.mpr hnodup
  refine Option.ext fun value => ?_
  rw [lookup_eq_some_iff_mem hnodup', lookup_eq_some_iff_mem hnodup, h.mem_iff]

namespace Document

/-- The member for the attributes of an element, which may be missing where there
    are none. -/
inductive AttrsMember (attrs : Attributes) : List (String × Json) → Prop where
  | missing (h : attrs = .empty) : AttrsMember attrs []
  | object : AttrsMember attrs
      [("attrs", .obj (attrs.pairs.map fun pair => (pair.1, .str pair.2)))]

mutual

/-- An item as a string, or as an object with its members in any order. -/
inductive Item.Written : Item → Json → Prop where
  | text (s : String) : Item.Written (.text s) (.str s)
  | element {data : Element} {children : List Item} {attrs below members : List (String × Json)}
      (hattrs : AttrsMember data.attrs attrs) (hbelow : Item.ChildrenMember children below)
      (hmembers : members.Perm (("tag", .str data.tag) :: (attrs ++ below))) :
      Item.Written (.element data children) (.obj members)

/-- The member for the items inside an element, which may be missing where there
    are none. -/
inductive Item.ChildrenMember : List Item → List (String × Json) → Prop where
  | missing : Item.ChildrenMember [] []
  | array {children : List Item} {values : List Json} (h : Item.AllWritten children values) :
      Item.ChildrenMember children [("children", .arr values)]

/-- Items one by one. -/
inductive Item.AllWritten : List Item → List Json → Prop where
  | nil : Item.AllWritten [] []
  | cons {item : Item} {items : List Item} {value : Json} {values : List Json}
      (h : Item.Written item value) (hrest : Item.AllWritten items values) :
      Item.AllWritten (item :: items) (value :: values)

end

/-- A document as the array of its items, or as its only item. -/
inductive Written : List Item → Json → Prop where
  | array {items : List Item} {values : List Json} (h : Item.AllWritten items values) :
      Written items (.arr values)
  | bare {item : Item} {value : Json} (h : Item.Written item value) : Written [item] value

theorem attributesOf?_object (a : Attributes) :
    attributesOf? (.obj (a.pairs.map fun pair => (pair.1, .str pair.2))) = some a := by
  have hstrings : ∀ pairs : List (String × String),
      ((pairs.map fun pair => (pair.1, Json.str pair.2)).mapM fun member =>
        (stringOf? member.2).map (member.1, ·)) = some pairs := by
    intro pairs
    induction pairs with
    | nil => rfl
    | cons pair pairs ih =>
        rw [List.map_cons, List.mapM_cons, ih]
        rfl
  rw [attributesOf?, hstrings, Option.map_some, Attributes.ofList_pairs]

/-- The items inside are those of the member that is looked up. -/
theorem Item.ofChildren?_eq (members : List (String × Json)) :
    Item.ofChildren? members =
      match members.lookup "children" with
      | some (.arr values) => Item.ofArray? [] values
      | some _ => none
      | none => some [] := by
  induction members with
  | nil => rw [Item.ofChildren?, List.lookup_nil]
  | cons member members ih =>
      rcases member with ⟨name, value⟩
      rw [Item.ofChildren?.eq_def]
      simp only
      by_cases hname : name = "children"
      · rw [if_pos hname, hname, List.lookup_cons_self]
        cases value <;> rfl
      · have hname' : ("children" == name) = false := beq_false_of_ne fun heq => hname heq.symm
        rw [if_neg hname, List.lookup_cons, hname', ih]

section Members

variable {a : Attributes} {children : List Item} {tag : String}
  {attrs below members : List (String × Json)} (hattrs : AttrsMember a attrs)
  (hbelow : Item.ChildrenMember children below)
  (hmembers : members.Perm (("tag", .str tag) :: (attrs ++ below)))

include hattrs hbelow in
theorem nodup_names_members : ((("tag", Json.str tag) :: (attrs ++ below)).map Prod.fst).Nodup := by
  -- There are four lists of names, by what is left out.
  cases hattrs with
  | missing _ =>
      cases hbelow with
      | missing => exact (by decide : ["tag"].Nodup)
      | array _ => exact (by decide : ["tag", "children"].Nodup)
  | object =>
      cases hbelow with
      | missing => exact (by decide : ["tag", "attrs"].Nodup)
      | array _ => exact (by decide : ["tag", "attrs", "children"].Nodup)

include hattrs hbelow hmembers

theorem hasFieldsOnly_members : hasFieldsOnly members = true := by
  -- Both conditions speak of what is there and how often, not of the order.
  rw [hasFieldsOnly, hmembers.all_eq]
  simp only [hmembers.countP_eq]
  cases hattrs <;> cases hbelow <;> rfl

theorem lookup_members (name : String) :
    members.lookup name = (("tag", Json.str tag) :: (attrs ++ below)).lookup name :=
  lookup_eq_of_perm hmembers (nodup_names_members hattrs hbelow) name

theorem elementOf?_members :
    elementOf? (.str tag) (members.lookup "attrs") = some ⟨tag, a⟩ := by
  rw [lookup_members hattrs hbelow hmembers]
  cases hattrs with
  | missing h =>
      rw [h]
      cases hbelow <;> rfl
  | object => exact congrArg (Option.map (Element.mk tag)) (attributesOf?_object a)

theorem ofChildren?_members
    (hread : ∀ values, Item.AllWritten children values →
      Item.ofArray? [] values = some children) : Item.ofChildren? members = some children := by
  rw [Item.ofChildren?_eq, lookup_members hattrs hbelow hmembers]
  cases hbelow with
  | missing => cases hattrs <;> rfl
  | array h =>
      have hall := hread _ h
      cases hattrs <;> exact hall

end Members

/-- A form of an element is read as it if the forms of the items inside are. -/
theorem Item.ofJson?_eq_of_element {data : Element} {children : List Item} {value : Json}
    (hread : ∀ values, AllWritten children values → ofArray? [] values = some children)
    (h : Written (.element data children) value) :
    ofJson? value = some (.element data children) := by
  cases h with
  | @element _ _ attrs below members hattrs hbelow hmembers =>
      have htag : members.lookup "tag" = some (.str data.tag) := by
        rw [lookup_members hattrs hbelow hmembers, List.lookup_cons_self]
      have hdata := elementOf?_members hattrs hbelow hmembers
      have hchildren := ofChildren?_members hattrs hbelow hmembers hread
      rw [ofJson?, if_pos (hasFieldsOnly_members hattrs hbelow hmembers), htag]
      simp only [hdata, hchildren]

/-- Forms of items are read as them, one by one. -/
theorem Item.ofArray?_eq_of_allWritten {items read : List Item} {values : List Json}
    (h : AllWritten items values) : ofArray? read values = some (read.reverse ++ items) := by
  induction items using Item.induction generalizing read values with
  | nil =>
      cases h
      rw [ofArray?, List.append_nil]
  | text s items ih =>
      cases h with
      | cons hfirst hrest =>
          cases hfirst
          -- The items read so far are kept in reverse, the new one in front.
          rw [ofArray?, ofJson?]
          simp only [ih hrest, List.reverse_cons, List.append_assoc, List.singleton_append]
  | element data children items ihchildren ih =>
      cases h with
      | cons hfirst hrest =>
          rw [ofArray?, ofJson?_eq_of_element (fun _ => ihchildren) hfirst]
          simp only [ih hrest, List.reverse_cons, List.append_assoc, List.singleton_append]

theorem Item.ofJson?_eq_of_written {item : Item} {value : Json} (h : Written item value) :
    ofJson? value = some item := by
  cases item with
  | text s =>
      cases h
      rw [ofJson?]
  | element data children =>
      exact ofJson?_eq_of_element (fun _ => ofArray?_eq_of_allWritten) h

/-- A form of a document is read as it. -/
theorem ofJson?_eq_of_written {items : List Item} {value : Json} (h : Written items value) :
    ofJson? value = some items := by
  cases h with
  | array h => rw [ofJson?, Item.ofArray?_eq_of_allWritten h, List.reverse_nil, List.nil_append]
  | bare h =>
      have hread := Item.ofJson?_eq_of_written h
      -- The form of an item is a string or an object.
      cases h with
      | text s => exact congrArg (Option.map ([·])) hread
      | element _ _ _ => exact congrArg (Option.map ([·])) hread

/-- A text that is one value is loaded as what the value is read as. -/
theorem load_eq_of_reads {value : Json} {text : String} (h : Json.Reads text value) : load text =
    match ofJson? value with
    | some items => .ok (toTree items)
    | none => .error .notDocument := by
  rcases h with ⟨rest, hscan, hrest⟩
  rw [load, parse, hscan]
  cases hread : ofJson? value <;> simp only [hread, hrest, List.isEmpty_nil, if_true] <;> rfl

theorem load_eq_of_written {items : List Item} {value : Json} {text : String}
    (h : Written items value) (htext : Json.Reads text value) : load text = .ok (toTree items) := by
  rw [load_eq_of_reads htext, ofJson?_eq_of_written h]

/-- Queries find nodes in document order. -/
theorem queryAll_toTree_increasing (items : List Item) (list : SelectorList) (root : NodeId) :
    (list.queryAll (toTree items) root).Pairwise (· < ·) := by
  rcases exists_descendants_toTree items root with ⟨count, hcount⟩
  have hnodup : ((toTree items).descendants root).Nodup := hcount ▸ List.nodup_range'
  have hincreasing : ((toTree items).descendants root).Pairwise (· < ·) :=
    hcount ▸ List.pairwise_lt_range' 1
  rw [list.queryAll_eq_filter hnodup]
  exact hincreasing.filter _

end Document

/-- What loading makes of a document. Every form of its items is loaded, and a
    single item in an array as it is by itself. The tree has one node for the
    document and one for each item. It reads back as the items. The nodes below a
    node take the positions behind it, and a traversal visits them in that order, so
    that queries find nodes in increasing order. -/
theorem loaded_of_written (items : List Document.Item) :
    (∀ value text, Document.Written items value → Json.Reads text value →
      Document.load text = .ok (Document.toTree items)) ∧
    (∀ item value, items = [item] → Document.Item.Written item value →
      ∀ text text', Json.Reads text value → Json.Reads text' (.arr [value]) →
        Document.load text = Document.load text') ∧
    (Document.toTree items).size = 1 + Document.Item.countAll items ∧
    Document.ofTree? (Document.toTree items) = some items ∧
    (∀ n : Nat, ∃ count,
      (∀ m : Nat, Relation.TransGen (Document.toTree items).HasChild n m ↔ n < m ∧ m ≤ n + count) ∧
      (Document.toTree items).descendants n = List.range' (n + 1) count) ∧
    ∀ (list : SelectorList) root,
      (list.queryAll (Document.toTree items) root).Pairwise (· < ·) := by
  refine ⟨fun value text h htext => Document.load_eq_of_written h htext, ?_,
    (Document.Item.appended_toTree items).size_eq, Document.ofTree?_toTree items, ?_,
    Document.queryAll_toTree_increasing items⟩
  · rintro item value rfl h text text' htext htext'
    rw [Document.load_eq_of_written (.bare h) htext,
      Document.load_eq_of_written (.array (.cons h .nil)) htext']
  · intro n
    rcases Document.exists_descendants_toTree items n with ⟨count, hcount⟩
    refine ⟨count, fun m => ?_, hcount⟩
    rw [← Tree.mem_descendants_iff (Document.noCycle_toTree items), hcount, List.mem_range'_1]
    omega

namespace Json

variable {frames frames' : List Frame} {cs rest : List Char} {value : Json}
  {result : Option (Json × List Char)}

theorem scanIn?_of_done (h : begin? frames cs = some (.done value rest)) :
    scanIn? frames cs = some (value, rest) := by
  rw [scanIn?]
  split <;> simp_all only [Option.some.injEq, reduceCtorEq, Progress.done.injEq]

theorem scanIn?_of_next (h : begin? frames cs = some (.next frames' rest))
    (hrest : scanIn? frames' rest = result) : scanIn? frames cs = result := by
  rw [scanIn?]
  split <;> simp_all only [Option.some.injEq, reduceCtorEq, Progress.next.injEq]

end Json

/-- A paragraph with a text in it, its type written last. -/
theorem paragraph_reads : Json.Reads "\x7b\"children\": [\".\"], \"tag\": \"p\"\x7d"
    (.obj [("children", .arr [.str "."]), ("tag", .str "p")]) := by
  have hopen : Json.begin? [] "\x7b\"children\": [\".\"], \"tag\": \"p\"\x7d".toList =
      some (.next [.object [] "children"] " [\".\"], \"tag\": \"p\"\x7d".toList) := by cbv
  have harray : Json.begin? [.object [] "children"] " [\".\"], \"tag\": \"p\"\x7d".toList =
      some (.next [.array [], .object [] "children"] "\".\"], \"tag\": \"p\"\x7d".toList) := by cbv
  have htext : Json.begin? [.array [], .object [] "children"] "\".\"], \"tag\": \"p\"\x7d".toList =
      some (.next [.object [("children", .arr [.str "."])] "tag"] " \"p\"\x7d".toList) := by cbv
  have hclose : Json.begin? [.object [("children", .arr [.str "."])] "tag"] " \"p\"\x7d".toList =
      some (.done (.obj [("children", .arr [.str "."]), ("tag", .str "p")]) []) := by cbv
  exact ⟨[], Json.scanIn?_of_next hopen (Json.scanIn?_of_next harray
    (Json.scanIn?_of_next htext (Json.scanIn?_of_done hclose))), rfl⟩

theorem paragraph_written : Document.Written [.element { tag := "p" } [.text "."]]
    (.obj [("children", .arr [.str "."]), ("tag", .str "p")]) :=
  .bare (.element (.missing rfl) (.array (.cons (.text ".") .nil)) (.swap _ _ _))

/-- It is loaded as two nodes, the text below the element. -/
theorem paragraph_loaded :
    Document.load "\x7b\"children\": [\".\"], \"tag\": \"p\"\x7d" =
      .ok (Document.toTree [.element { tag := "p" } [.text "."]]) ∧
    (Document.toTree [.element { tag := "p" } [.text "."]]).size = 3 ∧
    (Document.toTree [.element { tag := "p" } [.text "."]]).descendants 0 = [1, 2] :=
  ⟨(loaded_of_written _).1 _ _ paragraph_written paragraph_reads,
    (loaded_of_written _).2.2.1, by decide⟩

end DomQuery
