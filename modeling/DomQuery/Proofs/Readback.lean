import DomQuery.Proofs.Loading
import DomQuery.Selector.Json

/-!
# Reading a Selector Back from Its JSON

The JSON value of a selector list determines the list.

The values hold less than the types. Nothing says whether a clause is a compound or has a
combinator, and a condition on the type and one on a class have members of the same names.
What tells them apart is the set of names of an object and the string under `type`, so
that is what a reader goes by: it asks an object for exactly these names, each of them
once, and an object that has one set of names has no other.

Two values are taken for the same when they differ in the order of members only, at any
depth, as the members of an object have no order. A value is read as a list exactly when
it is the same as the value of this list, whatever the list is made of. So the reader
undoes the writer, and two lists with the same value are one list.

Chains are followed link by link, the far side of a link being read from a smaller value.
There is no bound on their length, and no compound needs to have a condition.

## Main definitions

* `Json.Same`: Values that differ in the order of members only.
* `Json.fields?`: The values of an object that has these names and no others.
* `Simple.ofJson?`, `Compound.ofJson?`, `Selector.ofJson?`, `SelectorList.ofJson?`: The
  part of a selector list that a value stands for.

## Theorems

* `Json.fieldsIn?_eq_some_iff`: What members have these names and no others.
* `Json.same_obj_zip_iff`: What is the same as an object, told by its names.
* `Json.perm_of_fields?`: An object has one set of names.
* `Simple.ofJson?_eq_some_iff`, `Compound.ofJson?_eq_some_iff`,
  `Selector.ofJson?_eq_some_iff`: A part is read from its own values and no others.
* `readback_toJson`: Lists and their values.
-/

namespace DomQuery

namespace Json

/-- The values differ in the order of the members of objects only, at any depth. -/
inductive Same : Json → Json → Prop where
  | refl (v : Json) : Same v v
  | arr {items items' : List Json} (hitems : List.Forall₂ Same items items') :
      Same (.arr items) (.arr items')
  | obj {members mid members' : List (String × Json)} (hperm : members.Perm mid)
      (hnames : mid.map Prod.fst = members'.map Prod.fst)
      (hvalues : List.Forall₂ Same (mid.map Prod.snd) (members'.map Prod.snd)) :
      Same (.obj members) (.obj members')

/-- The values under these names, in this order, of members that have each of these names
    once and no others. -/
def fieldsIn? : List String → List (String × Json) → Option (List Json)
  | [], [] => some []
  | [], _ :: _ => none
  | name :: names, members =>
    match members.lookup name with
    | some value => (fieldsIn? names (members.eraseP (·.1 == name))).map (value :: ·)
    | none => none

/-- The values under these names of an object that has these names and no others. -/
def fields? (v : Json) (names : List String) : Option (List Json) :=
  match v with
  | .obj members => fieldsIn? names members
  | _ => none

/-- A member that is found can be put in front of the others. -/
theorem perm_cons_of_lookup {members : List (String × Json)} {name : String} {value : Json}
    (h : members.lookup name = some value) :
    members.Perm ((name, value) :: members.eraseP (·.1 == name)) := by
  induction members with
  | nil => simp only [List.lookup_nil, reduceCtorEq] at h
  | cons member members ih =>
      rcases member with ⟨name', value'⟩
      by_cases hname : name' = name
      · subst hname
        rw [List.lookup_cons_self, Option.some.injEq] at h
        rw [List.eraseP_cons_of_pos (by simp only [beq_self_eq_true]), h]
      · have hne : (name == name') = false := by
          rw [beq_eq_false_iff_ne]
          exact Ne.symm hname
        rw [List.lookup_cons, hne] at h
        rw [List.eraseP_cons_of_neg (by simp only [beq_iff_eq, hname, not_false_eq_true])]
        exact ((ih h).cons _).trans (.swap _ _ _)

/-- Members have these names and no others when they are these names, each with its value,
    in some order. -/
theorem fieldsIn?_eq_some_iff {names : List String} (hnames : names.Nodup)
    {members : List (String × Json)} {values : List Json} :
    fieldsIn? names members = some values ↔
      values.length = names.length ∧ members.Perm (names.zip values) := by
  induction names generalizing members values with
  | nil =>
      rw [List.zip_nil_left, List.perm_nil, List.length_nil, List.length_eq_zero_iff]
      cases members with
      | nil =>
          rw [fieldsIn?, Option.some.injEq]
          exact ⟨fun h => ⟨h.symm, rfl⟩, fun h => h.1.symm⟩
      | cons member members => simp only [fieldsIn?, reduceCtorEq, and_false]
  | cons name names ih =>
      rw [List.nodup_cons] at hnames
      unfold fieldsIn?
      constructor
      · intro h
        split at h
        · next value hvalue =>
          rcases Option.map_eq_some_iff.mp h with ⟨others, hothers, rfl⟩
          rcases (ih hnames.2).mp hothers with ⟨hlength, hperm⟩
          refine ⟨by rw [List.length_cons, List.length_cons, hlength], ?_⟩
          exact (perm_cons_of_lookup hvalue).trans (hperm.cons _)
        · simp only [reduceCtorEq] at h
      · rintro ⟨hlength, hperm⟩
        cases values with
        | nil => simp only [List.length_nil, List.length_cons] at hlength; omega
        | cons value others =>
            rw [List.length_cons, List.length_cons, Nat.add_right_cancel_iff] at hlength
            rw [List.zip_cons_cons] at hperm
            -- No other member has this name, so this is the one that is found.
            have hfst : ((name, value) :: names.zip others).map Prod.fst = name :: names := by
              rw [List.map_cons, List.map_fst_zip (by omega)]
            have hlookup : members.lookup name = some value := by
              rw [lookup_eq_of_perm hperm (by rw [hfst]; exact List.nodup_cons.mpr hnames),
                List.lookup_cons_self]
            have herased : (members.eraseP (·.1 == name)).Perm (names.zip others) :=
              ((perm_cons_of_lookup hlookup).symm.trans hperm).cons_inv
            rw [hlookup]
            simp only [(ih hnames.2).mpr ⟨hlength, herased⟩, Option.map_some]

variable {v : Json} {names : List String} {values : List Json}

theorem fields?_eq_some_iff (hnames : names.Nodup) : v.fields? names = some values ↔
    ∃ members, v = .obj members ∧ values.length = names.length ∧
      members.Perm (names.zip values) := by
  cases v with
  | obj members =>
      rw [fields?, fieldsIn?_eq_some_iff hnames]
      simp only [obj.injEq, exists_eq_left']
  | null | bool | num | str | arr => simp only [fields?, reduceCtorEq, false_and, exists_false]

/-- An object has one set of names. -/
theorem perm_of_fields? (hnames : names.Nodup) (h : v.fields? names = some values)
    {names' : List String} (hnames' : names'.Nodup) {values' : List Json}
    (h' : v.fields? names' = some values') : names.Perm names' := by
  rcases (fields?_eq_some_iff hnames).mp h with ⟨members, rfl, hlength, hperm⟩
  rcases (fields?_eq_some_iff hnames').mp h' with ⟨_, hv, hlength', hperm'⟩
  rw [obj.injEq] at hv
  rw [← hv] at hperm'
  have hfst := (hperm.symm.trans hperm').map Prod.fst
  rwa [List.map_fst_zip (by omega), List.map_fst_zip (by omega)] at hfst

/-- An object has no other set of names. -/
theorem fields?_eq_none (hnames : names.Nodup) (h : v.fields? names = some values)
    {names' : List String} (hnames' : names'.Nodup) (hne : ¬ names.Perm names') :
    v.fields? names' = none := by
  cases hfields : v.fields? names' with
  | none => rfl
  | some values' => exact absurd (perm_of_fields? hnames h hnames' hfields) hne

/-- What stands under a name is smaller than the object. -/
theorem sizeOf_lt_of_fields? (hnames : names.Nodup) (h : v.fields? names = some values)
    {value : Json} (hvalue : value ∈ values) : sizeOf value < sizeOf v := by
  rcases (fields?_eq_some_iff hnames).mp h with ⟨members, rfl, hlength, hperm⟩
  have hsnd : (names.zip values).map Prod.snd = values := List.map_snd_zip (by omega)
  rw [← hsnd, List.mem_map] at hvalue
  rcases hvalue with ⟨⟨name, value⟩, hmem, rfl⟩
  have hlt := List.sizeOf_lt_of_mem (hperm.mem_iff.mpr hmem)
  simp only [Prod.mk.sizeOf_spec, obj.sizeOf_spec] at hlt ⊢
  omega

theorem same_str_iff {s : String} : v.Same (.str s) ↔ v = .str s := by
  constructor
  · intro h
    cases h
    rfl
  · rintro rfl
    exact .refl _

theorem same_arr_iff {items' : List Json} :
    v.Same (.arr items') ↔ ∃ items, v = .arr items ∧ List.Forall₂ Same items items' := by
  constructor
  · intro h
    cases h with
    | refl => exact ⟨items', rfl, List.forall₂_same.mpr fun item _ => .refl item⟩
    | arr hitems => exact ⟨_, rfl, hitems⟩
  · rintro ⟨items, rfl, hitems⟩
    exact .arr hitems

/-- A value is the same as an object with these names and values when it has these names
    and no others, and values that are the same. -/
theorem same_obj_zip_iff (hnames : names.Nodup) (hlength : values.length = names.length) :
    v.Same (.obj (names.zip values)) ↔
      ∃ values', v.fields? names = some values' ∧ List.Forall₂ Same values' values := by
  have hfst : (names.zip values).map Prod.fst = names := List.map_fst_zip (by omega)
  have hsnd : (names.zip values).map Prod.snd = values := List.map_snd_zip (by omega)
  constructor
  · intro h
    cases h with
    | refl =>
        refine ⟨values, ?_, List.forall₂_same.mpr fun value _ => .refl value⟩
        exact (fields?_eq_some_iff hnames).mpr ⟨_, rfl, hlength, .refl _⟩
    | @obj members mid _ hperm hnames' hvalues =>
        rw [hfst] at hnames'
        rw [hsnd] at hvalues
        refine ⟨mid.map Prod.snd, (fields?_eq_some_iff hnames).mpr ⟨_, rfl, ?_, ?_⟩, hvalues⟩
        · rw [hvalues.length_eq, hlength]
        · have hmid : names.zip (mid.map Prod.snd) = mid := by
            rw [← hnames', List.zip_map', List.map_id']
          rwa [hmid]
  · rintro ⟨values', hfields, hvalues⟩
    rcases (fields?_eq_some_iff hnames).mp hfields with ⟨members, rfl, hlength', hperm⟩
    refine .obj hperm ?_ ?_
    · rw [hfst, List.map_fst_zip (by omega)]
    · rwa [hsnd, List.map_snd_zip (by omega)]

/-- What is the same as an object of two strings holds these strings. -/
theorem same_pair_iff {name name' s s' : String} (hnames : [name, name'].Nodup) :
    v.Same (.obj [(name, .str s), (name', .str s')]) ↔
      v.fields? [name, name'] = some [.str s, .str s'] := by
  have hpair : v.Same (.obj ([name, name'].zip [.str s, .str s'])) ↔ _ :=
    same_obj_zip_iff hnames rfl
  simp only [List.zip_cons_cons, List.zip_nil_right, List.forall₂_cons_right_iff,
    List.forall₂_nil_right_iff, same_str_iff] at hpair
  rw [hpair]
  constructor
  · rintro ⟨_, hfields, _, _, rfl, ⟨_, _, rfl, rfl, rfl⟩, rfl⟩
    exact hfields
  · intro hfields
    exact ⟨_, hfields, _, _, rfl, ⟨_, _, rfl, rfl, rfl⟩, rfl⟩

end Json

/-- A list of results is read when each of its items is, in its place. -/
theorem mapM_eq_some_iff {α β : Type} {f : α → Option β} {l : List α} {l' : List β} :
    l.mapM f = some l' ↔ List.Forall₂ (fun a b => f a = some b) l l' := by
  induction l generalizing l' with
  | nil =>
      rw [List.mapM_nil, List.forall₂_nil_left_iff]
      exact ⟨fun h => (Option.some.inj h).symm, fun h => congrArg some h.symm⟩
  | cons a l ih =>
      simp only [List.mapM_cons, Option.bind_eq_bind, Option.bind_eq_some_iff, Option.pure_def,
        Option.some.injEq, ih]
      constructor
      · rintro ⟨b, hb, bs, hbs, rfl⟩
        exact .cons hb hbs
      · intro h
        cases h with
        | cons hb hbs => exact ⟨_, hb, _, hbs, rfl⟩

/-- A list is read back item by item when its items are read from what is the same as
    their values. -/
theorem mapM_eq_some_iff_same {α : Type} {read : Json → Option α} {write : α → Json}
    (hread : ∀ v a, read v = some a ↔ v.Same (write a)) {items : List Json} {l : List α} :
    items.mapM read = some l ↔ List.Forall₂ Json.Same items (l.map write) := by
  rw [mapM_eq_some_iff, List.forall₂_map_right_iff]
  simp only [hread]

/-- The condition that a value stands for. -/
def Simple.ofJson? (v : Json) : Option Simple :=
  match v.fields? ["type", "name"], v.fields? ["type", "id"] with
  | some [.str "tag", .str name], _ => some (.tag name)
  | some [.str "class", .str name], _ => some (.cls name)
  | _, some [.str "id", .str name] => some (.id name)
  | _, _ => none

/-- The compound that a value stands for. -/
def Compound.ofJson? (v : Json) : Option Compound :=
  match v.fields? ["selectors"] with
  | some [.arr items] => (items.mapM Simple.ofJson?).map Compound.mk
  | _ => none

/-- The combinator with a short name. -/
def Combinator.ofTreeName? : String → Option Combinator
  | "descendant" => some .descendant
  | "child" => some .child
  | "adjacent" => some .adjacent
  | "sibling" => some .sibling
  | _ => none

/-- The clause that a value stands for. One with a combinator goes on under `left`. -/
def Selector.ofJson? (v : Json) : Option Selector :=
  match _hfields : v.fields? ["type", "left", "right"] with
  | some [.str name, left, right] =>
    match Combinator.ofTreeName? name, Selector.ofJson? left, Compound.ofJson? right with
    | some comb, some sel, some subject => some (sel.combine comb subject)
    | _, _, _ => none
  | _ => (Compound.ofJson? v).map Selector.ofCompound
termination_by sizeOf v
decreasing_by exact Json.sizeOf_lt_of_fields? (by decide) _hfields (by simp)

/-- The list that a value stands for. -/
def SelectorList.ofJson? : Json → Option SelectorList
  | .arr items => (items.mapM Selector.ofJson?).map SelectorList.mk
  | _ => none

section Reading

variable {v : Json}

theorem Simple.ofJson?_eq_some_iff {s : Simple} : ofJson? v = some s ↔ v.Same s.toJson := by
  constructor
  · intro h
    unfold ofJson? at h
    split at h
    · next name _ hfields =>
      obtain rfl := Option.some.inj h
      exact (Json.same_pair_iff (by decide)).mpr hfields
    · next name _ hfields =>
      obtain rfl := Option.some.inj h
      exact (Json.same_pair_iff (by decide)).mpr hfields
    · next name hfields _ _ =>
      obtain rfl := Option.some.inj h
      exact (Json.same_pair_iff (by decide)).mpr hfields
    · simp only [reduceCtorEq] at h
  · intro h
    cases s with
    | tag name =>
        have hfields := (Json.same_pair_iff (by decide)).mp h
        rw [ofJson?, hfields]
        rfl
    | id name =>
        -- The names under which a type or a class stands are others.
        have hfields := (Json.same_pair_iff (by decide)).mp h
        rw [ofJson?, hfields, Json.fields?_eq_none (by decide) hfields (by decide) (by decide)]
        rfl
    | cls name =>
        have hfields := (Json.same_pair_iff (by decide)).mp h
        rw [ofJson?, hfields]
        rfl

/-- The conditions of a compound stand under the one name that it has. -/
theorem Compound.same_toJson_iff {c : Compound} : v.Same c.toJson ↔
    ∃ items, v.fields? ["selectors"] = some [.arr items] ∧
      List.Forall₂ Json.Same items (c.parts.map Simple.toJson) := by
  have hobj : v.Same (.obj (["selectors"].zip [.arr (c.parts.map Simple.toJson)])) ↔ _ :=
    Json.same_obj_zip_iff (by decide) rfl
  simp only [List.zip_cons_cons, List.zip_nil_right, List.forall₂_cons_right_iff,
    List.forall₂_nil_right_iff, Json.same_arr_iff] at hobj
  rw [toJson, hobj]
  constructor
  · rintro ⟨_, hfields, _, _, ⟨items, rfl, hitems⟩, rfl, rfl⟩
    exact ⟨items, hfields, hitems⟩
  · rintro ⟨items, hfields, hitems⟩
    exact ⟨_, hfields, _, _, ⟨items, rfl, hitems⟩, rfl, rfl⟩

theorem Compound.ofJson?_eq_some_iff {c : Compound} : ofJson? v = some c ↔ v.Same c.toJson := by
  rw [same_toJson_iff]
  constructor
  · intro h
    unfold ofJson? at h
    split at h
    · next items hfields =>
      rcases Option.map_eq_some_iff.mp h with ⟨parts, hparts, rfl⟩
      rw [mapM_eq_some_iff_same fun _ _ => Simple.ofJson?_eq_some_iff] at hparts
      exact ⟨items, hfields, hparts⟩
    · simp only [reduceCtorEq] at h
  · rintro ⟨items, hfields, hitems⟩
    rw [ofJson?, hfields]
    simp only [(mapM_eq_some_iff_same fun _ _ => Simple.ofJson?_eq_some_iff).mpr hitems,
      Option.map_some]

theorem Combinator.ofTreeName?_eq_some_iff {name : String} {comb : Combinator} :
    ofTreeName? name = some comb ↔ name = comb.treeName := by
  constructor
  · intro h
    unfold ofTreeName? at h
    split at h
    all_goals simp only [Option.some.injEq, reduceCtorEq] at h
    all_goals rw [← h]; rfl
  · rintro rfl
    cases comb <;> rfl

/-- A link names its combinator, and its sides stand under names of their own. -/
theorem Link.same_chainToJson_cons_iff {subject : Compound} {link : Link} {links : List Link} :
    v.Same (chainToJson subject (link :: links)) ↔
      ∃ left right, v.fields? ["type", "left", "right"] =
          some [.str link.combinator.treeName, left, right] ∧
        left.Same (chainToJson link.compound links) ∧ right.Same subject.toJson := by
  have hobj : v.Same (.obj (["type", "left", "right"].zip
      [.str link.combinator.treeName, chainToJson link.compound links, subject.toJson])) ↔ _ :=
    Json.same_obj_zip_iff (by decide) rfl
  simp only [List.zip_cons_cons, List.zip_nil_right, List.forall₂_cons_right_iff,
    List.forall₂_nil_right_iff, Json.same_str_iff] at hobj
  rw [chainToJson, hobj]
  constructor
  · rintro ⟨_, hfields, _, _, rfl, ⟨left, _, hleft, ⟨right, _, hright, rfl, rfl⟩, rfl⟩, rfl⟩
    exact ⟨left, right, hfields, hleft, hright⟩
  · rintro ⟨left, right, hfields, hleft, hright⟩
    exact ⟨_, hfields, _, _, rfl, ⟨left, _, hleft, ⟨right, _, hright, rfl, rfl⟩, rfl⟩, rfl⟩

theorem Selector.ofJson?_eq_some_iff {sel : Selector} :
    ofJson? v = some sel ↔ v.Same sel.toJson := by
  rcases sel with ⟨subject, links⟩
  change _ ↔ v.Same (Link.chainToJson subject links)
  -- The far side of the nearest link is a clause of its own, read from another value.
  induction links generalizing v subject with
  | nil =>
      rw [Link.chainToJson]
      constructor
      · intro h
        unfold ofJson? at h
        split at h
        · -- A clause with a combinator has a link.
          split at h
          · simp only [combine, Option.some.injEq, Selector.mk.injEq, reduceCtorEq, and_false] at h
          · simp only [reduceCtorEq] at h
        · rcases Option.map_eq_some_iff.mp h with ⟨c, hc, heq⟩
          rw [ofCompound, Selector.mk.injEq] at heq
          rw [← heq.1]
          exact Compound.ofJson?_eq_some_iff.mp hc
      · intro h
        rcases Compound.same_toJson_iff.mp h with ⟨_, hfields, _⟩
        have hnone : v.fields? ["type", "left", "right"] = none :=
          Json.fields?_eq_none (by decide) hfields (by decide) (by decide)
        unfold ofJson?
        split
        · next hsome =>
          rw [hnone] at hsome
          simp only [reduceCtorEq] at hsome
        · rw [Compound.ofJson?_eq_some_iff.mpr h]
          rfl
  | cons link links ih =>
      rw [Link.same_chainToJson_cons_iff]
      constructor
      · intro h
        unfold ofJson? at h
        split at h
        · next name left right hfields =>
          split at h
          · next comb sel c hcomb hsel hc =>
            simp only [combine, Option.some.injEq, Selector.mk.injEq, List.cons.injEq] at h
            rcases h with ⟨rfl, rfl, rfl⟩
            rw [Combinator.ofTreeName?_eq_some_iff] at hcomb
            rw [hcomb] at hfields
            exact ⟨left, right, hfields, (ih _).mp hsel, Compound.ofJson?_eq_some_iff.mp hc⟩
          · simp only [reduceCtorEq] at h
        · rcases Option.map_eq_some_iff.mp h with ⟨c, _, heq⟩
          simp only [ofCompound, Selector.mk.injEq, reduceCtorEq, and_false] at heq
      · rintro ⟨left, right, hfields, hleft, hright⟩
        unfold ofJson?
        split
        · next name left' right' hfields' =>
          rw [hfields] at hfields'
          simp only [Option.some.injEq, List.cons.injEq, Json.str.injEq, and_true] at hfields'
          rcases hfields' with ⟨rfl, rfl, rfl⟩
          simp only [Combinator.ofTreeName?_eq_some_iff.mpr rfl, (ih _).mpr hleft,
            Compound.ofJson?_eq_some_iff.mpr hright]
          rfl
        · next hne => exact absurd hfields (hne _ _ _)

theorem SelectorList.ofJson?_eq_some_iff {list : SelectorList} :
    ofJson? v = some list ↔ v.Same list.toJson := by
  rw [toJson, Json.same_arr_iff]
  constructor
  · intro h
    unfold ofJson? at h
    split at h
    · next items =>
      rcases Option.map_eq_some_iff.mp h with ⟨clauses, hclauses, rfl⟩
      rw [mapM_eq_some_iff_same fun _ _ => Selector.ofJson?_eq_some_iff] at hclauses
      exact ⟨items, rfl, hclauses⟩
    · simp only [reduceCtorEq] at h
  · rintro ⟨items, rfl, hitems⟩
    rw [ofJson?, (mapM_eq_some_iff_same fun _ _ => Selector.ofJson?_eq_some_iff).mpr hitems]
    rfl

end Reading

/-- The value of a list determines the list. A value is read as a list exactly when it is
    the value of this list but for the order of members; so the value of a list is read as
    the list, and two lists have the same value, be it to the order of members or up to it,
    only when they are one list. -/
theorem readback_toJson :
    (∀ (v : Json) (list : SelectorList),
      SelectorList.ofJson? v = some list ↔ v.Same list.toJson) ∧
    (∀ list : SelectorList, SelectorList.ofJson? list.toJson = some list) ∧
    ∀ list list' : SelectorList,
      (list.toJson = list'.toJson ↔ list = list') ∧
      (list.toJson.Same list'.toJson ↔ list = list') := by
  have hread : ∀ list : SelectorList, SelectorList.ofJson? list.toJson = some list := fun list =>
    SelectorList.ofJson?_eq_some_iff.mpr (.refl _)
  have hsame : ∀ list list' : SelectorList, list.toJson.Same list'.toJson → list = list' := by
    intro list list' h
    have hlist' := SelectorList.ofJson?_eq_some_iff.mpr h
    rw [hread, Option.some.injEq] at hlist'
    exact hlist'
  refine ⟨fun v list => SelectorList.ofJson?_eq_some_iff, hread, fun list list' => ⟨?_, ?_⟩⟩
  · exact ⟨fun h => hsame list list' (h ▸ .refl _), fun h => h ▸ rfl⟩
  · exact ⟨hsame list list', fun h => h ▸ .refl _⟩

end DomQuery
