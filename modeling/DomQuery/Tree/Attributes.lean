/-!
# Attributes

The attributes of an element: a value for each of finitely many names.

They are kept in the order in which the names were first set, no name twice,
and setting a name again replaces its value where it stands. The order carries
no meaning. Whoever writes attributes out asks for them `sorted`, which depends
on names and values alone, and whoever looks for one asks by name.

## Main definitions

* `Attributes`: Pairs of name and value, the names pairwise different.
* `Attributes.set`, `Attributes.get?`: Writing and reading by name.
* `Attributes.ofList`: Attributes from a list of settings, the last of a name
  winning.
* `Attributes.sorted`: The pairs in increasing order of names.
-/

namespace DomQuery

/-- Attribute names with their values, no name twice. -/
structure Attributes where
  pairs : List (String × String)
  nodup_names : (pairs.map Prod.fst).Nodup := by decide
  deriving DecidableEq

namespace Attributes

/-- No attributes. -/
def empty : Attributes := ⟨[], List.nodup_nil⟩

instance : Inhabited Attributes := ⟨empty⟩

/-- Pairs in which one name has a new value. A name that is there keeps its
    place; one that is not comes last. -/
def setIn (name value : String) : List (String × String) → List (String × String)
  | [] => [(name, value)]
  | (name', value') :: pairs =>
    if name' = name then (name, value) :: pairs else (name', value') :: setIn name value pairs

/-- Setting a name adds no name but that one. -/
theorem mem_names_setIn {name name' value : String} {pairs : List (String × String)}
    (h : name' ∈ (setIn name value pairs).map Prod.fst) :
    name' = name ∨ name' ∈ pairs.map Prod.fst := by
  induction pairs with
  | nil => exact .inl (List.mem_singleton.mp h)
  | cons pair pairs ih =>
      rw [setIn] at h
      split at h
      · rw [List.map_cons, List.mem_cons] at h
        exact h.imp_right (List.mem_cons_of_mem _)
      · rw [List.map_cons, List.mem_cons] at h
        rw [List.map_cons, List.mem_cons]
        rcases h with h | h
        · exact .inr (.inl h)
        · exact (ih h).imp_right .inr

/-- Setting a name keeps the names pairwise different. -/
theorem nodup_names_setIn {name value : String} {pairs : List (String × String)}
    (h : (pairs.map Prod.fst).Nodup) : ((setIn name value pairs).map Prod.fst).Nodup := by
  induction pairs with
  | nil => exact List.pairwise_singleton _ _
  | cons pair pairs ih =>
      rw [List.map_cons, List.nodup_cons] at h
      rw [setIn]
      split
      · next heq =>
        rw [List.map_cons, List.nodup_cons]
        exact ⟨heq ▸ h.1, h.2⟩
      · next hne =>
        rw [List.map_cons, List.nodup_cons]
        refine ⟨fun hmem => ?_, ih h.2⟩
        rcases mem_names_setIn hmem with heq | hmem
        · exact hne heq
        · exact h.1 hmem

/-- The attributes with a new value for one name. -/
def set (a : Attributes) (name value : String) : Attributes :=
  ⟨setIn name value a.pairs, nodup_names_setIn a.nodup_names⟩

/-- The value of a name. -/
def get? (a : Attributes) (name : String) : Option String := a.pairs.lookup name

/-- The attributes after a list of settings, in their order. -/
def ofList (settings : List (String × String)) : Attributes :=
  settings.foldl (fun a setting => a.set setting.1 setting.2) empty

/-- The pairs in increasing order of names. Names are compared by code points,
    which is how their UTF-8 forms compare byte by byte. -/
def sorted (a : Attributes) : List (String × String) :=
  a.pairs.mergeSort fun p q => decide (p.1 ≤ q.1)

end Attributes

end DomQuery
