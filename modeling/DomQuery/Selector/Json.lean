import DomQuery.Json.Basic
import DomQuery.Selector.Basic

/-!
# Selectors as JSON

The expression tree of a selector list as a JSON value.

A compound is an object with its conditions under `selectors`, a clause with a
combinator an object that names the combinator under `type` and holds what is
on either side under `left` and `right`; a clause without combinators is its
compound. So the shape alone tells which of the two is meant. A condition names
its kind under `type` and holds its name, under `id` for an id and under `name`
otherwise.

## Main definitions

* `Simple.toJson`, `Compound.toJson`, `Selector.toJson`, `SelectorList.toJson`:
  The value of each part.
-/

namespace DomQuery

/-- A condition, with its kind. -/
def Simple.toJson : Simple → Json
  | tag name => .obj [("type", .str "tag"), ("name", .str name)]
  | id name => .obj [("type", .str "id"), ("id", .str name)]
  | cls name => .obj [("type", .str "class"), ("name", .str name)]

/-- A compound, with its conditions in their order. -/
def Compound.toJson (c : Compound) : Json :=
  .obj [("selectors", .arr (c.parts.map Simple.toJson))]

/-- The short name of a combinator, as the tree shows it. -/
def Combinator.treeName : Combinator → String
  | descendant => "descendant"
  | child => "child"
  | adjacent => "adjacent"
  | sibling => "sibling"

/-- A chain given by its subject and its links. -/
def Link.chainToJson (subject : Compound) : List Link → Json
  | [] => subject.toJson
  | ⟨comb, far⟩ :: links =>
    .obj [("type", .str comb.treeName), ("left", chainToJson far links),
      ("right", subject.toJson)]

/-- A clause, nested to the left. -/
def Selector.toJson (sel : Selector) : Json := Link.chainToJson sel.subject sel.links

/-- The clauses of a list in their order. -/
def SelectorList.toJson (list : SelectorList) : Json := .arr (list.clauses.map Selector.toJson)

end DomQuery
