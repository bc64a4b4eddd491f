import DomQuery.Json.Numeral

/-!
# JSON Values

The values that a JSON text stands for.

An object is a list of members in the order of the text, repeated names
included. Whether a repeated name is an error, and which of two values wins, is
for the reader of a particular format to say; here nothing is lost that such a
reader might need.

A number is kept as its digits, as `Json.Numeral` reads them.

## Main definitions

* `Json`: The values.
-/

namespace DomQuery

/-- A JSON value. -/
inductive Json where
  | null
  | bool (value : Bool)
  | num (value : Json.Numeral)
  | str (value : String)
  | arr (items : List Json)
  /-- The members in their order; a name may occur more than once. -/
  | obj (members : List (String × Json))
  deriving Repr

end DomQuery
