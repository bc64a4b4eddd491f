/-!
# Spacing

The five characters that separate: space, tab, line feed, carriage return and
form feed. Selectors skip them and class attributes are cut at them, so both
read the set from here and cannot drift apart.

The set is narrower than what Unicode calls white space. A vertical tab or a
no-break space separates nothing: in a selector it is a character like any
other, and in a class attribute it is part of the token around it. The wider
set has its own table in `Text.Blank`.

## Main definitions

* `isSpace`: One of the five separating characters.
* `skipSpace`: A text without its leading spacing.
* `tokens`: The maximal runs of characters that are not spacing.
-/

namespace DomQuery

namespace Text

/-- The five separating characters: space, tab, line feed, carriage return and
    form feed. -/
def isSpace (c : Char) : Bool :=
  c == ' ' || c == '\t' || c == '\n' || c == '\r' || c == '\x0c'

/-- What is left of a text once the spacing in front of it is gone. -/
def skipSpace (cs : List Char) : List Char := cs.dropWhile isSpace

/-- The maximal runs of characters that are not spacing, in their order. A cut
    at every spacing character leaves an empty piece between two neighbours
    and at a spaced end; those are dropped. -/
def tokens (cs : List Char) : List (List Char) :=
  (cs.splitOnP isSpace).filter (!·.isEmpty)

/-- Skipping spacing never makes a text longer. -/
theorem length_skipSpace_le (cs : List Char) : (skipSpace cs).length ≤ cs.length :=
  (List.dropWhile_sublist isSpace).length_le

end Text

end DomQuery
