/-!
# White Space of Unicode

The characters with the property `White_Space`. A caret line is drawn under a
selector on a single line, so every character of the selector that would move
the cursor in some other way than by one column, or leave a hole of unknown
width, is shown as a plain space; the property is what decides.

The property is a fixed table of twenty-five code points, written here as the
ranges they form.

## Main definitions

* `blankRanges`: The table, as pairs of first and last code point.
* `isBlank`: Membership in the table.
-/

namespace DomQuery

namespace Text

/-- The ranges of code points with the property `White_Space`, both ends
    included, in increasing order. -/
def blankRanges : List (Nat × Nat) :=
  [(0x09, 0x0d), (0x20, 0x20), (0x85, 0x85), (0xa0, 0xa0), (0x1680, 0x1680),
    (0x2000, 0x200a), (0x2028, 0x2029), (0x202f, 0x202f), (0x205f, 0x205f),
    (0x3000, 0x3000)]

/-- Whether a character is white space in the sense of Unicode. -/
def isBlank (c : Char) : Bool :=
  blankRanges.any fun (first, last) => first ≤ c.toNat && c.toNat ≤ last

/-- The table holds twenty-five code points. -/
example : (blankRanges.map fun (first, last) => last + 1 - first).sum = 25 := by decide

end Text

end DomQuery
