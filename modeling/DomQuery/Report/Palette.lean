/-!
# Colors

How parts of a report are set off on a terminal that can show it.

A palette is either plain, and then every part is written as it is, or colored,
and then a part is written between two control sequences, one that sets a style
and one that resets it. The sequences differ from part to part and nothing else
does, so a colored report is the plain one with sequences in it.

## Main definitions

* `Palette`: Plain or colored.
* `Palette.tag`, `Palette.attr`, `Palette.muted`, `Palette.error`: The parts
  that are set off.
-/

namespace DomQuery

/-- How the parts of a report are written. -/
structure Palette where
  colored : Bool
  deriving DecidableEq, Repr

namespace Palette

/-- Parts as they are. -/
def plain : Palette := ⟨false⟩

/-- The control sequence with a code. -/
def sequence (code : List Char) : List Char := '\x1b' :: '[' :: code ++ ['m']

/-- A part between two control sequences. -/
def between (p : Palette) (set reset : List Char) (part : List Char) : List Char :=
  if p.colored then sequence set ++ part ++ sequence reset else part

/-- The type name of an element, in cyan. -/
def tag (p : Palette) : List Char → List Char := p.between ['3', '6'] ['3', '9']

/-- The id, a class or the name of an attribute, in yellow. -/
def attr (p : Palette) : List Char → List Char := p.between ['3', '3'] ['3', '9']

/-- What is no element, dimmed. -/
def muted (p : Palette) : List Char → List Char := p.between ['2'] ['0']

/-- What is wrong, in bold red. -/
def error (p : Palette) (part : List Char) : List Char :=
  p.between ['1'] ['0'] (p.between ['3', '1'] ['3', '9'] part)

@[simp] theorem tag_plain (part : List Char) : plain.tag part = part := rfl

@[simp] theorem attr_plain (part : List Char) : plain.attr part = part := rfl

@[simp] theorem muted_plain (part : List Char) : plain.muted part = part := rfl

@[simp] theorem error_plain (part : List Char) : plain.error part = part := rfl

end Palette

end DomQuery
