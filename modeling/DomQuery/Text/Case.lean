/-!
# Letter Case

Comparing texts without regard to the case of the letters from A to Z. Letters
outside ASCII are compared as they stand: none of them is folded, and none
folds onto a letter of ASCII.

## Main definitions

* `sameButCase`: The comparison.

## Theorems

* `sameButCase_iff`: The comparison is that of the folded texts.
-/

namespace DomQuery

namespace Text

/-- Whether two texts are the same but for the case of ASCII letters. Texts that
    are the same as they stand need no folding. -/
def sameButCase (a b : String) : Bool :=
  a == b || a.toList.map Char.toLower == b.toList.map Char.toLower

/-- The comparison is that of the folded texts. -/
theorem sameButCase_iff {a b : String} :
    sameButCase a b = true ↔ a.toList.map Char.toLower = b.toList.map Char.toLower := by
  rw [sameButCase, Bool.or_eq_true, beq_iff_eq, beq_iff_eq]
  exact ⟨fun h => h.elim (fun heq => heq ▸ rfl) id, .inr⟩

end Text

end DomQuery
