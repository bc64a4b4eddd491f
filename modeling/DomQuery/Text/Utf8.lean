/-!
# Places in a Text

A place in a selector is told as a number of bytes of its UTF-8 form. This
module turns such a number back into a cut of the text.

A number of bytes need not be a place at all: it may lie past the end, or in
the middle of a character. `dropBytes?` says so by giving nothing, and every
reader of a place builds on it, so all of them agree on what the numbers mean
that are no places.

## Main definitions

* `utf8Size`: The bytes that a text takes.
* `dropBytes?`: The text from a place on.
-/

namespace DomQuery

namespace Text

/-- The number of bytes that a text takes in UTF-8. -/
def utf8Size : List Char → Nat
  | [] => 0
  | c :: cs => c.utf8Size + utf8Size cs

/-- The text from a place on, the place being told in bytes. There is none when
    the place is past the end or inside a character. -/
def dropBytes? : Nat → List Char → Option (List Char)
  | 0, cs => some cs
  | _ + 1, [] => none
  | n + 1, c :: cs =>
    if c.utf8Size ≤ n + 1 then dropBytes? (n + 1 - c.utf8Size) cs else none

@[simp] theorem utf8Size_nil : utf8Size [] = 0 := rfl

@[simp] theorem utf8Size_cons (c : Char) (cs : List Char) :
    utf8Size (c :: cs) = c.utf8Size + utf8Size cs := rfl

@[simp] theorem utf8Size_append (front back : List Char) :
    utf8Size (front ++ back) = utf8Size front + utf8Size back := by
  induction front with
  | nil => rw [utf8Size_nil, Nat.zero_add, List.nil_append]
  | cons c cs ih => rw [List.cons_append, utf8Size_cons, utf8Size_cons, ih, Nat.add_assoc]

/-- The bytes are those of the text as a string. -/
theorem utf8ByteSize_ofList (cs : List Char) : (String.ofList cs).utf8ByteSize = utf8Size cs := by
  induction cs with
  | nil => rfl
  | cons c cs ih =>
      have hcons : String.ofList (c :: cs) = String.singleton c ++ String.ofList cs := by
        rw [String.singleton_eq_ofList, ← String.ofList_append, List.singleton_append]
      rw [hcons, String.utf8ByteSize_append, String.utf8ByteSize_singleton, ih, utf8Size_cons]

theorem utf8ByteSize_eq (text : String) : text.utf8ByteSize = utf8Size text.toList := by
  rw [← utf8ByteSize_ofList, String.ofList_toList]

/-- The place behind a front part is where the back part starts. -/
theorem dropBytes?_utf8Size (front back : List Char) :
    dropBytes? (utf8Size front) (front ++ back) = some back := by
  induction front with
  | nil => rw [utf8Size_nil, List.nil_append, dropBytes?]
  | cons c cs ih =>
      have hpos : 0 < c.utf8Size := c.utf8Size_pos
      obtain ⟨n, hn⟩ : ∃ n, utf8Size (c :: cs) = n + 1 :=
        ⟨utf8Size (c :: cs) - 1, by rw [utf8Size_cons]; omega⟩
      rw [hn, List.cons_append, dropBytes?, ← hn, utf8Size_cons,
        if_pos (Nat.le_add_right _ _), Nat.add_sub_cancel_left, ih]

end Text

end DomQuery
