import DomQuery.Json.Basic

/-!
# Reading JSON

From a text to the value at its front.

The format is read strictly: four characters of spacing, no leading zeros, no
comma behind the last item, no bare control character in a string, and no half
of a surrogate pair. What is open at one time is limited to `maxOpen` brackets.

Values nest, and the reader holds the open arrays and objects as a list of
frames rather than in its own recursion, so that the depth of a text is the
length of a list. Reading goes in steps. A step reads one scalar, one empty
array or object, or one opening bracket; a finished value is then put into the
innermost frame, and as long as a closing bracket follows, the frame becomes a
finished value itself. The step ends where the next value has to start, or with
the whole value in hand. Every step takes some of the text, and that is why the
run of steps ends.

## Main definitions

* `Frame`: An array or object that is still open.
* `fill`: What a finished value leads to.
* `begin?`: One step.
* `Json.scan?`: The value at the front of a text, with the text behind it.
-/

namespace DomQuery

namespace Json

/-- The largest number of brackets that can be open at one time. -/
def maxOpen : Nat := 127

/-- The spacing of the format. -/
def isJsonSpace (c : Char) : Bool := c == ' ' || c == '\n' || c == '\t' || c == '\r'

/-- A text without the spacing in front of it. -/
def skipJsonSpace (cs : List Char) : List Char := cs.dropWhile isJsonSpace

/-- The value of a digit of base sixteen. -/
def hexValue? (c : Char) : Option Nat :=
  if c.isDigit then some (c.toNat - '0'.toNat)
  else if 'a' ≤ c ∧ c ≤ 'f' then some (c.toNat - 'a'.toNat + 10)
  else if 'A' ≤ c ∧ c ≤ 'F' then some (c.toNat - 'A'.toNat + 10)
  else none

/-- The unit of sixteen bits that four digits stand for, and the text behind
    them. -/
def scanUnit? : List Char → Option (Nat × List Char)
  | a :: b :: c :: d :: cs => do
    let a ← hexValue? a
    let b ← hexValue? b
    let c ← hexValue? c
    let d ← hexValue? d
    some (((a * 16 + b) * 16 + c) * 16 + d, cs)
  | _ => none

/-- The character written as one unit or as a pair of surrogates, from behind
    the `u` of its escape on. -/
def scanCodePoint? (cs : List Char) : Option (Char × List Char) :=
  match scanUnit? cs with
  | none => none
  | some (unit, rest) =>
    if unit < 0xd800 ∨ 0xdfff < unit then some (Char.ofNat unit, rest)
    else if 0xdbff < unit then none
    else
      match rest with
      | '\\' :: 'u' :: rest =>
        match scanUnit? rest with
        | some (low, rest) =>
          if 0xdc00 ≤ low ∧ low ≤ 0xdfff then
            some (Char.ofNat (0x10000 + (unit - 0xd800) * 0x400 + (low - 0xdc00)), rest)
          else none
        | none => none
      | _ => none

/-- The character that an escape stands for, from behind its backslash on. -/
def scanEscape? : List Char → Option (Char × List Char)
  | '"' :: cs => some ('"', cs)
  | '\\' :: cs => some ('\\', cs)
  | '/' :: cs => some ('/', cs)
  | 'b' :: cs => some ('\x08', cs)
  | 'f' :: cs => some ('\x0c', cs)
  | 'n' :: cs => some ('\n', cs)
  | 'r' :: cs => some ('\r', cs)
  | 't' :: cs => some ('\t', cs)
  | 'u' :: cs => scanCodePoint? cs
  | _ => none

theorem length_scanUnit?_lt {cs rest : List Char} {unit : Nat}
    (h : scanUnit? cs = some (unit, rest)) : rest.length < cs.length := by
  unfold scanUnit? at h
  split at h
  · simp only [Option.bind_eq_bind, Option.bind_eq_some_iff, Option.some.injEq, Prod.mk.injEq] at h
    obtain ⟨_, _, _, _, _, _, _, _, _, rfl⟩ := h
    simp only [List.length_cons]
    omega
  · cases h

theorem length_scanCodePoint?_lt {cs rest : List Char} {c : Char}
    (h : scanCodePoint? cs = some (c, rest)) : rest.length < cs.length := by
  unfold scanCodePoint? at h
  split at h
  · cases h
  · next unit back hunit =>
    have hlt := length_scanUnit?_lt hunit
    split at h
    · cases h
      exact hlt
    · split at h
      · cases h
      · split at h
        · next behind =>
          split at h
          · next low back' hlow =>
            have hlt' := length_scanUnit?_lt hlow
            split at h
            · simp only [Option.some.injEq, Prod.mk.injEq] at h
              simp only [List.length_cons] at hlt
              rw [← h.2]
              omega
            · cases h
          · cases h
        · cases h

theorem length_scanEscape?_lt {cs rest : List Char} {c : Char}
    (h : scanEscape? cs = some (c, rest)) : rest.length < cs.length := by
  unfold scanEscape? at h
  split at h
  case h_9 => exact Nat.lt_succ_of_lt (length_scanCodePoint?_lt h)
  case h_10 => cases h
  all_goals
    cases h
    exact Nat.lt_succ_self _

/-- The string at the front of a text, from behind its opening quote on. The
    characters already read come in reverse. -/
def scanString? (read : List Char) : List Char → Option (String × List Char)
  | [] => none
  | c :: cs =>
    if c = '"' then some (String.ofList read.reverse, cs)
    else if c = '\\' then
      match _hescape : scanEscape? cs with
      | none => none
      | some (e, rest) => scanString? (e :: read) rest
    else if c.toNat < 0x20 then none
    else scanString? (c :: read) cs
termination_by cs => cs.length
decreasing_by
  · exact Nat.lt_succ_of_lt (length_scanEscape?_lt _hescape)
  · exact Nat.lt_succ_self _

/-- The name of a member and the colon behind it, spacing around both, and the
    text where the value has to start. -/
def scanName? (cs : List Char) : Option (String × List Char) :=
  match skipJsonSpace cs with
  | '"' :: cs =>
    match scanString? [] cs with
    | some (name, rest) =>
      match skipJsonSpace rest with
      | ':' :: rest => some (name, rest)
      | _ => none
    | none => none
  | _ => none

/-- An array or object that is still open, with what it holds so far in
    reverse. In an object the last name still waits for its value. -/
inductive Frame where
  | array (items : List Json)
  | object (members : List (String × Json)) (name : String)
  deriving Repr

/-- Where a step ends: with the whole value and the text behind it, or where the
    next value has to start, inside the open frames. -/
inductive Progress where
  | done (value : Json) (rest : List Char)
  | next (frames : List Frame) (rest : List Char)
  deriving Repr

/-- The text left at the end of a step. -/
def Progress.rest : Progress → List Char
  | done _ rest => rest
  | next _ rest => rest

/-- What a finished value leads to: it is put into the innermost frame, and
    frames are closed as far as the text closes them. -/
def fill? : List Frame → Json → List Char → Option Progress
  | [], value, cs => some (.done value cs)
  | .array items :: frames, value, cs =>
    match skipJsonSpace cs with
    | ',' :: cs => some (.next (.array (value :: items) :: frames) cs)
    | ']' :: cs => fill? frames (.arr (value :: items).reverse) cs
    | _ => none
  | .object members name :: frames, value, cs =>
    match skipJsonSpace cs with
    | ',' :: cs =>
      match scanName? cs with
      | some (name', cs) => some (.next (.object ((name, value) :: members) name' :: frames) cs)
      | none => none
    | '\x7d' :: cs => fill? frames (.obj ((name, value) :: members).reverse) cs
    | _ => none

/-- One step, at a place where a value has to start. -/
def begin? (frames : List Frame) (cs : List Char) : Option Progress :=
  match skipJsonSpace cs with
  | '[' :: cs =>
    if maxOpen ≤ frames.length then none
    else
      match skipJsonSpace cs with
      | ']' :: cs => fill? frames (.arr []) cs
      | _ => some (.next (.array [] :: frames) cs)
  | '\x7b' :: cs =>
    if maxOpen ≤ frames.length then none
    else
      match skipJsonSpace cs with
      | '\x7d' :: cs => fill? frames (.obj []) cs
      | _ =>
        match scanName? cs with
        | some (name, cs) => some (.next (.object [] name :: frames) cs)
        | none => none
  | '"' :: cs =>
    match scanString? [] cs with
    | some (value, cs) => fill? frames (.str value) cs
    | none => none
  | 'n' :: 'u' :: 'l' :: 'l' :: cs => fill? frames .null cs
  | 't' :: 'r' :: 'u' :: 'e' :: cs => fill? frames (.bool true) cs
  | 'f' :: 'a' :: 'l' :: 's' :: 'e' :: cs => fill? frames (.bool false) cs
  | cs =>
    match Numeral.scan? cs with
    | some (value, cs) => fill? frames (.num value) cs
    | none => none

theorem length_skipJsonSpace_le (cs : List Char) : (skipJsonSpace cs).length ≤ cs.length :=
  (List.dropWhile_sublist isJsonSpace).length_le

/-- A string takes its closing quote at least. -/
theorem length_scanString?_lt {read cs rest : List Char} {s : String}
    (h : scanString? read cs = some (s, rest)) : rest.length < cs.length := by
  fun_induction scanString? read cs with
  | case1 => cases h
  | case2 read cs =>
      cases h
      exact Nat.lt_succ_self _
  | case3 => cases h
  | case4 read cs e back hescape _ ih =>
      have := length_scanEscape?_lt hescape
      have := ih h
      rw [List.length_cons]
      omega
  | case5 => cases h
  | case6 read c cs _ _ _ ih =>
      have := ih h
      rw [List.length_cons]
      omega

/-- The text behind the character that skipping spacing leads to is shorter. -/
theorem length_lt_of_skipJsonSpace_eq {c : Char} {cs rest : List Char}
    (h : skipJsonSpace cs = c :: rest) : rest.length < cs.length := by
  have hle := length_skipJsonSpace_le cs
  rw [h] at hle
  exact hle

theorem length_scanName?_lt {cs rest : List Char} {name : String}
    (h : scanName? cs = some (name, rest)) : rest.length < cs.length := by
  unfold scanName? at h
  split at h
  · next cs' hquote =>
    have hlt := length_lt_of_skipJsonSpace_eq hquote
    split at h
    · next name' behind hname =>
      have hlt' := length_scanString?_lt hname
      split at h
      · next hcolon =>
        have hlt'' := length_lt_of_skipJsonSpace_eq hcolon
        cases h
        omega
      · cases h
    · cases h
  · cases h

/-- Putting a finished value in place leaves no more text than there was. -/
theorem length_fill?_le {frames : List Frame} {value : Json} {cs : List Char} {p : Progress}
    (h : fill? frames value cs = some p) : p.rest.length ≤ cs.length := by
  fun_induction fill? frames value cs with
  | case1 =>
      cases h
      exact Nat.le_refl _
  | case2 items frames value cs back hskip =>
      have := length_lt_of_skipJsonSpace_eq hskip
      cases h
      exact Nat.le_of_lt this
  | case3 items frames value cs back hskip ih =>
      have := length_lt_of_skipJsonSpace_eq hskip
      have := ih h
      omega
  | case4 => cases h
  | case5 members name frames value cs back hskip name' behind hname =>
      have := length_lt_of_skipJsonSpace_eq hskip
      have := length_scanName?_lt hname
      cases h
      simp only [Progress.rest]
      omega
  | case6 => cases h
  | case7 members name frames value cs back hskip ih =>
      have := length_lt_of_skipJsonSpace_eq hskip
      have := ih h
      omega
  | case8 => cases h

/-- A step takes some of the text. -/
theorem length_begin?_lt {frames : List Frame} {cs : List Char} {p : Progress}
    (h : begin? frames cs = some p) : p.rest.length < cs.length := by
  have hle := length_skipJsonSpace_le cs
  unfold begin? at h
  split at h
  · next back hskip =>
    rw [hskip, List.length_cons] at hle
    split at h
    · cases h
    · split at h
      · next hclose =>
        have := length_lt_of_skipJsonSpace_eq hclose
        have := length_fill?_le h
        omega
      · cases h
        exact Nat.lt_of_succ_le hle
  · next back hskip =>
    rw [hskip, List.length_cons] at hle
    split at h
    · cases h
    · split at h
      · next hclose =>
        have := length_lt_of_skipJsonSpace_eq hclose
        have := length_fill?_le h
        omega
      · split at h
        · next hname =>
          have := length_scanName?_lt hname
          cases h
          simp only [Progress.rest]
          omega
        · cases h
  · next back hskip =>
    rw [hskip, List.length_cons] at hle
    split at h
    · next hstring =>
      have := length_scanString?_lt hstring
      have := length_fill?_le h
      omega
    · cases h
  · next back hskip =>
    rw [hskip] at hle
    simp only [List.length_cons] at hle
    have := length_fill?_le h
    omega
  · next back hskip =>
    rw [hskip] at hle
    simp only [List.length_cons] at hle
    have := length_fill?_le h
    omega
  · next back hskip =>
    rw [hskip] at hle
    simp only [List.length_cons] at hle
    have := length_fill?_le h
    omega
  · split at h
    · next hnum =>
      have := Numeral.length_scan?_lt hnum
      have := length_fill?_le h
      omega
    · cases h

/-- The value at the front of a text in which these frames are open. -/
def scanIn? (frames : List Frame) (cs : List Char) : Option (Json × List Char) :=
  match _hstep : begin? frames cs with
  | none => none
  | some (.done value rest) => some (value, rest)
  | some (.next frames rest) => scanIn? frames rest
termination_by cs.length
decreasing_by exact length_begin?_lt _hstep

/-- The value at the front of a text, and the text behind it. -/
def scan? (cs : List Char) : Option (Json × List Char) := scanIn? [] cs

end Json

end DomQuery
