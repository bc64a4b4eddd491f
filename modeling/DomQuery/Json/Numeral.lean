/-!
# Numbers of JSON

Which numbers a JSON text may hold. The grammar is that of the format: an
integer without leading zeros, then perhaps a fraction, then perhaps an
exponent. On top of it a number has to be in reach of a binary floating-point
number of 64 bits, and the reach is decided by the digits as they are read.

A number is gathered into a significand of 64 bits and a power of ten. Digits go
into the significand as long as they fit. After the first that does not fit,
the digits left in the integer part raise the power, and those left in the
fraction, which weigh next to nothing, are passed over. The value is then the
product of two numbers, each rounded to 53 bits, the significand and the power;
a product that rounds past the largest finite number is out of reach. Zero
always is in reach, and a negative power never leads out.

A number that was read is kept as its digits. No format of this library holds
one, so nothing asks for its value beyond the question of reach.

## Main definitions

* `Numeral`: A number as its digits.
* `Numeral.magnitude`: Its significand and power of ten.
* `Numeral.inReach`: Whether it is finite as a number of 64 bits.
* `Numeral.chars`: Its spelling.
* `Numeral.scan?`: The numeral at the front of a text.
-/

namespace DomQuery

namespace Json

/-- A natural number rounded to 53 significant bits, a tie to the even
    neighbour. -/
def roundToDouble (n : Nat) : Nat :=
  let unit := Nat.pow 2 (n.log2 + 1 - 53)
  let low := n / unit
  let twice := 2 * (n % unit)
  if unit < twice || (twice == unit && low % 2 == 1) then (low + 1) * unit else low * unit

/-- The value of a digit. -/
def digitValue (c : Char) : Nat := c.toNat - '0'.toNat

/-- The absolute value of a number as it is gathered from its digits. -/
structure Magnitude where
  significand : Nat
  power : Int
  deriving DecidableEq, Repr

namespace Magnitude

/-- The largest significand. -/
def maxSignificand : Nat := Nat.pow 2 64 - 1

/-- The largest power of ten among the finite numbers of 64 bits. -/
def maxPower : Int := 308

/-- Half a unit above the largest finite number of 64 bits. From here on
    rounding leads out of reach. -/
def bound : Nat := Nat.pow 2 1024 - Nat.pow 2 970

/-- Whether the number of this magnitude is finite. -/
def inReach (m : Magnitude) : Bool :=
  m.significand == 0 || m.power < 0 ||
    (m.power ≤ maxPower &&
      roundToDouble m.significand * roundToDouble (Nat.pow 10 m.power.toNat) < bound)

/-- Whether one more digit fits into a significand. -/
def fits (significand : Nat) (digit : Char) : Bool :=
  significand * 10 + digitValue digit ≤ maxSignificand

/-- The digits of an integer part, gathered behind a significand. From the first
    that does not fit, each raises the power. -/
def addWhole (significand : Nat) : List Char → Magnitude
  | [] => ⟨significand, 0⟩
  | d :: ds =>
    if fits significand d then addWhole (significand * 10 + digitValue d) ds
    else ⟨significand, ds.length + 1⟩

/-- The digits of a fraction, gathered behind a magnitude. From the first that
    does not fit, none counts. -/
def addFraction (m : Magnitude) : List Char → Magnitude
  | [] => m
  | d :: ds =>
    if fits m.significand d then
      addFraction ⟨m.significand * 10 + digitValue d, m.power - 1⟩ ds
    else m

end Magnitude

/-- A number as the digits it is written with, the exponent as its value. -/
structure Numeral where
  negative : Bool
  whole : List Char
  fraction : List Char
  exponent : Int
  deriving DecidableEq, Repr

namespace Numeral

/-- The significand and power of ten that the digits amount to. -/
def magnitude (n : Numeral) : Magnitude :=
  let m := (Magnitude.addWhole 0 n.whole).addFraction n.fraction
  { m with power := m.power + n.exponent }

/-- Whether the numeral is finite as a number of 64 bits. -/
def inReach (n : Numeral) : Bool := n.magnitude.inReach

/-- The spelling of a numeral. A fraction without digits and an exponent of zero
    are left out. -/
def chars (n : Numeral) : List Char :=
  (if n.negative then ['-'] else []) ++ n.whole ++
    (if n.fraction.isEmpty then [] else '.' :: n.fraction) ++
    (if n.exponent = 0 then [] else 'e' :: (toString n.exponent).toList)

/-- The digits at the front of a text, and the text behind them. -/
def digits (cs : List Char) : List Char × List Char :=
  (cs.takeWhile Char.isDigit, cs.dropWhile Char.isDigit)

/-- The digits at the front of a text, of which there has to be one. -/
def someDigits? (cs : List Char) : Option (List Char × List Char) :=
  if (digits cs).1.isEmpty then none else some (digits cs)

/-- The sign at the front of a text, if there is one: whether it is a minus, and
    the text behind it. -/
def scanSign : List Char → Bool × List Char
  | '-' :: cs => (true, cs)
  | '+' :: cs => (false, cs)
  | cs => (false, cs)

/-- The integer part at the front of a text: a zero alone, or digits that start
    with no zero. -/
def scanWhole? : List Char → Option (List Char × List Char)
  | '0' :: cs => if cs.head?.any Char.isDigit then none else some (['0'], cs)
  | cs => someDigits? cs

/-- The fraction at the front of a text, which may be missing. -/
def scanFraction? : List Char → Option (List Char × List Char)
  | '.' :: cs => someDigits? cs
  | cs => some ([], cs)

/-- The value of an exponent from its digits. -/
def exponentValue (ds : List Char) : Nat :=
  ds.foldl (fun value d => value * 10 + digitValue d) 0

/-- The exponent at the front of a text, zero when it is missing. -/
def scanExponent? : List Char → Option (Int × List Char)
  | [] => some (0, [])
  | c :: cs =>
    if c = 'e' ∨ c = 'E' then
      (someDigits? (scanSign cs).2).map fun (ds, rest) =>
        (if (scanSign cs).1 then -(exponentValue ds : Int) else exponentValue ds, rest)
    else some (0, c :: cs)

/-- The numeral at the front of a text, and the text behind it. There is none
    when the grammar is not met or the number is out of reach. -/
def scan? (cs : List Char) : Option (Numeral × List Char) := do
  let negative := cs.head? == some '-'
  let (whole, cs) ← scanWhole? (if negative then cs.tail else cs)
  let (fraction, cs) ← scanFraction? cs
  let (exponent, cs) ← scanExponent? cs
  let numeral : Numeral := ⟨negative, whole, fraction, exponent⟩
  if numeral.inReach then some (numeral, cs) else none

theorem length_someDigits?_lt {cs ds rest : List Char}
    (h : someDigits? cs = some (ds, rest)) : rest.length < cs.length := by
  unfold someDigits? at h
  split at h
  · cases h
  · next hne =>
    cases h
    have hsplit : (cs.takeWhile Char.isDigit).length + (cs.dropWhile Char.isDigit).length
        = cs.length := by
      rw [← List.length_append, List.takeWhile_append_dropWhile]
    have hpos : 0 < (cs.takeWhile Char.isDigit).length :=
      List.length_pos_iff.mpr (fun hnil => hne (by rw [digits, hnil]; rfl))
    omega

theorem length_scanSign_le (cs : List Char) : (scanSign cs).2.length ≤ cs.length := by
  unfold scanSign
  split
  · exact Nat.le_succ _
  · exact Nat.le_succ _
  · exact Nat.le_refl _

theorem length_scanWhole?_lt {cs ds rest : List Char}
    (h : scanWhole? cs = some (ds, rest)) : rest.length < cs.length := by
  unfold scanWhole? at h
  split at h
  · split at h
    · cases h
    · cases h
      exact Nat.lt_succ_self _
  · exact length_someDigits?_lt h

theorem length_scanFraction?_le {cs ds rest : List Char}
    (h : scanFraction? cs = some (ds, rest)) : rest.length ≤ cs.length := by
  unfold scanFraction? at h
  split at h
  · exact Nat.le_succ_of_le (Nat.le_of_lt (length_someDigits?_lt h))
  · cases h
    exact Nat.le_refl _

theorem length_scanExponent?_le {cs rest : List Char} {e : Int}
    (h : scanExponent? cs = some (e, rest)) : rest.length ≤ cs.length := by
  unfold scanExponent? at h
  split at h
  · cases h
    exact Nat.le_refl _
  · next c cs =>
    split at h
    · obtain ⟨⟨ds, back⟩, hds, heq⟩ := Option.map_eq_some_iff.mp h
      have hlt := length_someDigits?_lt hds
      have hle := length_scanSign_le cs
      cases heq
      rw [List.length_cons]
      omega
    · cases h
      exact Nat.le_refl _

/-- A numeral takes some of the text. -/
theorem length_scan?_lt {cs rest : List Char} {n : Numeral}
    (h : scan? cs = some (n, rest)) : rest.length < cs.length := by
  unfold scan? at h
  simp only [Option.bind_eq_bind, Option.bind_eq_some_iff] at h
  obtain ⟨⟨whole, behindWhole⟩, hwhole, ⟨fraction, behindFraction⟩, hfraction,
    ⟨exponent, behindExponent⟩, hexponent, h⟩ := h
  have hlt := length_scanWhole?_lt hwhole
  have hle := length_scanFraction?_le hfraction
  have hle' := length_scanExponent?_le hexponent
  have hstart : (if (cs.head? == some '-') = true then cs.tail else cs).length ≤ cs.length := by
    split
    · rw [List.length_tail]
      exact Nat.sub_le _ _
    · exact Nat.le_refl _
  split at h
  · cases h
    simp only at *
    omega
  · cases h

end Numeral

end Json

end DomQuery
