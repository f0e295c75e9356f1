/-!
# Halves of characters

In units of sixteen bits a character from U+10000 on is written as two halves, a high one and a
low one. A half that stands alone denotes no character. Where a text holds one all the same, a
character without a use of its own carries it (`carrier`), one of the range from U+DF800 on, which
is not assigned. So nothing of the text is lost: `carried?` finds the half again, which is what
`carried?_carrier` says.
-/

namespace TableParsing.Text

/-- Whether a unit is the first half of a character. -/
def isHigh (unit : Nat) : Bool := 0xD800 ≤ unit && unit < 0xDC00

/-- Whether a unit is the second half of a character. -/
def isLow (unit : Nat) : Bool := 0xDC00 ≤ unit && unit < 0xE000

/-- The character of two halves. -/
def join (high low : Nat) : Char :=
  Char.ofNat (0x10000 + (high - 0xD800) * 0x400 + (low - 0xDC00))

/-- The first of the characters that carry halves. -/
def firstCarrier : Nat := 0xDF800

/-- The character that carries a half which stands alone. -/
def carrier (half : Nat) : Char := Char.ofNat (firstCarrier + (half - 0xD800))

/-- The half that a character carries. -/
def carried? (c : Char) : Option Nat :=
  if firstCarrier ≤ c.toNat && c.toNat < firstCarrier + 0x800 then
    some (c.toNat - firstCarrier + 0xD800)
  else none

/-- The character of a code point, or the carrier of a half. -/
def ofCodePoint (n : Nat) : Char := if isHigh n || isLow n then carrier n else Char.ofNat n

/-- The text of a list of units. -/
def ofUnits : List Nat → List Char
  | [] => []
  | [unit] => [ofCodePoint unit]
  | unit :: next :: rest =>
    if isHigh unit && isLow next then join unit next :: ofUnits rest
    else ofCodePoint unit :: ofUnits (next :: rest)

/-- The carrier of a half carries that half. -/
theorem carried?_carrier {half : Nat} (h : (isHigh half || isLow half) = true) :
    carried? (carrier half) = some half := by
  simp only [isHigh, isLow, Bool.or_eq_true, Bool.and_eq_true, decide_eq_true_eq] at h
  have hvalid : (firstCarrier + (half - 0xD800)).isValidChar := by
    simp only [Nat.isValidChar, firstCarrier]
    omega
  have hcode : (carrier half).toNat = firstCarrier + (half - 0xD800) := by
    rw [carrier, Char.ofNat, dif_pos hvalid]
    rfl
  have hrange : (firstCarrier ≤ (carrier half).toNat &&
      (carrier half).toNat < firstCarrier + 0x800) = true := by
    simp only [hcode, Bool.and_eq_true, decide_eq_true_eq]
    omega
  rw [carried?, if_pos hrange, hcode, Option.some.injEq]
  omega

end TableParsing.Text
