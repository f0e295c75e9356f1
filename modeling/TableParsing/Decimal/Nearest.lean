import TableParsing.Decimal.Basic

/-!
# Binary numbers and the decimals that denote them

A number with a fraction is held with 53 binary digits. `Decimal.nearest?` finds the binary number
that is nearest to a decimal, if the decimal is not out of range. Many decimals denote the same
binary number; `Binary.shortest` chooses one with the fewest digits, and of those the nearest.

The choice is a search over decimal grids, from the coarsest on. Of all points of a grid the two
neighbours of the number are the only candidates: if a point denotes the number, then so does the
neighbour on its side. A candidate is taken if it reads back to the number, which is the
definition of what it denotes and needs no second test. Seventeen digits are always enough.
-/

namespace TableParsing

/-- The number `mantissa · 2 ^ exponent`. -/
structure Binary where
  mantissa : Nat
  exponent : Int
deriving DecidableEq, Repr

namespace Binary

/-- The number of binary digits of a mantissa. -/
def precision : Nat := 53

/-- The least exponent. Numbers with this exponent may have shorter mantissas. -/
def leastExponent : Int := -1074

/-- The greatest exponent. -/
def greatestExponent : Int := 971

/-- A quotient of natural numbers, rounded to the nearest natural number; of two that are equally
near the even one is taken. -/
def roundedQuotient (n d : Nat) : Nat :=
  let whole := n / d
  let twice := 2 * (n % d)
  if twice < d || (twice = d && whole % 2 = 0) then whole else whole + 1

/-- The place of the first binary digit of a quotient of positive numbers: the greatest `k` for
which `2 ^ k` is not above it. -/
def leadingPlace (n d : Nat) : Int :=
  let k : Int := (Nat.log2 n : Int) - Nat.log2 d
  if d * Nat.pow 2 k.toNat ≤ n * Nat.pow 2 (-k).toNat then k else k - 1

/-- The binary number that is nearest to a quotient of positive numbers, unless the quotient is
out of range. -/
def ofQuotient? (n d : Nat) : Option Binary :=
  let exponent := max (leadingPlace n d - (precision - 1 : Nat)) leastExponent
  let mantissa :=
    roundedQuotient (n * Nat.pow 2 (-exponent).toNat) (d * Nat.pow 2 exponent.toNat)
  let rounded : Binary :=
    if mantissa < Nat.pow 2 precision then ⟨mantissa, exponent⟩
    else ⟨Nat.pow 2 (precision - 1), exponent + 1⟩
  if rounded.exponent ≤ greatestExponent then some rounded else none

/-- The number as a quotient of two natural numbers, the second of which is not zero. -/
def quotient (x : Binary) : Nat × Nat :=
  (x.mantissa * Nat.pow 2 x.exponent.toNat, Nat.pow 2 (-x.exponent).toNat)

end Binary

namespace Decimal

/-- From this number of digits before the point on, a decimal is out of range. -/
def greatestPlace : Int := 310

/-- A decimal whose first digit is this many places behind the point is as good as zero. -/
def leastPlace : Int := -330

/-- The binary number that is nearest to a decimal, unless the decimal is out of range. -/
def nearest? (d : Decimal) : Option Binary :=
  let place := (digitCount d.digits : Int) + d.exponent
  if d.digits = 0 || place < leastPlace then some ⟨0, Binary.leastExponent⟩
  else if place > greatestPlace then none
  else Binary.ofQuotient? d.quotient.1 d.quotient.2

end Decimal

namespace Binary

/-- The number of digits before the point of a positive number, or, if it is below one, minus the
number of zeros between the point and its first other digit. -/
def pointPlace (x : Binary) : Int :=
  let n := x.quotient.1
  let d := x.quotient.2
  if d ≤ n then Decimal.digitCount (n / d) else 1 - (Decimal.digitCount (d / n) : Int)

/-- The two neighbours of a positive number on the grid of the decimals with a given exponent, the
nearer one first; of two that are equally near the even one comes first. -/
def neighbours (x : Binary) (exponent : Int) : List Decimal :=
  let n := x.quotient.1 * Nat.pow 10 (-exponent).toNat
  let d := x.quotient.2 * Nat.pow 10 exponent.toNat
  let below := n / d
  if roundedQuotient n d = below then [⟨below, exponent⟩, ⟨below + 1, exponent⟩]
  else [⟨below + 1, exponent⟩, ⟨below, exponent⟩]

/-- The most digits that are needed to denote a number. -/
def mostDigits : Nat := 17

/-- The exact decimal of a number. -/
def exact (x : Binary) : Decimal :=
  ⟨x.quotient.1 * Nat.pow 5 (-x.exponent).toNat, -((-x.exponent).toNat : Int)⟩

/-- A decimal with the fewest digits of all that denote the number, and of those the nearest. -/
def shortest (x : Binary) : Decimal :=
  if x.mantissa = 0 then ⟨0, 0⟩
  else
    let place := x.pointPlace
    let found := (List.range mostDigits).findSome? fun more =>
      (x.neighbours (place - (more + 1 : Nat))).find? fun d => d.nearest? = some x
    (found.getD x.exact).trimmed

end Binary

end TableParsing
