/-!
# Decimals

Digits times a power of ten. The same number has many decimals, `1 · 10 ^ 2` and `10 · 10 ^ 1`
for instance; `trimmed` chooses the one without zeros at the end of its digits.
-/

namespace TableParsing

/-- The number `digits · 10 ^ exponent`. -/
structure Decimal where
  digits : Nat
  exponent : Int
deriving DecidableEq, Repr

namespace Decimal

/-- The number as a quotient of two natural numbers, the second of which is not zero. -/
def quotient (d : Decimal) : Nat × Nat :=
  (d.digits * Nat.pow 10 d.exponent.toNat, Nat.pow 10 (-d.exponent).toNat)

/-- The number without its fraction. -/
def wholePart (d : Decimal) : Nat := d.quotient.1 / d.quotient.2

/-- Moves zeros from the end of the digits into the exponent; `bound` limits their number. -/
def trimZeros : (bound : Nat) → Decimal → Decimal
  | 0, d => d
  | bound + 1, d =>
    if d.digits % 10 = 0 then trimZeros bound ⟨d.digits / 10, d.exponent + 1⟩ else d

/-- The decimal of the same number without zeros at the end of its digits. -/
def trimmed (d : Decimal) : Decimal := trimZeros d.digits d

/-- How many digits a natural number has. -/
def digitCount (n : Nat) : Nat := (Nat.toDigits 10 n).length

end Decimal

end TableParsing
