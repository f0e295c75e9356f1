import TableParsing.Text.Blank

/-!
# Decimal integers

Reading an integer from text: white space around it is ignored, one sign may stand in front, and
a single underscore may stand between two digits. The digits may be those of any script. The number
of digits is limited, zeros in front included.
-/

namespace TableParsing.Text

/-- The white space that may stand around an integer: all but the separators U+001C to U+001F. -/
def isPadding (c : Char) : Bool := isBlank c && !(0x1C ≤ c.toNat && c.toNat ≤ 0x1F)

/-- The code points of the zeros of all scripts. The other nine digits follow each of them. -/
def zeros : List Nat :=
  [0x30, 0x660, 0x6F0, 0x7C0, 0x966, 0x9E6, 0xA66, 0xAE6, 0xB66, 0xBE6, 0xC66, 0xCE6, 0xD66, 0xDE6,
   0xE50, 0xED0, 0xF20, 0x1040, 0x1090, 0x17E0, 0x1810, 0x1946, 0x19D0, 0x1A80, 0x1A90, 0x1B50,
   0x1BB0, 0x1C40, 0x1C50, 0xA620, 0xA8D0, 0xA900, 0xA9D0, 0xA9F0, 0xAA50, 0xABF0, 0xFF10, 0x104A0,
   0x10D30, 0x11066, 0x110F0, 0x11136, 0x111D0, 0x112F0, 0x11450, 0x114D0, 0x11650, 0x116C0,
   0x11730, 0x118E0, 0x11950, 0x11C50, 0x11D50, 0x11DA0, 0x16A60, 0x16AC0, 0x16B50, 0x1D7CE,
   0x1D7D8, 0x1D7E2, 0x1D7EC, 0x1D7F6, 0x1E140, 0x1E2F0, 0x1E950, 0x1FBF0]

/-- The value of a decimal digit. -/
def digitValue? (c : Char) : Option Nat :=
  (zeros.find? fun first => first ≤ c.toNat && c.toNat < first + 10).map fun first =>
    c.toNat - first

/-- The most digits that an integer may be written with. -/
def digitLimit : Nat := 4300

/-- What is wrong with the text of an integer. -/
inductive IntegerFault where
  /-- It is not the text of an integer. -/
  | malformed
  /-- It has more digits than are read. -/
  | tooLong (digits : Nat)
deriving DecidableEq, Repr

/-- A run of digits that has been read: its value and length, and the characters after it. -/
structure DigitRun where
  value : Nat
  length : Nat
  rest : List Char

/-- Reads on after some digits with a given value and length. -/
def moreDigits (value length : Nat) : List Char → DigitRun
  | [] => ⟨value, length, []⟩
  | '_' :: c :: cs =>
    match digitValue? c with
    | some d => moreDigits (10 * value + d) (length + 1) cs
    | none => ⟨value, length, '_' :: c :: cs⟩
  | c :: cs =>
    match digitValue? c with
    | some d => moreDigits (10 * value + d) (length + 1) cs
    | none => ⟨value, length, c :: cs⟩

/-- Reads a number without a sign. The length of its digits is judged before what follows them. -/
def natural : List Char → Except IntegerFault Nat
  | [] => .error .malformed
  | c :: cs =>
    match digitValue? c with
    | none => .error .malformed
    | some d =>
      let run := moreDigits d 1 cs
      if run.rest.head? = some '_' then .error .malformed
      else if digitLimit < run.length then .error (.tooLong run.length)
      else if run.rest.all isPadding then .ok run.value
      else .error .malformed

/-- Reads an integer. -/
def integer (s : String) : Except IntegerFault Int :=
  match s.toList.dropWhile isPadding with
  | '-' :: cs => (natural cs).map fun n => -(n : Int)
  | '+' :: cs => (natural cs).map fun n => (n : Int)
  | cs => (natural cs).map fun n => (n : Int)

end TableParsing.Text
