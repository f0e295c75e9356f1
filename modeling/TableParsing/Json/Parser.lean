import TableParsing.Json
import TableParsing.Text.Half
import TableParsing.Text.Hexadecimal
import TableParsing.Text.Integer

/-!
# Reading JSON

`Json.parse?` reads one value that fills the whole text, white space around it aside. Beyond the
standard it takes the words `NaN`, `Infinity` and `-Infinity` for numbers. Of two fields with one
name the later gives the value and the earlier the place.

Every reader takes the characters that are left and gives back those it did not use. The readers
of nested values recurse on a bound, which goes down by at most two for each character used, so
twice the length of the text is bound enough.
-/

namespace TableParsing.Json

/-- What a reader gives back: a value and the characters after it. -/
abbrev Reading (α : Type) := Option (α × List Char)

/-- Skips the white space that JSON allows between tokens. -/
def skipSpace (cs : List Char) : List Char :=
  cs.dropWhile fun c => c = ' ' || c = '\t' || c = '\n' || c = '\r'

/-- Removes an expected word from the front. -/
def expect (word : List Char) (cs : List Char) : Option (List Char) :=
  if word.isPrefixOf cs then some (cs.drop word.length) else none

/-! ## Numbers -/

/-- The value of a run of decimal digits. -/
def digitsValue (cs : List Char) : Nat :=
  cs.foldl (fun n c => 10 * n + (c.toNat - '0'.toNat)) 0

/-- Splits the digits off the front. -/
def spanDigits (cs : List Char) : List Char × List Char :=
  (cs.takeWhile Char.isDigit, cs.dropWhile Char.isDigit)

/-- Reads an exponent, if a complete one is there. -/
def exponent? : List Char → Reading Int
  | mark :: cs =>
    if mark = 'e' || mark = 'E' then
      let signed : Bool × List Char :=
        match cs with
        | '-' :: rest => (true, rest)
        | '+' :: rest => (false, rest)
        | rest => (false, rest)
      let digits := spanDigits signed.2
      if digits.1.isEmpty then none
      else
        let size : Int := digitsValue digits.1
        some (if signed.1 then -size else size, digits.2)
    else none
  | [] => none

/-- Reads the digits after a point, if there are any. -/
def fraction? : List Char → Reading (List Char)
  | '.' :: cs =>
    let digits := spanDigits cs
    if digits.1.isEmpty then none else some digits
  | _ => none

/-- Reads a number whose sign has been read. An integer with too many digits is refused. -/
def unsigned? (negative : Bool) (cs : List Char) : Reading Number :=
  let whole : List Char × List Char :=
    match cs with
    | '0' :: rest => (['0'], rest)
    | cs => spanDigits cs
  if whole.1.isEmpty then none
  else
    let fraction := fraction? whole.2
    let places := (fraction.map Prod.fst).getD []
    let afterFraction := (fraction.map Prod.snd).getD whole.2
    let power := exponent? afterFraction
    let rest := (power.map Prod.snd).getD afterFraction
    if fraction.isNone && power.isNone then
      if Text.digitLimit < whole.1.length then none
      else
        let n : Int := digitsValue whole.1
        some (.int (if negative then -n else n), rest)
    else
      let shift := (power.map Prod.fst).getD 0
      some (.ofDecimal negative ⟨digitsValue (whole.1 ++ places), shift - places.length⟩, rest)

/-- Reads a number or one of the words for numbers out of range. -/
def number? : List Char → Reading Number
  | '-' :: cs =>
    match expect "Infinity".toList cs with
    | some rest => some (.infinity true, rest)
    | none => unsigned? true cs
  | cs => unsigned? false cs

/-! ## Texts -/

/-- Reads four hexadecimal digits. -/
def hexUnit? : List Char → Reading Nat
  | a :: b :: c :: d :: rest =>
    match Text.hexValue? a, Text.hexValue? b, Text.hexValue? c, Text.hexValue? d with
    | some a, some b, some c, some d => some (((a * 16 + b) * 16 + c) * 16 + d, rest)
    | _, _, _, _ => none
  | _ => none

/-- Reads the hexadecimal escape of a character: one unit, or the two halves of a character. -/
def escapedChar? (cs : List Char) : Reading Char :=
  match hexUnit? cs with
  | none => none
  | some (unit, rest) =>
    if Text.isHigh unit then
      match rest with
      | '\\' :: 'u' :: more =>
        match hexUnit? more with
        | some (low, after) =>
          if Text.isLow low then some (Text.join unit low, after)
          else some (Text.carrier unit, rest)
        | none => none
      | _ => some (Text.carrier unit, rest)
    else some (Text.ofCodePoint unit, rest)

/-- The character that a one-letter escape stands for. -/
def letterEscape? (c : Char) : Option Char :=
  if c = '"' || c = '\\' || c = '/' then some c
  else if c = 'n' then some '\n'
  else if c = 't' then some '\t'
  else if c = 'r' then some '\r'
  else if c = 'b' then some '\x08'
  else if c = 'f' then some '\x0c'
  else none

/-- Reads a text up to its closing quote; `done` holds its characters so far, last first. -/
def stringTail? : (bound : Nat) → (done : List Char) → List Char → Reading String
  | 0, _, _ => none
  | _ + 1, _, [] => none
  | _ + 1, done, '"' :: cs => some (String.ofList done.reverse, cs)
  | bound + 1, done, '\\' :: 'u' :: cs =>
    match escapedChar? cs with
    | some (c, rest) => stringTail? bound (c :: done) rest
    | none => none
  | bound + 1, done, '\\' :: letter :: cs =>
    match letterEscape? letter with
    | some c => stringTail? bound (c :: done) cs
    | none => none
  | bound + 1, done, c :: cs =>
    if c = '\\' || c.toNat < 0x20 then none else stringTail? bound (c :: done) cs

/-! ## Values -/

mutual

/-- Reads a value that starts at the first character. -/
def value? : (bound : Nat) → List Char → Reading Json
  | 0, _ => none
  | _ + 1, [] => none
  | bound + 1, '"' :: cs => (stringTail? (bound + 1) [] cs).map fun r => (.str r.1, r.2)
  | bound + 1, '[' :: cs =>
    match skipSpace cs with
    | ']' :: rest => some (.arr [], rest)
    | rest => (elements? bound rest).map fun r => (.arr r.1, r.2)
  | bound + 1, '\x7b' :: cs =>
    match skipSpace cs with
    | '\x7d' :: rest => some (.obj [], rest)
    | rest => (fields? bound [] rest).map fun r => (.obj r.1, r.2)
  | _ + 1, 'n' :: cs => (expect "ull".toList cs).map fun rest => (.null, rest)
  | _ + 1, 't' :: cs => (expect "rue".toList cs).map fun rest => (.bool true, rest)
  | _ + 1, 'f' :: cs => (expect "alse".toList cs).map fun rest => (.bool false, rest)
  | _ + 1, 'N' :: cs => (expect "aN".toList cs).map fun rest => (.num .undefined, rest)
  | _ + 1, 'I' :: cs => (expect "nfinity".toList cs).map fun rest => (.num (.infinity false), rest)
  | _ + 1, cs => (number? cs).map fun r => (.num r.1, r.2)

/-- Reads the elements of a list up to its closing bracket, at least one. -/
def elements? : (bound : Nat) → List Char → Reading (List Json)
  | 0, _ => none
  | bound + 1, cs =>
    match value? bound cs with
    | none => none
    | some (value, rest) =>
      match skipSpace rest with
      | ',' :: more =>
        match elements? bound (skipSpace more) with
        | some (values, after) => some (value :: values, after)
        | none => none
      | ']' :: after => some ([value], after)
      | _ => none

/-- Reads the fields of an object up to its closing brace, at least one; `done` holds the fields
so far. -/
def fields? : (bound : Nat) → (done : List (String × Json)) → List Char →
    Reading (List (String × Json))
  | 0, _, _ => none
  | bound + 1, done, '"' :: cs =>
    match stringTail? bound [] cs with
    | none => none
    | some (name, rest) =>
      match skipSpace rest with
      | ':' :: more =>
        match value? bound (skipSpace more) with
        | none => none
        | some (value, after) =>
          match skipSpace after with
          | ',' :: next => fields? bound (setField name value done) (skipSpace next)
          | '\x7d' :: last => some (setField name value done, last)
          | _ => none
      | _ => none
  | _ + 1, _, _ => none

end

/-- Reads a text that holds one JSON value. -/
def parse? (s : String) : Option Json :=
  let cs := skipSpace s.toList
  match value? (2 * cs.length + 2) cs with
  | some (value, rest) => if (skipSpace rest).isEmpty then some value else none
  | none => none

end TableParsing.Json
