import TableParsing.Json.Parser

/-!
# JSON as bytes

A JSON text that comes as bytes may be encoded in units of one, two or four bytes. A byte order
mark in front tells the encoding. Without one, the zeros among the first four bytes do: a JSON
text starts with ASCII characters, and these have zeros in their wider units.
-/

namespace TableParsing.Json

/-- An encoding of text. -/
inductive Encoding where
  /-- Units of one byte. -/
  | narrow
  /-- Units of two bytes, the higher byte first or last. -/
  | double (highFirst : Bool)
  /-- Units of four bytes, the highest byte first or last. -/
  | wide (highFirst : Bool)
deriving DecidableEq, Repr

namespace Encoding

/-- The byte order marks. A mark that is the beginning of another one comes after it. -/
def marks : List (List UInt8 × Encoding) :=
  [([0x00, 0x00, 0xFE, 0xFF], .wide true), ([0xFF, 0xFE, 0x00, 0x00], .wide false),
   ([0xFE, 0xFF], .double true), ([0xFF, 0xFE], .double false), ([0xEF, 0xBB, 0xBF], .narrow)]

/-- The encoding of a text without a byte order mark. -/
def ofZeros : List UInt8 → Encoding
  | a :: b :: c :: d :: _ =>
    if a = 0 then if b = 0 then .wide true else .double true
    else if b = 0 then if c = 0 && d = 0 then .wide false else .double false
    else .narrow
  | [a, b] => if a = 0 then .double true else if b = 0 then .double false else .narrow
  | _ => .narrow

/-- The encoding of a text, and its bytes without the byte order mark. -/
def detect (bytes : List UInt8) : Encoding × List UInt8 :=
  match marks.find? fun mark => mark.1.isPrefixOf bytes with
  | some mark => (mark.2, bytes.drop mark.1.length)
  | none => (ofZeros bytes, bytes)

/-- The number that bytes stand for, the highest one first. -/
def number (bytes : List UInt8) : Nat := bytes.foldl (fun n byte => 256 * n + byte.toNat) 0

/-- The units of two bytes, if no byte is left over. -/
def doubleUnits? (highFirst : Bool) : List UInt8 → Option (List Nat)
  | [] => some []
  | a :: b :: rest =>
    (doubleUnits? highFirst rest).map (number (if highFirst then [a, b] else [b, a]) :: ·)
  | [_] => none

/-- The units of four bytes, if no byte is left over. -/
def wideUnits? (highFirst : Bool) : List UInt8 → Option (List Nat)
  | [] => some []
  | a :: b :: c :: d :: rest =>
    (wideUnits? highFirst rest).map
      (number (if highFirst then [a, b, c, d] else [d, c, b, a]) :: ·)
  | _ => none

/-- The text that bytes encode, if they are in order. -/
def decode? : Encoding → List UInt8 → Option String
  | .narrow, bytes => String.fromUTF8? ⟨bytes.toArray⟩
  | .double highFirst, bytes =>
    (doubleUnits? highFirst bytes).map fun units => String.ofList (Text.ofUnits units)
  | .wide highFirst, bytes =>
    match wideUnits? highFirst bytes with
    | some units =>
      if units.all (· < 0x110000) then some (String.ofList (units.map Text.ofCodePoint)) else none
    | none => none

end Encoding

/-- Reads bytes that hold one JSON value. -/
def ofBytes? (bytes : List UInt8) : Option Json :=
  let detected := Encoding.detect bytes
  (detected.1.decode? detected.2).bind parse?

end TableParsing.Json
