import TableParsing.Json
import TableParsing.Text.Quoted

/-!
# JSON values inside messages

The text of a JSON value where it is shown to a person (`Json.literal`) or taken as a word
(`Json.text`). The two differ for a text only, which is quoted in a literal and stands for itself
as a word. A decimal is written positionally from `0.0001` up to sixteen digits before the point,
and with an exponent of at least two digits outside that range.
-/

namespace TableParsing

/-- The text of a decimal. -/
def Decimal.text (d : Decimal) : String :=
  let shown := (toString d.digits).toList
  let point := (shown.length : Int) + d.exponent
  if d.digits = 0 then "0.0"
  else if -4 < point && point ≤ 16 then
    if d.exponent ≥ 0 then
      String.ofList (shown ++ List.replicate d.exponent.toNat '0' ++ ".0".toList)
    else if point ≤ 0 then
      String.ofList ("0.".toList ++ List.replicate (-point).toNat '0' ++ shown)
    else
      String.ofList (shown.take point.toNat ++ ['.'] ++ shown.drop point.toNat)
  else
    let power := point - 1
    let size := toString power.natAbs
    let fraction := if shown.length ≤ 1 then [] else '.' :: shown.drop 1
    String.ofList (shown.take 1 ++ fraction) ++ "e" ++ (if power < 0 then "-" else "+") ++
      (if power.natAbs < 10 then "0" else "") ++ size

/-- The text of a number. -/
def Number.text : Number → String
  | .int n => toString n
  | .decimal negative size => (if negative then "-" else "") ++ size.text
  | .infinity negative => if negative then "-inf" else "inf"
  | .undefined => "nan"

namespace Json

mutual

/-- A value as it is shown inside a message. -/
def literal : Json → String
  | .null => "None"
  | .bool true => "True"
  | .bool false => "False"
  | .num n => n.text
  | .str s => Text.quoted s
  | .arr elements => "[" ++ ", ".intercalate (literals elements) ++ "]"
  | .obj fields => "\x7b" ++ ", ".intercalate (fieldLiterals fields) ++ "\x7d"

/-- The elements of a list as they are shown inside a message. -/
def literals : List Json → List String
  | [] => []
  | value :: rest => literal value :: literals rest

/-- The fields of an object as they are shown inside a message. -/
def fieldLiterals : List (String × Json) → List String
  | [] => []
  | (name, value) :: rest => (Text.quoted name ++ ": " ++ literal value) :: fieldLiterals rest

end

/-- A value taken as a word: a text stands for itself. -/
def text : Json → String
  | .str s => s
  | value => value.literal

end Json

end TableParsing
