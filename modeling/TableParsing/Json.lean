import TableParsing.Decimal.Nearest

/-!
# JSON values

The values exchanged with a client. Objects keep their fields in the order in which they were
written, and integers are exact whatever their size. A number with a fraction or an exponent is
kept as the shortest decimal that denotes the same binary number, so that two texts of one number
give one value.
-/

namespace TableParsing

/-- A number of a JSON text. -/
inductive Number where
  /-- An integer. -/
  | int (value : Int)
  /-- A number written with a fraction or an exponent: a sign and a size. -/
  | decimal (negative : Bool) (size : Decimal)
  /-- A number beyond the range of binary numbers, or the word for it. -/
  | infinity (negative : Bool)
  /-- The word for an undefined number. -/
  | undefined
deriving DecidableEq, Repr

/-- The number that is written as a decimal. -/
def Number.ofDecimal (negative : Bool) (size : Decimal) : Number :=
  match size.nearest? with
  | some nearest => .decimal negative nearest.shortest
  | none => .infinity negative

/-- A JSON value. -/
inductive Json where
  | null
  | bool (value : Bool)
  | num (value : Number)
  | str (value : String)
  | arr (elements : List Json)
  | obj (fields : List (String × Json))
deriving Repr, Inhabited

namespace Json

/-- An integer as a JSON value. -/
def int (n : Int) : Json := .num (.int n)

/-- A natural number as a JSON value. -/
def nat (n : Nat) : Json := .int (n : Int)

/-- A list of texts as a JSON value. -/
def strings (texts : List String) : Json := .arr (texts.map .str)

/-- A text that may be absent. -/
def strOrNull : Option String → Json
  | some s => .str s
  | none => .null

/-- An integer that may be absent. -/
def intOrNull : Option Int → Json
  | some n => .int n
  | none => .null

/-- Adds a field to a list of fields. A name that is already there keeps its place and takes the
new value. -/
def setField (name : String) (value : Json) : List (String × Json) → List (String × Json)
  | [] => [(name, value)]
  | field :: rest =>
    if field.1 = name then (name, value) :: rest else field :: setField name value rest

/-- An object from a list of fields in which a name may be repeated. -/
def object (entries : List (String × Json)) : Json :=
  .obj (entries.foldl (fun fields field => setField field.1 field.2 fields) [])

/-- The field of an object with a given name. -/
def field? (name : String) : Json → Option Json
  | .obj fields => (fields.find? fun field => field.1 = name).map Prod.snd
  | _ => none

/-- Whether a value counts as given: `null`, `false`, zero and the empty text, list and object
do not. -/
def isGiven : Json → Bool
  | .null => false
  | .bool b => b
  | .num (.int n) => n != 0
  | .num (.decimal _ size) => size.digits != 0
  | .num _ => true
  | .str s => s != ""
  | .arr elements => !elements.isEmpty
  | .obj fields => !fields.isEmpty

end Json

end TableParsing
