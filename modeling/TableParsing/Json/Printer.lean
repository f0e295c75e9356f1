import TableParsing.Json
import TableParsing.Text.Quoted

/-!
# Writing JSON

`Json.render` writes a value without white space. Of the characters of a text only the quote, the
backslash, the control characters and the halves of characters are escaped.
-/

namespace TableParsing.Json

/-- A character as it is written inside a JSON text. -/
def escape (c : Char) : String :=
  if c = '"' then "\\\""
  else if c = '\\' then "\\\\"
  else if c = '\n' then "\\n"
  else if c = '\r' then "\\r"
  else if c = '\t' then "\\t"
  else if c.toNat < 0x20 || c.toNat = 0x7F then
    "\\u" ++ String.ofList (Text.hexDigits 4 c.toNat)
  else
    match Text.carried? c with
    | some half => "\\u" ++ String.ofList (Text.hexDigits 4 half)
    | none => String.singleton c

/-- Appends a text between its quotes. -/
def appendString (out s : String) : String :=
  (s.toList.foldl (fun out c => out ++ escape c) (out.push '"')).push '"'

/-- The digits of a number. -/
def numberText : Number → String
  | .int n => toString n
  | .decimal negative size =>
    (if negative then "-" else "") ++ toString size.digits ++ "e" ++ toString size.exponent
  | .infinity negative => if negative then "-Infinity" else "Infinity"
  | .undefined => "NaN"

mutual

/-- Appends a value. -/
def append (out : String) : Json → String
  | .null => out ++ "null"
  | .bool true => out ++ "true"
  | .bool false => out ++ "false"
  | .num n => out ++ numberText n
  | .str s => appendString out s
  | .arr [] => out ++ "[]"
  | .arr (value :: rest) => (appendElements (append (out.push '[') value) rest).push ']'
  | .obj [] => out ++ "\x7b\x7d"
  | .obj ((name, value) :: rest) =>
    (appendFields (append ((appendString (out.push '\x7b') name).push ':') value) rest).push
      '\x7d'

/-- Appends the elements after the first, each after a comma. -/
def appendElements (out : String) : List Json → String
  | [] => out
  | value :: rest => appendElements (append (out.push ',') value) rest

/-- Appends the fields after the first, each after a comma. -/
def appendFields (out : String) : List (String × Json) → String
  | [] => out
  | (name, value) :: rest =>
    appendFields (append ((appendString (out.push ',') name).push ':') value) rest

end

/-- A value as JSON text. -/
def render (value : Json) : String :=
  append "" value

end TableParsing.Json
