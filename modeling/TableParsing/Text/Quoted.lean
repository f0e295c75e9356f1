import TableParsing.Text.Half
import TableParsing.Text.Hexadecimal
import TableParsing.Text.Visible

/-!
# Quoted text

The one-line form in which a text is shown inside a message. It stands between single quotes, or
between double quotes if it holds a single quote and no double one. The quote in use and the
backslash get a backslash; a tab, a line feed and a carriage return have letters of their own;
any other character that is not visible is shown by its code point in hexadecimal, with two, four
or eight digits. A half of a character is shown by its unit.
-/

namespace TableParsing.Text

/-- The escape of a character that is not visible. -/
def codePoint (c : Char) : List Char :=
  let n := (carried? c).getD c.toNat
  if n < 0x100 then '\\' :: 'x' :: hexDigits 2 n
  else if n < 0x10000 then '\\' :: 'u' :: hexDigits 4 n
  else '\\' :: 'U' :: hexDigits 8 n

/-- A character as it is written between two given quotes. -/
def quotedChar (quote c : Char) : List Char :=
  if c = quote || c = '\\' then ['\\', c]
  else if c = '\t' then ['\\', 't']
  else if c = '\n' then ['\\', 'n']
  else if c = '\r' then ['\\', 'r']
  else if isVisible c then [c]
  else codePoint c

/-- The quote that is put around a text: the one that needs the fewer escapes, single by
preference. -/
def chooseQuote (cs : List Char) : Char :=
  if cs.contains '\'' && !cs.contains '"' then '"' else '\''

/-- A text between quotes, on one line. -/
def quoted (s : String) : String :=
  let cs := s.toList
  let quote := chooseQuote cs
  String.ofList (quote :: (cs.flatMap (quotedChar quote) ++ [quote]))

end TableParsing.Text
