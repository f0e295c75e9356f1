import TableParsing.Text.Blank

/-!
# Lines and fields

How a text is cut: into lines at line breaks, into the two sides of a rule at its arrow, into
alternatives at a bar. A break ends a line, so a text that ends in one has no empty last line,
while a separator stands between two fields, so there is one field more than separators.
-/

namespace TableParsing.Text

/-- The characters that end a line. A carriage return directly followed by a line feed counts
as one break; see `lines`. -/
def isBreak (c : Char) : Bool :=
  let n := c.toNat
  (0x0A ≤ n && n ≤ 0x0D) || (0x1C ≤ n && n ≤ 0x1E) || n == 0x85 || n == 0x2028 || n == 0x2029

/-- The lines of a text, without the breaks that end them. -/
def lines : List Char → List (List Char)
  | [] => []
  | '\r' :: '\n' :: cs => [] :: lines cs
  | c :: cs => if isBreak c then [] :: lines cs else consHead c (lines cs)

/-- The fields of a text that a given character separates. -/
def fields (separator : Char) : List Char → List (List Char)
  | [] => [[]]
  | c :: cs => if c = separator then [] :: fields separator cs else consHead c (fields separator cs)

/-- The parts of a text between its arrows `->`, which are read from left to right. -/
def arrowParts : List Char → List (List Char)
  | [] => [[]]
  | '-' :: '>' :: cs => [] :: arrowParts cs
  | c :: cs => consHead c (arrowParts cs)

end TableParsing.Text
