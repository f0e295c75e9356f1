import TableParsing.Failure
import TableParsing.Grammar.Basic
import TableParsing.Text.Lines

/-!
# Reading a grammar

One rule a line, in the form `A -> alpha | beta`. Each line is read by itself (`Line.read`): it is
blank, or it is not a rule, or it uses the end marker, or it gives one rule for each alternative.
The rules of a text are those of its lines in order (`rulesOf`), and the lines that are neither
blank nor rules are reported with their numbers (`skippedOf`).
-/

namespace TableParsing.Grammar

/-- What one line of a grammar text gives. -/
inductive Line where
  /-- Nothing but white space. -/
  | blank
  /-- Not exactly one arrow with one word before it. -/
  | malformed (text : String)
  /-- A rule that uses the end marker. -/
  | reserved (text : String)
  /-- The rules of one left-hand side, one for each alternative. -/
  | rules (lhs : Symbol) (alternatives : List (List Symbol))
deriving DecidableEq, Repr

/-- The symbols of an alternative; an alternative without symbols is the empty marker. -/
def readAlternative (cs : List Char) : List Symbol :=
  match (Text.words cs).map fun w => Symbol.normalize (String.ofList w) with
  | [] => [epsilon]
  | symbols => symbols

/-- Whether a line's rules use the end marker. -/
def usesEndMarker (lhs : Symbol) (alternatives : List (List Symbol)) : Bool :=
  lhs = endMarker || alternatives.any fun symbols => symbols.contains endMarker

/-- Reads a line that is neither blank nor has white space at its ends. -/
def Line.readStripped (line : List Char) : Line :=
  match Text.arrowParts line with
  | [left, right] =>
    match Text.words left with
    | [word] =>
      let lhs := String.ofList word
      let alternatives := (Text.fields '|' right).map readAlternative
      if usesEndMarker lhs alternatives then .reserved (String.ofList line)
      else .rules lhs alternatives
    | _ => .malformed (String.ofList line)
  | _ => .malformed (String.ofList line)

/-- Reads a line. -/
def Line.read (raw : List Char) : Line :=
  let line := Text.strip raw
  if line.isEmpty then .blank else .readStripped line

/-- The rules that a line gives. -/
def Line.toRules : Line → List Rule
  | .rules lhs alternatives => alternatives.map fun rhs => ⟨lhs, rhs⟩
  | _ => []

/-- The text of a line that is skipped. -/
def Line.skipped? : Line → Option String
  | .malformed text => some text
  | .reserved text => some text
  | _ => none

/-- The lines of a text as they are read. -/
def readLines (text : String) : List Line := (Text.lines text.toList).map Line.read

/-- The rules of a text. -/
def rulesOf (text : String) : List Rule := (readLines text).flatMap Line.toRules

/-- The skipped ones of some lines, of which the first has the given number. -/
def skippedFrom (number : Nat) : List Line → List SkippedLine
  | [] => []
  | line :: rest =>
    match line.skipped? with
    | some text => ⟨number, text⟩ :: skippedFrom (number + 1) rest
    | none => skippedFrom (number + 1) rest

/-- The skipped lines of a text. -/
def skippedOf (text : String) : List SkippedLine := skippedFrom 1 (readLines text)

/-- Reads a grammar. -/
def read (text : String) : Except Failure Grammar :=
  if h : rulesOf text = [] then .error .noProduction
  else .ok ⟨rulesOf text, h, skippedOf text⟩

/-! ## Lemmas -/

/-- A text is a grammar iff one of its lines gives a rule, and then the grammar holds its rules
and its skipped lines. -/
theorem read_eq_ok_iff {text : String} {g : Grammar} :
    read text = .ok g ↔ g.rules = rulesOf text ∧ g.skipped = skippedOf text := by
  unfold read
  split
  · next h =>
    simp only [reduceCtorEq, false_iff, not_and]
    intro hr
    exact absurd (hr.trans h) g.rules_ne_nil
  · next h =>
    obtain ⟨rules, hne, skipped⟩ := g
    simp only [Except.ok.injEq, mk.injEq]
    exact and_congr eq_comm eq_comm

end TableParsing.Grammar
