import TableParsing.Proofs.Grammar.Symbols

/-!
# Grammar texts one after the other

Each line of a grammar text is read by itself, so two texts with a line feed between them give the
rules of the first and then those of the second, whether or not each of them is a grammar alone
(`read_append_lineFeed`). The skipped lines are those of both, and those of the second are numbered
behind the lines of the first.

The line feed ends the last line of the first text, or it completes a break there, or it makes an
empty line (`Text.lines_append_lineFeed_cases`). An empty line is read as nothing, but it counts; so
the numbers go on behind the lines of the first text with the line feed.
-/

namespace TableParsing

/-- The line with its number counted behind other lines. -/
def SkippedLine.behind (count : Nat) (line : SkippedLine) : SkippedLine :=
  { line with number := line.number + count }

namespace Grammar

/-- The two sides of the productions that a text gives, none if it is not a grammar. -/
def sidesOf (text : String) : List (Symbol × List Symbol) :=
  match read text with
  | .ok g => g.productions.map fun p => (p.lhs, p.rhs)
  | .error _ => []

/-- The lines of a text with a line feed behind it. -/
def endedLines (text : String) : List (List Char) := Text.lines (text ++ "\n").toList

/-! ## Lines -/

/-- The lines of two texts with a line feed between them. -/
theorem readLines_append_lineFeed (first second : String) :
    readLines (first ++ "\n" ++ second) = (endedLines first).map Line.read ++ readLines second := by
  have hjoined : (first ++ "\n" ++ second).toList = first.toList ++ '\n' :: second.toList := by
    simp
  have hended : (first ++ "\n").toList = first.toList ++ ['\n'] := by simp
  rw [readLines, hjoined, Text.lines_append_cons_lineFeed, List.map_append, endedLines, hended,
    readLines]

/-- The lines of a text are read as they are, also with a line feed behind them, but for a blank
line at the end. -/
theorem map_read_endedLines_cases (text : String) :
    (endedLines text).map Line.read = readLines text ∨
      (endedLines text).map Line.read = readLines text ++ [.blank] := by
  have hended : (text ++ "\n").toList = text.toList ++ ['\n'] := by simp
  rw [endedLines, hended, readLines]
  rcases Text.lines_append_lineFeed_cases text.toList with h | h
  · exact Or.inl (by rw [h])
  · exact Or.inr (by rw [h, List.map_append]; rfl)

/-! ## Rules -/

/-- Two texts with a line feed between them give the rules of both. -/
theorem rulesOf_append_lineFeed (first second : String) :
    rulesOf (first ++ "\n" ++ second) = rulesOf first ++ rulesOf second := by
  rw [rulesOf, readLines_append_lineFeed, List.flatMap_append, rulesOf, rulesOf]
  rcases map_read_endedLines_cases first with h | h
  · rw [h]
  · rw [h, List.flatMap_append]
    simp [Line.toRules]

/-- A text is not a grammar iff it gives no rule. -/
theorem read_eq_error_iff {text : String} :
    read text = .error .noProduction ↔ rulesOf text = [] := by
  unfold read
  split
  · next h => exact iff_of_true rfl h
  · next h => exact iff_of_false (by simp) h

/-- The sides of the productions are those of the rules. -/
theorem sidesOf_eq (text : String) :
    sidesOf text = (rulesOf text).map fun r => (r.lhs, r.rhs) := by
  unfold sidesOf
  split
  · next g hread =>
      rw [← (read_eq_ok_iff.mp hread).1, ← map_toRule_productions g, List.map_map]
      rfl
  · next failure hread =>
      unfold read at hread
      split at hread
      · next h => rw [h, List.map_nil]
      · cases hread

/-! ## Skipped lines -/

/-- The skipped ones of further lines come last, and their numbers go on. -/
theorem skippedFrom_append (later : List Line) :
    (earlier : List Line) → (number : Nat) →
      skippedFrom number (earlier ++ later) =
        skippedFrom number earlier ++ skippedFrom (number + earlier.length) later
  | [], _ => rfl
  | line :: earlier, number => by
      have ih := skippedFrom_append later earlier (number + 1)
      rw [Nat.add_right_comm, Nat.add_assoc] at ih
      rw [List.cons_append, skippedFrom, skippedFrom, ih]
      split <;> rfl

/-- A later first number makes all numbers later. -/
theorem skippedFrom_add (count : Nat) :
    (ls : List Line) → (number : Nat) →
      skippedFrom (number + count) ls = (skippedFrom number ls).map (SkippedLine.behind count)
  | [], _ => rfl
  | line :: ls, number => by
      have ih := skippedFrom_add count ls (number + 1)
      rw [Nat.add_right_comm] at ih
      rw [skippedFrom, skippedFrom, ih]
      split <;> rfl

/-- Two texts with a line feed between them have the skipped lines of both. -/
theorem skippedOf_append_lineFeed (first second : String) :
    skippedOf (first ++ "\n" ++ second) =
      skippedOf first ++
        (skippedOf second).map (SkippedLine.behind (endedLines first).length) := by
  rw [skippedOf, readLines_append_lineFeed, skippedFrom_append, skippedFrom_add, List.length_map]
  congr 1
  rcases map_read_endedLines_cases first with h | h
  · rw [h, skippedOf]
  · rw [h, skippedFrom_append, skippedOf]
    exact List.append_nil _

/-- Two texts with a line feed between them give the productions of the first and then those of the
second; they are a grammar iff one of them gives a production; and if both are grammars, the skipped
lines are those of the first and then those of the second, counted behind the lines of the first. -/
theorem read_append_lineFeed (first second : String) :
    sidesOf (first ++ "\n" ++ second) = sidesOf first ++ sidesOf second ∧
      (read (first ++ "\n" ++ second) = .error .noProduction ↔
        sidesOf first = [] ∧ sidesOf second = []) ∧
      ∀ g h, read first = .ok g → read second = .ok h →
        ∃ joined, read (first ++ "\n" ++ second) = .ok joined ∧
          joined.skipped =
            g.skipped ++ h.skipped.map (SkippedLine.behind (endedLines first).length) := by
  have hrules := rulesOf_append_lineFeed first second
  refine ⟨?_, ?_, fun g h hfirst hsecond => ?_⟩
  · rw [sidesOf_eq, hrules, List.map_append, ← sidesOf_eq, ← sidesOf_eq]
  · rw [read_eq_error_iff, hrules, List.append_eq_nil_iff, sidesOf_eq, sidesOf_eq,
      List.map_eq_nil_iff, List.map_eq_nil_iff]
  · obtain ⟨hrulesFirst, hskippedFirst⟩ := read_eq_ok_iff.mp hfirst
    obtain ⟨-, hskippedSecond⟩ := read_eq_ok_iff.mp hsecond
    have hne : rulesOf (first ++ "\n" ++ second) ≠ [] := by
      rw [hrules, ← hrulesFirst]
      exact List.append_ne_nil_of_left_ne_nil g.rules_ne_nil _
    refine ⟨⟨_, hne, _⟩, read_eq_ok_iff.mpr ⟨rfl, rfl⟩, ?_⟩
    rw [hskippedFirst, hskippedSecond]
    exact skippedOf_append_lineFeed first second

/-- A carriage return at the end of the first text and the line feed behind it are one break, so the
second text begins with the third line. -/
theorem read_append_lineFeed_straddling :
    ∃ g h joined, read "S -> a S b |\rjunk\r" = .ok g ∧ read "$ -> x\nT -> c" = .ok h ∧
      read ("S -> a S b |\rjunk\r" ++ "\n" ++ "$ -> x\nT -> c") = .ok joined ∧
      joined.skipped = [⟨2, "junk"⟩, ⟨3, "$ -> x"⟩] := by
  obtain ⟨joined, hread, hskipped⟩ :=
    (read_append_lineFeed "S -> a S b |\rjunk\r" "$ -> x\nT -> c").2.2
      { nested with skipped := [⟨2, "junk"⟩] }
      ⟨[⟨"T", ["c"]⟩], List.cons_ne_nil _ _, [⟨1, "$ -> x"⟩]⟩ rfl rfl
  exact ⟨_, _, joined, rfl, rfl, hread, hskipped⟩

end Grammar

end TableParsing
