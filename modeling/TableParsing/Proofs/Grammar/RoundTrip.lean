import TableParsing.Proofs.Grammar.Symbols

/-!
# Writing the productions and reading them again

The productions of a grammar, each as one line of text, are a grammar text again (`source`), and if
the grammar has been read from any text, then reading this one gives the same productions and skips
no line (`exists_read_source`).

A rule that has been read holds only what can be written (`Rule.IsWritten`), so in its text the
arrow and the blanks that are put between its symbols are the only ones. From there the argument
follows the reader: the text is cut at the arrow and not elsewhere (`arrowParts_text`), there is no
bar, the words are the symbols (`readAlternative_of_isWritten`), so the line gives the rule
(`Line.read_text`); and as no symbol holds a line break, the lines are the texts of the rules.
-/

namespace TableParsing

namespace Rule

variable {r : Rule}

/-- The right-hand side with blanks between its symbols. -/
def rightText (r : Rule) : List Char := [' '].intercalate (r.rhs.map String.toList)

/-- The text of a rule is cut in two by an arrow between blanks. -/
theorem toList_text (h : r.rhs ≠ []) :
    r.text.toList = (r.lhs.toList ++ [' ']) ++ '-' :: '>' :: ' ' :: r.rightText := by
  rw [text, if_neg (by simpa using h), String.toList_append, String.toList_append,
    String.toList_intercalate, List.append_assoc, List.append_assoc]
  rfl

/-- What is in a right-hand side is a blank or in one of its symbols. -/
theorem mem_rightText {c : Char} (hc : c ∈ r.rightText) : c = ' ' ∨ ∃ s ∈ r.rhs, c ∈ s.toList := by
  simpa using Text.mem_intercalate _ hc

namespace IsWritten

variable (h : r.IsWritten)
include h

/-- The symbols of the right-hand side are words. -/
theorem isWord_of_mem : ∀ w ∈ r.rhs.map String.toList, Text.IsWord w := by
  intro w hw
  obtain ⟨s, hs, rfl⟩ := List.mem_map.mp hw
  exact (h.rhs s hs).isWord

/-- The words of the right-hand side are its symbols. -/
theorem words_rightText : Text.words r.rightText = r.rhs.map String.toList :=
  Text.words_intercalate _ h.isWord_of_mem

/-- The right-hand side is not empty. -/
theorem rightText_ne_nil : r.rightText ≠ [] := by
  intro hnil
  have hwords := h.words_rightText
  rw [hnil, Text.words_nil, eq_comm, List.map_eq_nil_iff] at hwords
  exact h.rhs_ne_nil hwords

/-- The text of a rule has no white space at its ends. -/
theorem strip_text : Text.strip r.text.toList = r.text.toList := by
  rw [toList_text h.rhs_ne_nil]
  apply Text.strip_eq_self
  · intro c hc
    rw [List.append_assoc, List.head?_append_of_ne_nil _ h.lhs.isWord.ne_nil] at hc
    exact h.lhs.isWord.not_blank c (List.mem_of_mem_head? hc)
  · intro c hc
    have hlast : (r.lhs.toList ++ [' '] ++ '-' :: '>' :: ' ' :: r.rightText).getLast? =
        r.rightText.getLast? := by
      rw [← List.getLast?_append_of_ne_nil (r.lhs.toList ++ [' ', '-', '>', ' '])
        h.rightText_ne_nil]
      simp
    rw [hlast] at hc
    exact Text.not_blank_of_mem_getLast? _ h.isWord_of_mem c hc

/-- The text of a rule has one arrow. -/
theorem arrowParts_text :
    Text.arrowParts r.text.toList = [r.lhs.toList ++ [' '], ' ' :: r.rightText] := by
  have hleft : Text.ArrowFree (r.lhs.toList ++ [' ']) :=
    h.lhs.arrowFree.append_blank List.IsChain.nil
  have hright : Text.ArrowFree (' ' :: r.rightText) := by
    show Text.ArrowFree ([] ++ ' ' :: r.rightText)
    refine Text.ArrowFree.append_blank List.IsChain.nil ?_
    refine Text.ArrowFree.intercalate _ fun w hw => ?_
    obtain ⟨s, hs, rfl⟩ := List.mem_map.mp hw
    exact (h.rhs s hs).arrowFree
  rw [toList_text h.rhs_ne_nil, Text.arrowParts_append _ _ hleft,
    Text.arrowParts_of_arrowFree _ hright]

/-- The text of a rule breaks no line. -/
theorem not_isBreak_of_mem_text : ∀ c ∈ r.text.toList, Text.isBreak c = false := by
  have hword : ∀ s : Symbol, s.IsWritten → ∀ c ∈ s.toList, Text.isBreak c = false := by
    intro s hs c hc
    rw [← Bool.not_eq_true]
    intro hbreak
    have hblank := hs.isWord.not_blank c hc
    rw [Text.isBlank_of_isBreak hbreak] at hblank
    cases hblank
  intro c hc
  rw [toList_text h.rhs_ne_nil] at hc
  simp only [List.mem_append, List.mem_cons, List.not_mem_nil, or_false] at hc
  rcases hc with (hc | rfl) | rfl | rfl | rfl | hc
  · exact hword r.lhs h.lhs c hc
  · rfl
  · rfl
  · rfl
  · rfl
  · rcases mem_rightText hc with rfl | ⟨s, hs, hc⟩
    · rfl
    · exact hword s (h.rhs s hs).toIsWritten c hc

/-- The text of a rule is not empty. -/
theorem toList_text_ne_nil : r.text.toList ≠ [] := by
  rw [toList_text h.rhs_ne_nil]
  simp

end IsWritten

end Rule

namespace Grammar

variable {r : Rule}

/-- The right-hand side is read as it is. -/
theorem readAlternative_of_isWritten (h : r.IsWritten) :
    readAlternative (' ' :: r.rightText) = r.rhs := by
  have hsymbols : (r.rhs.map String.toList).map (fun w => Symbol.normalize (String.ofList w)) =
      r.rhs := by
    rw [List.map_map]
    refine (List.map_congr_left fun s hs => ?_).trans (List.map_id r.rhs)
    rw [Function.comp_apply, String.ofList_toList, id_eq]
    exact Symbol.normalize_of_not_alias (h.rhs s hs).not_alias
  rw [readAlternative, Text.words_cons_blank rfl, h.words_rightText, hsymbols]
  split
  · next hnil => exact absurd hnil h.rhs_ne_nil
  · rfl

/-- The text of a rule gives this rule. -/
theorem Line.read_text (h : r.IsWritten) : Line.read r.text.toList = .rules r.lhs [r.rhs] := by
  have hleft : Text.words (r.lhs.toList ++ [' ']) = [r.lhs.toList] := by
    rw [Text.words_append_blank rfl [] _ h.lhs.isWord.ne_nil h.lhs.isWord.not_blank, Text.words_nil]
  have hbar : '|' ∉ ' ' :: r.rightText := by
    rw [List.mem_cons, not_or]
    refine ⟨by decide, fun hmem => ?_⟩
    rcases Rule.mem_rightText hmem with hblank | ⟨s, hs, hmem⟩
    · exact absurd hblank (by decide)
    · exact (h.rhs s hs).not_bar hmem
  have huse : usesEndMarker r.lhs [r.rhs] = false := by
    simp only [usesEndMarker, List.any_cons, List.any_nil, Bool.or_false, Bool.or_eq_false_iff,
      decide_eq_false_iff_not]
    refine ⟨h.lhs.ne_endMarker, ?_⟩
    rw [← Bool.not_eq_true, List.contains_iff_mem]
    exact fun hmem => (h.rhs endMarker hmem).ne_endMarker rfl
  rw [Line.read, h.strip_text]
  simp only [List.isEmpty_iff, h.toList_text_ne_nil, if_false]
  rw [Line.readStripped, h.arrowParts_text]
  simp only [hleft, String.ofList_toList, Text.fields_of_not_mem '|' _ hbar, List.map_cons,
    List.map_nil, readAlternative_of_isWritten h, huse, Bool.false_eq_true, if_false]

variable {g : Grammar}

/-- The productions as a grammar text, each on a line of its own. -/
def source (g : Grammar) : String := "\n".intercalate (g.productions.map fun p => p.text)

/-- The lines of the productions are read as their rules. -/
theorem readLines_source (h : ∀ r ∈ g.rules, r.IsWritten) :
    readLines g.source = g.rules.map fun r => .rules r.lhs [r.rhs] := by
  have htexts : g.source.toList = ['\n'].intercalate (g.rules.map fun r => r.text.toList) := by
    rw [source, String.toList_intercalate, List.map_map, ← map_toRule_productions g, List.map_map]
    rfl
  have hlines : ∀ line ∈ g.rules.map fun r => r.text.toList,
      line ≠ [] ∧ ∀ c ∈ line, Text.isBreak c = false := by
    intro line hline
    obtain ⟨r, hr, rfl⟩ := List.mem_map.mp hline
    exact ⟨(h r hr).toList_text_ne_nil, (h r hr).not_isBreak_of_mem_text⟩
  rw [readLines, htexts, Text.lines_intercalate _ hlines, List.map_map]
  exact List.map_congr_left fun r hr => Line.read_text (h r hr)

/-- Lines of rules are not skipped. -/
theorem skippedFrom_rules (number : Nat) :
    (rules : List Rule) → skippedFrom number (rules.map fun r => .rules r.lhs [r.rhs]) = []
  | [] => rfl
  | _ :: rules => skippedFrom_rules (number + 1) rules

/-- The productions of a grammar that has been read are a grammar text, and reading it gives the
same productions, symbols and start symbol, and skips no line. -/
theorem exists_read_source {text : String} (h : read text = .ok g) :
    ∃ g', read g.source = .ok g' ∧ g'.productions = g.productions ∧
      g'.nonTerminals = g.nonTerminals ∧ g'.terminals = g.terminals ∧
      g'.startSymbol = g.startSymbol ∧ g'.skipped = [] := by
  have hlines := readLines_source fun r hr => isWritten_of_read h hr
  have hrules : rulesOf g.source = g.rules := by
    rw [rulesOf, hlines, List.flatMap_map]
    exact List.flatMap_singleton' g.rules
  have hskipped : skippedOf g.source = [] := by
    rw [skippedOf, hlines, skippedFrom_rules]
  exact ⟨{ g with skipped := [] }, read_eq_ok_iff.mpr ⟨hrules.symm, hskipped.symm⟩,
    rfl, rfl, rfl, rfl, rfl⟩

/-- The two rules of the nested brackets, which are written in one line, become two lines. -/
theorem exists_read_source_nested :
    ∃ g', read nested.source = .ok g' ∧ g'.productions = nested.productions ∧
      g'.nonTerminals = nested.nonTerminals ∧ g'.terminals = nested.terminals ∧
      g'.startSymbol = nested.startSymbol ∧ g'.skipped = [] :=
  exists_read_source read_nested

end Grammar

end TableParsing
