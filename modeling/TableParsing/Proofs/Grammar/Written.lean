import Mathlib
import TableParsing.Grammar.Reader
import TableParsing.Proofs.Text.Pieces

/-!
# What the rules of a text look like

A line that gives rules has one arrow, one word before it, and the alternatives are cut at the bars
after it (`Line.read_eq_rules`). The symbols are pieces of the line, so a rule that has been read
(`Rule.IsWritten`) holds no white space and no arrow, on its right no bar and no other name of the
empty marker, and nowhere the end marker; and its right-hand side has a symbol, since an
alternative without symbols is the empty marker (`isWritten_of_mem_toRules`).

The left-hand side is not cut at bars and keeps the names of the empty marker. So the two sides have
different conditions, and a left-hand side may be one that no right-hand side can hold.
-/

namespace TableParsing

/-! ## Symbols -/

/-- A word without an arrow that is not the end marker. -/
structure Symbol.IsWritten (s : Symbol) : Prop where
  /-- There is no white space. -/
  isWord : Text.IsWord s.toList
  /-- There is no arrow. -/
  arrowFree : Text.ArrowFree s.toList
  /-- The end marker is not used. -/
  ne_endMarker : s ≠ endMarker

/-- A symbol of a right-hand side: no bar is in it, and it is no other name of the empty marker. -/
structure Symbol.IsWrittenRight (s : Symbol) : Prop extends Symbol.IsWritten s where
  /-- There is no bar. -/
  not_bar : '|' ∉ s.toList
  /-- The other names of the empty marker are resolved. -/
  not_alias : s ∉ epsilonAliases

namespace Symbol

/-- A symbol is kept unless it is another name of the empty marker. -/
theorem normalize_of_not_alias {s : Symbol} (h : s ∉ epsilonAliases) : normalize s = s := if_neg h

/-- The empty marker may be written. -/
theorem isWrittenRight_epsilon : IsWrittenRight epsilon where
  isWord := Text.IsWord.single (c := 'ε') rfl
  arrowFree := List.IsChain.singleton 'ε'
  ne_endMarker := by decide
  not_bar := List.not_mem_cons_of_ne_of_not_mem (y := 'ε') (by decide) List.not_mem_nil
  not_alias := by decide

/-- A word of an alternative gives a symbol of a right-hand side. -/
theorem isWrittenRight_normalize {s : Symbol} (hword : Text.IsWord s.toList)
    (harrow : Text.ArrowFree s.toList) (hbar : '|' ∉ s.toList) (hend : normalize s ≠ endMarker) :
    IsWrittenRight (normalize s) := by
  by_cases halias : s ∈ epsilonAliases
  · rw [normalize, if_pos halias]
    exact isWrittenRight_epsilon
  · rw [normalize_of_not_alias halias] at hend ⊢
    exact ⟨⟨hword, harrow, hend⟩, hbar, halias⟩

end Symbol

/-! ## Rules -/

/-- What holds of a rule that has been read. -/
structure Rule.IsWritten (r : Rule) : Prop where
  /-- The left-hand side is a word. -/
  lhs : Symbol.IsWritten r.lhs
  /-- An empty right-hand side is written with a marker. -/
  rhs_ne_nil : r.rhs ≠ []
  /-- The right-hand side consists of words. -/
  rhs : ∀ s ∈ r.rhs, Symbol.IsWrittenRight s

namespace Grammar

/-- A line that gives rules is one word, an arrow, and alternatives between bars. -/
theorem Line.read_eq_rules {cs : List Char} {lhs : Symbol} {alternatives : List (List Symbol)}
    (h : Line.read cs = .rules lhs alternatives) :
    ∃ left right word, Text.arrowParts (Text.strip cs) = [left, right] ∧
      Text.words left = [word] ∧ lhs = String.ofList word ∧
      alternatives = (Text.fields '|' right).map readAlternative ∧
      usesEndMarker lhs alternatives = false := by
  unfold Line.read at h
  simp only at h
  split at h
  · cases h
  · unfold Line.readStripped at h
    split at h
    · next left right hparts =>
        split at h
        · next word hword =>
            simp only at h
            split at h
            · cases h
            · next huse =>
                cases h
                exact ⟨left, right, word, hparts, hword, rfl, rfl, Bool.eq_false_iff.mpr huse⟩
        · cases h
    · cases h

/-- An alternative has a symbol. -/
theorem readAlternative_ne_nil (cs : List Char) : readAlternative cs ≠ [] := by
  unfold readAlternative
  split
  · exact List.cons_ne_nil epsilon []
  · next hne => exact hne

/-- A symbol of an alternative is the empty marker or comes from a word. -/
theorem mem_readAlternative {cs : List Char} {s : Symbol} (h : s ∈ readAlternative cs) :
    s = epsilon ∨ ∃ w ∈ Text.words cs, s = Symbol.normalize (String.ofList w) := by
  unfold readAlternative at h
  split at h
  · exact Or.inl (List.mem_singleton.mp h)
  · obtain ⟨w, hw, rfl⟩ := List.mem_map.mp h
    exact Or.inr ⟨w, hw, rfl⟩

/-- The rules of a line hold only what can be written in it. -/
theorem isWritten_of_mem_toRules {cs : List Char} {r : Rule} (hr : r ∈ (Line.read cs).toRules) :
    r.IsWritten := by
  cases hline : Line.read cs with
  | blank => exact absurd (hline ▸ hr) List.not_mem_nil
  | malformed text => exact absurd (hline ▸ hr) List.not_mem_nil
  | reserved text => exact absurd (hline ▸ hr) List.not_mem_nil
  | rules lhs alternatives =>
      rw [hline, Line.toRules, List.mem_map] at hr
      obtain ⟨rhs, hrhs, rfl⟩ := hr
      obtain ⟨left, right, word, hparts, hword, rfl, rfl, huse⟩ := Line.read_eq_rules hline
      simp only [usesEndMarker, Bool.or_eq_false_iff, decide_eq_false_iff_not, List.any_eq_false,
        List.contains_iff_mem] at huse
      obtain ⟨hleft, hright⟩ : Text.ArrowFree left ∧ Text.ArrowFree right :=
        ⟨(Text.mem_arrowParts (Text.strip cs) left (by simp [hparts])).1,
          (Text.mem_arrowParts (Text.strip cs) right (by simp [hparts])).1⟩
      obtain ⟨hlhs, hinfix⟩ := Text.mem_words left word (by simp [hword])
      refine ⟨⟨by simpa using hlhs, by simpa using hleft.of_infix hinfix, huse.1⟩, ?_, ?_⟩
      · obtain ⟨field, -, rfl⟩ := List.mem_map.mp hrhs
        exact readAlternative_ne_nil field
      · intro s hs
        have hend : s ≠ endMarker := by
          rintro rfl
          exact huse.2 rhs hrhs hs
        obtain ⟨field, hfield, rfl⟩ := List.mem_map.mp hrhs
        obtain ⟨hbar, hfield⟩ := Text.mem_fields '|' right field hfield
        rcases mem_readAlternative hs with rfl | ⟨w, hw, rfl⟩
        · exact Symbol.isWrittenRight_epsilon
        · obtain ⟨hword, hw⟩ := Text.mem_words field w hw
          apply Symbol.isWrittenRight_normalize
          · simpa using hword
          · simpa using hright.of_infix (hw.trans hfield)
          · simpa using fun hmem => hbar (hw.subset hmem)
          · exact hend

/-- The rules of a grammar that has been read are those of the lines of its text. -/
theorem exists_line_of_read {text : String} {g : Grammar} (h : read text = .ok g) {r : Rule}
    (hr : r ∈ g.rules) : ∃ cs, r ∈ (Line.read cs).toRules := by
  rw [(read_eq_ok_iff.mp h).1, rulesOf, List.mem_flatMap] at hr
  obtain ⟨line, hline, hr⟩ := hr
  rw [readLines, List.mem_map] at hline
  obtain ⟨cs, -, rfl⟩ := hline
  exact ⟨cs, hr⟩

/-- The rules of a grammar that has been read hold only what can be written in a line. -/
theorem isWritten_of_read {text : String} {g : Grammar} (h : read text = .ok g) {r : Rule}
    (hr : r ∈ g.rules) : r.IsWritten := by
  obtain ⟨cs, hline⟩ := exists_line_of_read h hr
  exact isWritten_of_mem_toRules hline

end Grammar

end TableParsing
