import Mathlib
import TableParsing.Text.Lines

/-!
# Pieces of a text

The words, fields and parts of a text are contiguous pieces of it (`mem_words`, `mem_fields`,
`mem_arrowParts`). So what the text does not hold, its pieces do not hold, and each way of cutting
adds something that its pieces do not hold either: a word has no white space, a field no separator,
a part no arrow.

In the other direction, pieces that do not hold these can be put together with blanks, arrows and
line feeds, and the text is cut into the same pieces again (`words_intercalate`,
`arrowParts_append`, `lines_intercalate`). What makes this work is that a line break is white space
(`isBlank_of_isBreak`) and that a blank is no part of an arrow (`ArrowFree.append_blank`).

A text with a line feed in it has the lines of what is before it and of what is after it
(`lines_append_cons_lineFeed`), and those of the first part are its own or one empty line more
(`lines_append_lineFeed_cases`).
-/

namespace TableParsing.Text

variable {c : Char} {cs w : List Char}

/-! ## Words -/

/-- One character or more, and none of them white space. -/
structure IsWord (w : List Char) : Prop where
  /-- There is a character. -/
  ne_nil : w ≠ []
  /-- No character is white space. -/
  not_blank : ∀ c ∈ w, isBlank c = false

/-- A word with one more character. -/
theorem IsWord.cons (hc : isBlank c = false) (h : IsWord w) : IsWord (c :: w) :=
  ⟨List.cons_ne_nil c w, List.forall_mem_cons.mpr ⟨hc, h.not_blank⟩⟩

/-- A word of one character. -/
theorem IsWord.single (hc : isBlank c = false) : IsWord [c] :=
  ⟨List.cons_ne_nil c [], List.forall_mem_singleton.mpr hc⟩

/-- A text that starts inside a word has that word at its front. -/
theorem exists_words_of_startsWord :
    (cs : List Char) → startsWord cs = true →
      ∃ w rest, words cs = w :: rest ∧ IsWord w ∧ w <+: cs
  | c :: cs, h => by
      have hc : isBlank c = false := by simpa [startsWord] using h
      rw [words, if_neg (by simp [hc])]
      split
      · next hstarts =>
          obtain ⟨w, rest, hwords, hw, hfront⟩ := exists_words_of_startsWord cs hstarts
          rw [hwords]
          exact ⟨c :: w, rest, rfl, hw.cons hc, (List.prefix_cons_inj c).mpr hfront⟩
      · exact ⟨[c], words cs, rfl, .single hc, ⟨cs, rfl⟩⟩

/-- The words of a text are words, and pieces of it. -/
theorem mem_words : (cs : List Char) → ∀ w ∈ words cs, IsWord w ∧ w <:+: cs
  | [], w, hw => absurd hw List.not_mem_nil
  | c :: cs, w, hw => by
      have ih : ∀ w ∈ words cs, IsWord w ∧ w <:+: c :: cs := fun w hw =>
        (mem_words cs w hw).imp_right fun h => h.trans (List.suffix_cons c cs).isInfix
      cases hc : isBlank c with
      | true =>
          rw [words_cons_blank hc] at hw
          exact ih w hw
      | false =>
          cases hstarts : startsWord cs with
          | true =>
              obtain ⟨w', rest, hwords, hw', hfront⟩ := exists_words_of_startsWord cs hstarts
              rw [words, if_neg (by simp [hc]), if_pos hstarts, hwords, consHead,
                List.mem_cons] at hw
              rcases hw with rfl | hw
              · exact ⟨hw'.cons hc, ((List.prefix_cons_inj c).mpr hfront).isInfix⟩
              · exact ih w (hwords ▸ List.mem_cons_of_mem _ hw)
          | false =>
              rw [words, if_neg (by simp [hc]), if_neg (by simp [hstarts]), List.mem_cons] at hw
              rcases hw with rfl | hw
              · exact ⟨.single hc, (List.prefix_append [c] cs).isInfix⟩
              · exact ih w hw

/-- A word is its only word. -/
theorem words_of_isWord : (w : List Char) → IsWord w → words w = [w]
  | [], h => absurd rfl h.ne_nil
  | [c], h => by
      have hc := h.not_blank c List.mem_cons_self
      simp [words, startsWord, hc]
  | c :: d :: w, h => by
      obtain ⟨hc, hrest⟩ := List.forall_mem_cons.mp h.not_blank
      have hd := hrest d List.mem_cons_self
      have ih := words_of_isWord (d :: w) ⟨List.cons_ne_nil d w, hrest⟩
      rw [words, if_neg (by simp [hc]), if_pos (by simp [startsWord, hd]), ih, consHead]

/-- Words with blanks between them are found again. -/
theorem words_intercalate : (ws : List (List Char)) → (∀ w ∈ ws, IsWord w) →
    words ([' '].intercalate ws) = ws
  | [], _ => rfl
  | [w], h => by
      rw [List.intercalate_singleton]
      exact words_of_isWord w (h w List.mem_cons_self)
  | w :: w' :: ws, h => by
      obtain ⟨hw, hrest⟩ := List.forall_mem_cons.mp h
      rw [List.intercalate_cons_cons, List.append_assoc, List.singleton_append,
        words_append_blank rfl _ w hw.ne_nil hw.not_blank, words_intercalate (w' :: ws) hrest]

/-- What is in a text of words with blanks between them is a blank or in one of the words. -/
theorem mem_intercalate : (ws : List (List Char)) → c ∈ [' '].intercalate ws →
    c = ' ' ∨ ∃ w ∈ ws, c ∈ w
  | [], hc => absurd hc List.not_mem_nil
  | [w], hc => by
      rw [List.intercalate_singleton] at hc
      exact Or.inr ⟨w, List.mem_cons_self, hc⟩
  | w :: w' :: ws, hc => by
      rw [List.intercalate_cons_cons, List.append_assoc, List.singleton_append, List.mem_append,
        List.mem_cons] at hc
      rcases hc with hc | rfl | hc
      · exact Or.inr ⟨w, List.mem_cons_self, hc⟩
      · exact Or.inl rfl
      · exact (mem_intercalate (w' :: ws) hc).imp_right fun ⟨w, hw, hc⟩ =>
          ⟨w, List.mem_cons_of_mem _ hw, hc⟩

/-- Words with blanks between them do not end in white space. -/
theorem not_blank_of_mem_getLast? : (ws : List (List Char)) → (∀ w ∈ ws, IsWord w) →
    ∀ c ∈ ([' '].intercalate ws).getLast?, isBlank c = false
  | [], _, _, hc => absurd hc (by simp)
  | [w], h, c, hc => by
      rw [List.intercalate_singleton] at hc
      exact (h w List.mem_cons_self).not_blank c (List.mem_of_getLast? hc)
  | w :: w' :: ws, h, c, hc => by
      obtain ⟨-, hrest⟩ := List.forall_mem_cons.mp h
      have hne : [' '].intercalate (w' :: ws) ≠ [] := by
        intro hnil
        have hwords := words_intercalate (w' :: ws) hrest
        rw [hnil] at hwords
        cases hwords
      rw [List.intercalate_cons_cons, List.getLast?_append_of_ne_nil _ hne] at hc
      exact not_blank_of_mem_getLast? (w' :: ws) hrest c hc

/-- A text without white space at its ends is not changed by cutting that off. -/
theorem strip_eq_self (hfirst : ∀ c ∈ cs.head?, isBlank c = false)
    (hlast : ∀ c ∈ cs.getLast?, isBlank c = false) : strip cs = cs := by
  have hdrop : ∀ xs : List Char, (∀ c ∈ xs.head?, isBlank c = false) →
      xs.dropWhile isBlank = xs := by
    intro xs hxs
    cases xs with
    | nil => rfl
    | cons x xs => exact List.dropWhile_cons_of_neg (by simp [hxs x rfl])
  rw [strip, hdrop cs hfirst, hdrop cs.reverse (by rwa [List.head?_reverse]), List.reverse_reverse]

/-! ## Fields -/

/-- What is put in front of the first piece, or is one of the others. -/
theorem mem_consHead {pieces : List (List Char)} {piece : List Char}
    (h : piece ∈ consHead c pieces) :
    piece = c :: pieces.headD [] ∨ piece ∈ pieces.tail := by
  cases pieces with
  | nil => exact Or.inl (List.mem_singleton.mp h)
  | cons first rest => exact List.mem_cons.mp h

/-- The first field is at the front of the text. -/
theorem prefix_headD_fields (separator : Char) :
    (cs : List Char) → (fields separator cs).headD [] <+: cs
  | [] => List.prefix_rfl
  | c :: cs => by
      have ih := prefix_headD_fields separator cs
      unfold fields
      split
      · exact List.nil_prefix
      · cases hfields : fields separator cs with
        | nil => exact List.prefix_append [c] cs
        | cons first rest =>
            rw [hfields] at ih
            exact (List.prefix_cons_inj c).mpr ih

/-- The fields of a text are pieces of it without separators. -/
theorem mem_fields (separator : Char) :
    (cs : List Char) → ∀ field ∈ fields separator cs, separator ∉ field ∧ field <:+: cs
  | [], field, h => by
      rw [List.mem_singleton.mp h]
      exact ⟨List.not_mem_nil, List.infix_rfl⟩
  | c :: cs, field, h => by
      have ih : ∀ field ∈ fields separator cs, separator ∉ field ∧ field <:+: c :: cs :=
        fun field h => (mem_fields separator cs field h).imp_right fun h =>
          h.trans (List.suffix_cons c cs).isInfix
      unfold fields at h
      split at h
      · rcases List.mem_cons.mp h with rfl | h
        · exact ⟨List.not_mem_nil, List.nil_infix⟩
        · exact ih field h
      · next hc =>
          rcases mem_consHead h with rfl | h
          · refine ⟨?_, ((List.prefix_cons_inj c).mpr (prefix_headD_fields _ cs)).isInfix⟩
            rw [List.mem_cons, not_or]
            refine ⟨Ne.symm hc, ?_⟩
            cases hfields : fields separator cs with
            | nil => exact List.not_mem_nil
            | cons first rest => exact (ih first (hfields ▸ List.mem_cons_self)).1
          · exact ih field (List.mem_of_mem_tail h)

/-- A text without separators is one field. -/
theorem fields_of_not_mem (separator : Char) :
    (cs : List Char) → separator ∉ cs → fields separator cs = [cs]
  | [], _ => rfl
  | c :: cs, h => by
      rw [List.mem_cons, not_or] at h
      obtain ⟨hc, hcs⟩ := h
      rw [fields, if_neg (Ne.symm hc), fields_of_not_mem separator cs hcs, consHead]

/-! ## Arrows -/

/-- No arrow is in the text. -/
def ArrowFree (cs : List Char) : Prop := cs.IsChain fun a b => ¬ (a = '-' ∧ b = '>')

/-- A piece of a text without arrows has none. -/
theorem ArrowFree.of_infix (h : ArrowFree cs) (hw : w <:+: cs) : ArrowFree w :=
  List.IsChain.infix h hw

/-- A blank does not complete an arrow. -/
theorem ArrowFree.append_blank {us vs : List Char} (hu : ArrowFree us) (hv : ArrowFree vs) :
    ArrowFree (us ++ ' ' :: vs) := by
  refine List.isChain_append.mpr ⟨hu, List.isChain_cons.mpr ⟨fun b _ h => ?_, hv⟩, ?_⟩
  · exact absurd h.1 (by decide)
  · rintro a - b hb h
    cases hb
    exact absurd h.2 (by decide)

/-- Texts without arrows have none when blanks are put between them. -/
theorem ArrowFree.intercalate : (ws : List (List Char)) → (∀ w ∈ ws, ArrowFree w) →
    ArrowFree ([' '].intercalate ws)
  | [], _ => List.IsChain.nil
  | [w], h => by
      rw [List.intercalate_singleton]
      exact h w List.mem_cons_self
  | w :: w' :: ws, h => by
      obtain ⟨hw, hrest⟩ := List.forall_mem_cons.mp h
      rw [List.intercalate_cons_cons, List.append_assoc, List.singleton_append]
      exact hw.append_blank (intercalate (w' :: ws) hrest)

/-- A character that does not begin an arrow belongs to the first part. -/
theorem arrowParts_cons (h : ¬ (c = '-' ∧ cs.head? = some '>')) :
    arrowParts (c :: cs) = consHead c (arrowParts cs) := by
  rw [arrowParts]
  rintro rest rfl rfl
  exact h ⟨rfl, rfl⟩

/-- A text without arrows is one part. -/
theorem arrowParts_of_arrowFree : (cs : List Char) → ArrowFree cs → arrowParts cs = [cs]
  | [], _ => rfl
  | c :: cs, h => by
      obtain ⟨hc, hcs⟩ := List.isChain_cons.mp h
      rw [arrowParts_cons fun hfirst => hc '>' hfirst.2 ⟨hfirst.1, rfl⟩,
        arrowParts_of_arrowFree cs hcs, consHead]

/-- A text is cut at its first arrow. -/
theorem arrowParts_append (right : List Char) : (left : List Char) → ArrowFree left →
    arrowParts (left ++ '-' :: '>' :: right) = left :: arrowParts right
  | [], _ => rfl
  | c :: left, h => by
      obtain ⟨hc, hleft⟩ := List.isChain_cons.mp h
      have hfirst : ¬ (c = '-' ∧ (left ++ '-' :: '>' :: right).head? = some '>') := by
        rintro ⟨rfl, hhead⟩
        cases left with
        | nil => cases hhead
        | cons d left => exact hc '>' hhead ⟨rfl, rfl⟩
      rw [List.cons_append, arrowParts_cons hfirst, arrowParts_append right left hleft, consHead]

/-- The first part is at the front of the text. -/
theorem prefix_headD_arrowParts : (cs : List Char) → (arrowParts cs).headD [] <+: cs
  | [] => List.prefix_rfl
  | c :: cs => by
      have ih := prefix_headD_arrowParts cs
      by_cases hfirst : c = '-' ∧ cs.head? = some '>'
      · obtain ⟨rfl, hhead⟩ := hfirst
        obtain ⟨cs, rfl⟩ := List.head?_eq_some_iff.mp hhead
        exact List.nil_prefix
      · rw [arrowParts_cons hfirst]
        cases hparts : arrowParts cs with
        | nil => exact List.prefix_append [c] cs
        | cons first rest =>
            rw [hparts] at ih
            exact (List.prefix_cons_inj c).mpr ih

/-- The parts of a text are pieces of it without arrows. -/
theorem mem_arrowParts : (cs : List Char) → ∀ part ∈ arrowParts cs, ArrowFree part ∧ part <:+: cs
  | [], part, h => by
      rw [List.mem_singleton.mp h]
      exact ⟨List.IsChain.nil, List.infix_rfl⟩
  | c :: cs, part, h => by
      have ih : ∀ part ∈ arrowParts cs, ArrowFree part ∧ part <:+: c :: cs := fun part h =>
        (mem_arrowParts cs part h).imp_right fun h => h.trans (List.suffix_cons c cs).isInfix
      by_cases hfirst : c = '-' ∧ cs.head? = some '>'
      · obtain ⟨rfl, hhead⟩ := hfirst
        obtain ⟨rest, rfl⟩ := List.head?_eq_some_iff.mp hhead
        rcases List.mem_cons.mp h with rfl | h
        · exact ⟨List.IsChain.nil, List.nil_infix⟩
        · have hsuffix : rest <:+ '-' :: '>' :: rest := List.suffix_append ['-', '>'] rest
          exact (mem_arrowParts rest part h).imp_right fun h => h.trans hsuffix.isInfix
      · rw [arrowParts_cons hfirst] at h
        rcases mem_consHead h with rfl | h
        · have hfront := prefix_headD_arrowParts cs
          refine ⟨List.isChain_cons.mpr ⟨fun b hb hpair => hfirst ⟨hpair.1, ?_⟩, ?_⟩,
            ((List.prefix_cons_inj c).mpr hfront).isInfix⟩
          · obtain ⟨rest, hrest⟩ := hfront
            rw [← hrest, List.head?_append, Option.mem_def.mp hb, hpair.2]
            rfl
          · cases hparts : arrowParts cs with
            | nil => exact List.IsChain.nil
            | cons first rest => exact (ih first (hparts ▸ List.mem_cons_self)).1
        · exact ih part (List.mem_of_mem_tail h)
termination_by cs => cs.length

/-! ## Lines -/

/-- A line break is white space. -/
theorem isBlank_of_isBreak (h : isBreak c = true) : isBlank c = true := by
  simp only [isBreak, Bool.or_eq_true, Bool.and_eq_true, decide_eq_true_eq, beq_iff_eq] at h
  simp only [isBlank, Bool.or_eq_true, Bool.and_eq_true, decide_eq_true_eq, beq_iff_eq]
  omega

/-- A character that breaks no line belongs to the first line. -/
theorem lines_cons (hc : isBreak c = false) : lines (c :: cs) = consHead c (lines cs) := by
  rw [lines, if_neg (by simp [hc])]
  rintro rest rfl -
  cases hc

/-- One more character in front of some lines: a break ends a line of its own, and any other
character belongs to the first line. -/
def addFront (c : Char) (ls : List (List Char)) : List (List Char) :=
  if isBreak c then [] :: ls else consHead c ls

/-- There is a line after a character has been put in front. -/
theorem addFront_ne_nil (c : Char) (ls : List (List Char)) : addFront c ls ≠ [] := by
  unfold addFront
  split
  · exact List.cons_ne_nil _ _
  · cases ls <;> exact List.cons_ne_nil _ _

/-- What is put in front does not reach behind the first line. -/
theorem addFront_append {ls : List (List Char)} (h : ls ≠ []) (others : List (List Char)) :
    addFront c (ls ++ others) = addFront c ls ++ others := by
  obtain ⟨first, rest, rfl⟩ := List.exists_cons_of_ne_nil h
  unfold addFront
  split <;> rfl

/-- The lines of a text by its first character, unless that is the first half of a break. -/
theorem lines_eq_addFront (h : ¬ (c = '\r' ∧ cs.head? = some '\n')) :
    lines (c :: cs) = addFront c (lines cs) := by
  rw [lines, addFront]
  rintro rest rfl rfl
  exact h ⟨rfl, rfl⟩

/-- A text that is not empty has a line. -/
theorem lines_ne_nil : (cs : List Char) → cs ≠ [] → lines cs ≠ []
  | [], h => absurd rfl h
  | c :: cs, _ => by
      by_cases hfirst : c = '\r' ∧ cs.head? = some '\n'
      · obtain ⟨rfl, hhead⟩ := hfirst
        obtain ⟨rest, rfl⟩ := List.head?_eq_some_iff.mp hhead
        exact List.cons_ne_nil _ _
      · rw [lines_eq_addFront hfirst]
        exact addFront_ne_nil c _

/-- A text is cut behind a line feed, also behind one that completes a break. -/
theorem lines_append_cons_lineFeed (rest : List Char) :
    (cs : List Char) → lines (cs ++ '\n' :: rest) = lines (cs ++ ['\n']) ++ lines rest
  | [] => rfl
  | c :: cs => by
      have hhead : (cs ++ '\n' :: rest).head? = (cs ++ ['\n']).head? := by cases cs <;> rfl
      by_cases hfirst : c = '\r' ∧ (cs ++ ['\n']).head? = some '\n'
      · obtain ⟨rfl, hfeed⟩ := hfirst
        cases cs with
        | nil => rfl
        | cons d cs =>
            cases hfeed
            exact congrArg ([] :: ·) (lines_append_cons_lineFeed rest cs)
      · rw [List.cons_append, List.cons_append, lines_eq_addFront hfirst,
          lines_eq_addFront (by rwa [hhead]), lines_append_cons_lineFeed rest cs,
          addFront_append (lines_ne_nil _ (by simp))]
termination_by cs => cs.length

/-- A line feed at the end of a text adds nothing to its lines, or an empty line. -/
theorem lines_append_lineFeed_cases :
    (cs : List Char) → lines (cs ++ ['\n']) = lines cs ∨ lines (cs ++ ['\n']) = lines cs ++ [[]]
  | [] => Or.inr rfl
  | c :: cs => by
      by_cases hfirst : c = '\r' ∧ (cs ++ ['\n']).head? = some '\n'
      · obtain ⟨rfl, hfeed⟩ := hfirst
        cases cs with
        | nil => exact Or.inl rfl
        | cons d cs =>
            cases hfeed
            exact (lines_append_lineFeed_cases cs).imp (congrArg ([] :: ·)) (congrArg ([] :: ·))
      · have hshort : ¬ (c = '\r' ∧ cs.head? = some '\n') := by
          rintro ⟨rfl, hfeed⟩
          exact hfirst ⟨rfl, by rw [List.head?_append, hfeed]; rfl⟩
        rw [List.cons_append, lines_eq_addFront hfirst, lines_eq_addFront hshort]
        by_cases hempty : cs = []
        · -- The line feed ends the line of the last character, or stands behind a break.
          subst hempty
          unfold addFront
          split
          · exact Or.inr rfl
          · exact Or.inl rfl
        · rw [← addFront_append (lines_ne_nil cs hempty)]
          exact (lines_append_lineFeed_cases cs).imp (congrArg (addFront c)) (congrArg (addFront c))
termination_by cs => cs.length

/-- A line feed ends a line. -/
theorem lines_append_lineFeed (rest : List Char) : (line : List Char) →
    (∀ c ∈ line, isBreak c = false) → lines (line ++ '\n' :: rest) = line :: lines rest
  | [], _ => rfl
  | c :: line, h => by
      obtain ⟨hc, hline⟩ := List.forall_mem_cons.mp h
      rw [List.cons_append, lines_cons hc, lines_append_lineFeed rest line hline, consHead]

/-- A text of one line. -/
theorem lines_of_unbroken :
    (line : List Char) → line ≠ [] → (∀ c ∈ line, isBreak c = false) → lines line = [line]
  | [], h, _ => absurd rfl h
  | c :: line, _, h => by
      obtain ⟨hc, hline⟩ := List.forall_mem_cons.mp h
      rw [lines_cons hc]
      cases line with
      | nil => rfl
      | cons d line => rw [lines_of_unbroken (d :: line) (List.cons_ne_nil d line) hline, consHead]

/-- Lines that are not empty, with line feeds between them, are found again. -/
theorem lines_intercalate : (ls : List (List Char)) →
    (∀ line ∈ ls, line ≠ [] ∧ ∀ c ∈ line, isBreak c = false) →
      lines (['\n'].intercalate ls) = ls
  | [], _ => rfl
  | [line], h => by
      obtain ⟨hne, hunbroken⟩ := h line List.mem_cons_self
      rw [List.intercalate_singleton]
      exact lines_of_unbroken line hne hunbroken
  | line :: line' :: ls, h => by
      obtain ⟨hline, hrest⟩ := List.forall_mem_cons.mp h
      rw [List.intercalate_cons_cons, List.append_assoc, List.singleton_append,
        lines_append_lineFeed _ line hline.2, lines_intercalate (line' :: ls) hrest]

end TableParsing.Text
