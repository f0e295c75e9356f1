/-!
# White space

The characters that separate words, and the two things done with them: cutting the white space
off both ends of a text (`strip`) and listing its words (`words`).

Both work on lists of characters, so that their lemmas are inductions on the list. The main
statement is `words_append_blank`: a word followed by a blank is the first word, whatever comes
after the blank.
-/

namespace TableParsing.Text

/-- The white space of Unicode, with the separators U+001C to U+001F. -/
def isBlank (c : Char) : Bool :=
  let n := c.toNat
  (0x09 ≤ n && n ≤ 0x0D) || (0x1C ≤ n && n ≤ 0x20) || n == 0x85 || n == 0xA0 || n == 0x1680 ||
    (0x2000 ≤ n && n ≤ 0x200A) || n == 0x2028 || n == 0x2029 || n == 0x202F || n == 0x205F ||
    n == 0x3000

/-- The text without the white space at its two ends. -/
def strip (cs : List Char) : List Char :=
  ((cs.dropWhile isBlank).reverse.dropWhile isBlank).reverse

/-- Puts a character in front of the first piece of a list of pieces. -/
def consHead (c : Char) : List (List Char) → List (List Char)
  | [] => [[c]]
  | piece :: pieces => (c :: piece) :: pieces

/-- Whether a text starts inside a word. -/
def startsWord : List Char → Bool
  | [] => false
  | c :: _ => !isBlank c

/-- The maximal runs of characters that are not white space, from left to right. -/
def words : List Char → List (List Char)
  | [] => []
  | c :: cs =>
    if isBlank c then words cs
    else if startsWord cs then consHead c (words cs)
    else [c] :: words cs

/-! ## Lemmas -/

@[simp] theorem words_nil : words [] = [] := rfl

/-- White space in front adds no word. -/
theorem words_cons_blank {c : Char} (h : isBlank c = true) (cs : List Char) :
    words (c :: cs) = words cs := by
  simp [words, h]

/-- A word that ends at a blank is listed first, before the words that follow. -/
theorem words_append_blank {b : Char} (hb : isBlank b = true) (rest : List Char) :
    (w : List Char) → w ≠ [] → (∀ c ∈ w, isBlank c = false) →
      words (w ++ b :: rest) = w :: words rest
  | [], h, _ => absurd rfl h
  | [c], _, h => by
    have hc : isBlank c = false := h c (by simp)
    simp [words, hc, startsWord, hb]
  | c :: d :: w, _, h => by
    have hc : isBlank c = false := h c (by simp)
    have hd : isBlank d = false := h d (by simp)
    have ih := words_append_blank hb rest (d :: w) (by simp)
      (fun x hx => h x (List.mem_cons_of_mem _ hx))
    rw [List.cons_append] at ih
    rw [List.cons_append, List.cons_append, words]
    simp [hc, startsWord, hd, ih, consHead]

end TableParsing.Text
