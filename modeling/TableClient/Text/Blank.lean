/-!
# Blanks

The blanks are the characters with the Unicode property `White_Space`; every place of this
library that trims a text or cuts it into words uses this set. Texts are lists of characters.

Results:
* `mem_words`: a word is not empty and holds no blank.
-/

namespace TableClient.Text

/-- The code points with the property `White_Space`, as inclusive ranges. -/
def blankRanges : List (Nat × Nat) :=
  [(0x9, 0xD), (0x20, 0x20), (0x85, 0x85), (0xA0, 0xA0), (0x1680, 0x1680), (0x2000, 0x200A),
    (0x2028, 0x2029), (0x202F, 0x202F), (0x205F, 0x205F), (0x3000, 0x3000)]

/-- Whether a character is a blank. -/
def isBlank (c : Char) : Bool :=
  blankRanges.any fun range => range.1 ≤ c.toNat && c.toNat ≤ range.2

/-- The text without the blanks it starts with. -/
def trimStart (text : List Char) : List Char := text.dropWhile isBlank

/-- The text without the blanks it ends with. -/
def trimEnd (text : List Char) : List Char := (trimStart text.reverse).reverse

/-- The text without the blanks at either end. -/
def trim (text : List Char) : List Char := trimEnd (trimStart text)

/-- Adds the word read so far, kept in reverse, to the words after it. -/
def closeWord (word : List Char) (rest : List (List Char)) : List (List Char) :=
  if word.isEmpty then rest else word.reverse :: rest

/-- The words of a text when `word`, in reverse, is what has been read of the current one. -/
def wordsFrom (word : List Char) : List Char → List (List Char)
  | [] => closeWord word []
  | c :: rest => if isBlank c then closeWord word (wordsFrom [] rest) else wordsFrom (c :: word) rest

/-- The longest pieces of a text that hold no blank. -/
def words (text : List Char) : List (List Char) := wordsFrom [] text

/-! ## Lemmas -/

theorem isBlank_space : isBlank ' ' = true := by decide

theorem mem_wordsFrom {word text w : List Char} (hword : ∀ c ∈ word, isBlank c = false)
    (h : w ∈ wordsFrom word text) : w ≠ [] ∧ ∀ c ∈ w, isBlank c = false := by
  have close : ∀ word rest, (∀ c ∈ word, isBlank c = false) → w ∈ closeWord word rest →
      w ∉ rest → w ≠ [] ∧ ∀ c ∈ w, isBlank c = false := by
    intro word rest hword hm hrest
    unfold closeWord at hm
    split at hm
    · exact absurd hm hrest
    · rename_i hne
      rcases List.mem_cons.1 hm with rfl | hm
      · refine ⟨?_, fun c hc => hword c (List.mem_reverse.1 hc)⟩
        simpa using hne
      · exact absurd hm hrest
  induction text generalizing word with
  | nil => exact close word [] hword h (by simp)
  | cons c rest ih =>
    simp only [wordsFrom] at h
    split at h
    · by_cases hrest : w ∈ wordsFrom [] rest
      · exact ih (by simp) hrest
      · exact close word _ hword h hrest
    · rename_i hc
      refine ih ?_ h
      intro d hd
      rcases List.mem_cons.1 hd with rfl | hd
      · simpa using hc
      · exact hword d hd

/-- A word is not empty and holds no blank. -/
theorem mem_words {text w : List Char} (h : w ∈ words text) :
    w ≠ [] ∧ ∀ c ∈ w, isBlank c = false :=
  mem_wordsFrom (by simp) h

end TableClient.Text
