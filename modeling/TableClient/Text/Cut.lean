/-!
# Cutting texts

Texts as lists of characters, taken apart at a leading or trailing piece or at each occurrence
of one character.

Results:
* `dropLeading?_eq_some_iff`: what is left after a leading piece was taken away.
* `join_split`: joining the pieces of a cut text gives the text back.
-/

namespace TableClient.Text

/-- What follows `piece`, when the text starts with it. -/
def dropLeading? : List Char → List Char → Option (List Char)
  | [], text => some text
  | _ :: _, [] => none
  | p :: piece, c :: text => if p = c then dropLeading? piece text else none

/-- What precedes `piece`, when the text ends with it. -/
def dropTrailing? (piece text : List Char) : Option (List Char) :=
  (dropLeading? piece.reverse text.reverse).map List.reverse

/-- The pieces of a text between the occurrences of `mark`; there is always at least one. -/
def split (mark : Char) : List Char → List (List Char)
  | [] => [[]]
  | c :: text =>
    if c = mark then [] :: split mark text
    else
      match split mark text with
      | [] => [[c]]
      | piece :: pieces => (c :: piece) :: pieces

/-- The pieces one after another, with `link` between two neighbours. -/
def join (link : List Char) : List (List Char) → List Char
  | [] => []
  | [piece] => piece
  | piece :: next :: pieces => piece ++ link ++ join link (next :: pieces)

/-! ## Lemmas -/

/-- What is left after a leading piece was taken away. -/
theorem dropLeading?_eq_some_iff {piece text rest : List Char} :
    dropLeading? piece text = some rest ↔ text = piece ++ rest := by
  induction piece generalizing text with
  | nil => simp [dropLeading?]
  | cons p piece ih =>
    cases text with
    | nil => simp [dropLeading?]
    | cons c text =>
      by_cases h : p = c
      · subst h; simp [dropLeading?, ih]
      · simp [dropLeading?, h, Ne.symm h]

theorem dropTrailing?_eq_some_iff {piece text rest : List Char} :
    dropTrailing? piece text = some rest ↔ text = rest ++ piece := by
  simp only [dropTrailing?, Option.map_eq_some_iff, dropLeading?_eq_some_iff]
  constructor
  · rintro ⟨before, h, rfl⟩
    have := congrArg List.reverse h
    simpa using this
  · rintro rfl
    exact ⟨rest.reverse, by simp, by simp⟩

theorem split_ne_nil (mark : Char) (text : List Char) : split mark text ≠ [] := by
  cases text with
  | nil => simp [split]
  | cons c text =>
    simp only [split]
    split
    · simp
    · split <;> simp

/-- Joining the pieces of a cut text gives the text back. -/
theorem join_split (mark : Char) (text : List Char) : join [mark] (split mark text) = text := by
  induction text with
  | nil => rfl
  | cons c text ih =>
    simp only [split]
    have hne := split_ne_nil mark text
    split
    · rename_i h
      subst h
      cases hs : split c text with
      | nil => exact absurd hs hne
      | cons piece pieces => rw [← ih, hs]; simp [join]
    · cases hs : split mark text with
      | nil => exact absurd hs hne
      | cons piece pieces =>
        rw [hs] at ih
        cases pieces with
        | nil => simpa [join] using ih
        | cons next pieces => simpa [join] using ih

end TableClient.Text
