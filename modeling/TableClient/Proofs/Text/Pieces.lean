import Mathlib
import TableClient.Text.Blank
import TableClient.Text.Cut

/-!
# Pieces of texts

A text is cut at marks: at each occurrence of one character, or into the longest pieces that hold
no character of a kind. The words of a text are its pieces between blanks.

A text is evenly spaced if it starts and ends with a character that is no blank and its blanks are
single spaces. What is left of such a text when it is cut at each space are words.

Results:
* `split_eq_splitOn`, `join_eq_intercalate`: cutting and joining are those of the standard library.
* `pieces_join`: the pieces of texts joined by a mark are those of the texts.
* `words_join`: words that are joined by spaces are the words of the text.
* `exists_trim`: a text is its trimmed text with blanks around it.
-/

namespace TableClient.Text

/-! ## Cutting at one character -/

theorem split_eq_splitOn (mark : Char) (text : List Char) :
    split mark text = text.splitOn mark := by
  induction text with
  | nil => rfl
  | cons c text ih =>
    rw [List.splitOn_cons_eq_if_modifyHead, split, ih]
    by_cases h : c = mark
    · simp [h]
    · cases hs : text.splitOn mark with
      | nil => exact absurd hs (List.splitOn_ne_nil mark text)
      | cons piece pieces => simp [h]

theorem join_eq_intercalate (link : List Char) (pieces : List (List Char)) :
    join link pieces = link.intercalate pieces := by
  fun_induction join link pieces with
  | case1 => rfl
  | case2 piece => rw [List.intercalate_singleton]
  | case3 piece next pieces ih => rw [List.intercalate_cons_cons, ih]

theorem split_append_cons (mark : Char) (x y : List Char) :
    split mark (x ++ mark :: y) = split mark x ++ split mark y := by
  simp only [split_eq_splitOn, List.splitOn_append_cons_self]

theorem split_of_not_mem {mark : Char} {text : List Char} (h : mark ∉ text) :
    split mark text = [text] := by
  rw [split_eq_splitOn, List.splitOn_eq_singleton h]

theorem split_append_of_not_mem {mark : Char} {front : List Char} (h : mark ∉ front)
    (rest : List Char) :
    split mark (front ++ rest) = (split mark rest).modifyHead (front ++ ·) := by
  induction front with
  | nil => cases hs : split mark rest <;> simp [hs]
  | cons c front ih =>
    obtain ⟨hc, hfront⟩ := List.ne_and_not_mem_of_not_mem_cons h
    rw [List.cons_append, split, if_neg hc.symm, ih hfront]
    cases hs : split mark rest with
    | nil => exact absurd hs (split_ne_nil mark rest)
    | cons piece pieces => rfl

/-- A piece without a certain character stands before or behind the piece that has it. -/
theorem mem_split_append_cons {mark c : Char} (hc : c ≠ mark) {x y piece : List Char}
    (h : piece ∈ split mark (x ++ c :: y)) (hpiece : c ∉ piece) :
    piece ∈ split mark x ∨ piece ∈ (split mark y).tail := by
  induction hlen : x.length using Nat.strong_induction_on generalizing x with
  | _ n ih =>
    by_cases hmark : mark ∈ x
    · obtain ⟨front, rest, rfl⟩ := List.append_of_mem hmark
      rw [List.length_append, List.length_cons] at hlen
      rw [List.append_assoc, List.cons_append, split_append_cons] at h
      rw [split_append_cons, List.mem_append]
      rcases List.mem_append.mp h with h | h
      · exact .inl (.inl h)
      · rcases ih rest.length (by omega) h rfl with h | h
        · exact .inl (.inr h)
        · exact .inr h
    · have hfront : mark ∉ x ++ [c] := by simp [hmark, hc.symm]
      rw [← List.singleton_append, ← List.append_assoc, split_append_of_not_mem hfront] at h
      cases hs : split mark y with
      | nil => exact absurd hs (split_ne_nil mark y)
      | cons first rest =>
        rw [hs, List.modifyHead_cons] at h
        rcases List.mem_cons.mp h with rfl | h
        · exact absurd (by simp) hpiece
        · exact .inr h

/-- Cutting takes apart what joining put together. -/
theorem split_join {mark : Char} {pieces : List (List Char)} (hne : pieces ≠ [])
    (h : ∀ piece ∈ pieces, mark ∉ piece) : split mark (join [mark] pieces) = pieces := by
  rw [split_eq_splitOn, join_eq_intercalate, List.splitOn_intercalate mark h hne]

/-- A text is cut at its first mark in one way. -/
theorem append_mark_inj {mark : Char} {x y rest other : List Char} (hx : mark ∉ x) (hy : mark ∉ y)
    (h : x ++ mark :: rest = y ++ mark :: other) : x = y ∧ rest = other := by
  have hsplit := congrArg (split mark) h
  rw [split_append_cons, split_append_cons, split_of_not_mem hx, split_of_not_mem hy] at hsplit
  obtain rfl := (List.cons.inj hsplit).1
  exact ⟨rfl, (List.cons.inj (List.append_cancel_left h)).2⟩

/-- What stands in front without the mark is part of what stands before the mark. -/
theorem prefix_of_append_mark {mark : Char} {front x rest other : List Char} (hfront : mark ∉ front)
    (h : front ++ other = x ++ mark :: rest) : front <+: x := by
  rcases List.append_eq_append_iff.mp h with ⟨middle, rfl, -⟩ | ⟨middle, rfl, hmiddle⟩
  · exact List.prefix_append front middle
  · cases middle with
    | nil => rw [List.append_nil]
    | cons c middle =>
      obtain ⟨rfl, -⟩ := List.cons.inj hmiddle
      exact absurd (List.mem_append_right x List.mem_cons_self) hfront

theorem not_mem_of_mem_split {mark : Char} {text piece : List Char} (h : piece ∈ split mark text) :
    mark ∉ piece := by
  induction text generalizing piece with
  | nil => simp_all [split]
  | cons c text ih =>
    rw [split] at h
    split_ifs at h with hc
    · rcases List.mem_cons.mp h with rfl | h
      · exact List.not_mem_nil
      · exact ih h
    · cases hs : split mark text with
      | nil => exact absurd hs (split_ne_nil mark text)
      | cons first rest =>
        rw [hs] at h ih
        rcases List.mem_cons.mp h with rfl | h
        · simpa [Ne.symm hc] using ih List.mem_cons_self
        · exact ih (List.mem_cons_of_mem _ h)

theorem join_cons {link piece : List Char} {pieces : List (List Char)} (h : pieces ≠ []) :
    join link (piece :: pieces) = piece ++ link ++ join link pieces := by
  simp only [join_eq_intercalate, List.intercalate_cons_of_ne_nil h]

theorem join_append {link : List Char} {pieces others : List (List Char)} (hp : pieces ≠ [])
    (ho : others ≠ []) :
    join link (pieces ++ others) = join link pieces ++ link ++ join link others := by
  induction pieces with
  | nil => exact absurd rfl hp
  | cons piece pieces ih =>
    by_cases hnil : pieces = []
    · subst hnil
      exact join_cons ho
    · rw [List.cons_append, join_cons (by simp [hnil]), join_cons hnil, ih hnil]
      simp only [List.append_assoc]

theorem mem_intercalate_of_mem {α : Type} {link : List α} {pieces : List (List α)}
    {piece : List α} {x : α} (hpiece : piece ∈ pieces) (hx : x ∈ piece) :
    x ∈ link.intercalate pieces := by
  induction pieces with
  | nil => exact absurd hpiece List.not_mem_nil
  | cons first pieces ih =>
    by_cases hnil : pieces = []
    · subst hnil
      rw [List.intercalate_singleton, ← List.mem_singleton.mp hpiece]
      exact hx
    · rw [List.intercalate_cons_of_ne_nil hnil]
      rcases List.mem_cons.mp hpiece with rfl | hpiece
      · exact List.mem_append_left _ (List.mem_append_left _ hx)
      · exact List.mem_append_right _ (ih hpiece)

theorem mem_intercalate {α : Type} {link : List α} {pieces : List (List α)} {x : α}
    (h : x ∈ link.intercalate pieces) : x ∈ link ∨ ∃ piece ∈ pieces, x ∈ piece := by
  induction pieces with
  | nil => exact absurd h List.not_mem_nil
  | cons first pieces ih =>
    by_cases hnil : pieces = []
    · subst hnil
      rw [List.intercalate_singleton] at h
      exact .inr ⟨first, List.mem_singleton_self first, h⟩
    · rw [List.intercalate_cons_of_ne_nil hnil, List.mem_append, List.mem_append] at h
      rcases h with (h | h) | h
      · exact .inr ⟨first, List.mem_cons_self, h⟩
      · exact .inl h
      · rcases ih h with h | ⟨piece, hpiece, h⟩
        · exact .inl h
        · exact .inr ⟨piece, List.mem_cons_of_mem first hpiece, h⟩

theorem intercalate_ne_nil {α : Type} {link : List α} {pieces : List (List α)} (hne : pieces ≠ [])
    (h : ∀ piece ∈ pieces, piece ≠ []) : link.intercalate pieces ≠ [] := by
  obtain ⟨piece, rest, rfl⟩ := List.exists_cons_of_ne_nil hne
  obtain ⟨x, more, hpiece⟩ := List.exists_cons_of_ne_nil (h piece List.mem_cons_self)
  rw [hpiece, List.intercalate_cons_cons_left]
  exact List.cons_ne_nil _ _

/-- Words in rows that are joined with a word between two rows. -/
theorem join_intercalate {word : List Char} {rows : List (List (List Char))}
    (h : ∀ row ∈ rows, row ≠ []) : join [' '] ([word].intercalate rows) =
      join (' ' :: (word ++ [' '])) (rows.map (join [' '])) := by
  induction rows with
  | nil => rfl
  | cons row rows ih =>
    have hrest := ih fun other hother => h other (List.mem_cons_of_mem row hother)
    by_cases hnil : rows = []
    · subst hnil
      rw [List.intercalate_singleton]
      rfl
    · have hne : [word].intercalate rows ≠ [] :=
        intercalate_ne_nil hnil fun other hother => h other (List.mem_cons_of_mem row hother)
      rw [List.intercalate_cons_of_ne_nil hnil, List.append_assoc,
        join_append (h row List.mem_cons_self) (by simp), List.singleton_append, join_cons hne,
        hrest, List.map_cons, join_cons (by simpa using hnil)]
      simp

theorem mem_join {link : List Char} {pieces : List (List Char)} {c : Char}
    (h : c ∈ join link pieces) : c ∈ link ∨ ∃ piece ∈ pieces, c ∈ piece :=
  mem_intercalate (join_eq_intercalate link pieces ▸ h)

/-! ## Pieces -/

/-- The longest pieces of a text that hold none of the characters that cut. -/
def pieces (cuts : Char → Bool) (text : List Char) : List (List Char) :=
  (text.splitOnP cuts).filter fun piece => !piece.isEmpty

variable {cuts : Char → Bool}

theorem pieces_append_cons {c : Char} (hc : cuts c = true) (x y : List Char) :
    pieces cuts (x ++ c :: y) = pieces cuts x ++ pieces cuts y := by
  rw [pieces, List.splitOnP_append_cons x y hc, List.filter_append, pieces, pieces]

@[simp] theorem pieces_nil : pieces cuts [] = [] := by simp [pieces]

theorem pieces_cons {c : Char} (hc : cuts c = true) (text : List Char) :
    pieces cuts (c :: text) = pieces cuts text := by
  simpa using pieces_append_cons hc [] text

/-- A text that nothing cuts is one piece. -/
theorem pieces_of_forall {text : List Char} (hne : text ≠ []) (h : ∀ c ∈ text, cuts c = false) :
    pieces cuts text = [text] := by
  rw [pieces, List.splitOnP_eq_singleton h]
  simp [hne]

/-- What cuts at an end leaves the pieces as they are. -/
theorem pieces_append_of_forall {text rest : List Char} (h : ∀ c ∈ rest, cuts c = true) :
    pieces cuts (text ++ rest) = pieces cuts text := by
  induction rest generalizing text with
  | nil => rw [List.append_nil]
  | cons c rest ih =>
    have hrest := @ih [] fun d hd => h d (List.mem_cons_of_mem c hd)
    rw [pieces_append_cons (h c List.mem_cons_self)]
    simpa using hrest

theorem pieces_append_left {front text : List Char} (h : ∀ c ∈ front, cuts c = true) :
    pieces cuts (front ++ text) = pieces cuts text := by
  induction front with
  | nil => rfl
  | cons c front ih =>
    rw [List.cons_append, pieces_cons (h c List.mem_cons_self),
      ih fun d hd => h d (List.mem_cons_of_mem c hd)]

/-- The pieces of texts joined by a link that cuts. -/
theorem pieces_join {mark : Char} (hmark : cuts mark = true) (texts : List (List Char)) :
    pieces cuts (join [mark] texts) = texts.flatMap (pieces cuts) := by
  fun_induction join [mark] texts with
  | case1 => simp
  | case2 text => simp
  | case3 text next texts ih =>
    rw [List.append_assoc, List.singleton_append, pieces_append_cons hmark, ih]
    rfl

/-! ## Words -/

theorem wordsFrom_eq_pieces {word text : List Char} (hword : ∀ c ∈ word, isBlank c = false) :
    wordsFrom word text = pieces isBlank (word.reverse ++ text) := by
  have close : ∀ rest, closeWord word rest = pieces isBlank word.reverse ++ rest := by
    intro rest
    by_cases hnil : word = []
    · simp [hnil, closeWord]
    · rw [pieces_of_forall (by simpa using hnil) (by simpa using hword)]
      simp [closeWord, hnil]
  induction text generalizing word with
  | nil => rw [wordsFrom, close, List.append_nil, List.append_nil]
  | cons c text ih =>
    rw [wordsFrom]
    split_ifs with hc
    · rw [pieces_append_cons hc, close, @ih [] (by simp) (by simp [closeWord])]
      simp
    · have hc : isBlank c = false := by simpa using hc
      have hcons : ∀ d ∈ c :: word, isBlank d = false := by
        simpa [hc] using hword
      rw [ih hcons, List.reverse_cons, List.append_assoc, List.singleton_append]
      intro rest
      rw [pieces_of_forall (by simp) (by simpa [or_imp, forall_and, hc] using hword)]
      simp [closeWord]

/-- The words of a text are its pieces between blanks. -/
theorem words_eq_pieces (text : List Char) : words text = pieces isBlank text := by
  rw [words, wordsFrom_eq_pieces (by simp)]
  rfl

/-- Words that are joined by spaces are the words of the text. -/
theorem words_join {ws : List (List Char)} (h : ∀ w ∈ ws, w ≠ [] ∧ ∀ c ∈ w, isBlank c = false) :
    words (join [' '] ws) = ws := by
  rw [words_eq_pieces, pieces_join isBlank_space]
  have hself : ∀ w ∈ ws, pieces isBlank w = [w] := fun w hw =>
    pieces_of_forall (h w hw).1 (h w hw).2
  rw [List.flatMap_congr hself]
  exact List.flatMap_singleton' ws

/-! ## Evenly spaced texts -/

/-- A text whose blanks are single spaces, each between two characters that are no blanks. -/
inductive Spaced : List Char → Prop
  | last {c : Char} (hc : isBlank c = false) : Spaced [c]
  | next {c : Char} {text : List Char} (hc : isBlank c = false) (h : Spaced text) :
    Spaced (c :: text)
  | space {c : Char} {text : List Char} (hc : isBlank c = false) (h : Spaced text) :
    Spaced (c :: ' ' :: text)

namespace Spaced

variable {x y text : List Char}

theorem ne_nil (h : Spaced text) : text ≠ [] := by
  cases h <;> simp

theorem head_not_blank {c : Char} (h : Spaced (c :: text)) : isBlank c = false := by
  cases h <;> assumption

theorem of_not_blank (hne : text ≠ []) (h : ∀ c ∈ text, isBlank c = false) : Spaced text := by
  induction text with
  | nil => exact absurd rfl hne
  | cons c text ih =>
    have hc := h c List.mem_cons_self
    by_cases hnil : text = []
    · subst hnil
      exact last hc
    · exact next hc (ih hnil fun d hd => h d (List.mem_cons_of_mem c hd))

theorem append (hx : Spaced x) (hy : Spaced y) : Spaced (x ++ y) := by
  induction hx with
  | last hc => exact next hc hy
  | next hc _ ih => exact next hc ih
  | space hc _ ih => exact space hc ih

theorem append_space (hx : Spaced x) (hy : Spaced y) : Spaced (x ++ ' ' :: y) := by
  induction hx with
  | last hc => exact space hc hy
  | next hc _ ih => exact next hc ih
  | space hc _ ih => exact space hc ih

theorem reverse (h : Spaced text) : Spaced text.reverse := by
  induction h with
  | last hc => exact last hc
  | next hc _ ih =>
    rw [List.reverse_cons]
    exact ih.append (last hc)
  | space hc _ ih =>
    rw [List.reverse_cons, List.reverse_cons, List.append_assoc]
    exact ih.append_space (last hc)

/-- Between the spaces of an evenly spaced text stand words. -/
theorem mem_split (h : Spaced text) :
    ∀ w ∈ split ' ' text, w ≠ [] ∧ ∀ c ∈ w, isBlank c = false := by
  have hspace : ∀ {c : Char}, isBlank c = false → c ≠ ' ' := by
    rintro c hc rfl
    rw [isBlank_space] at hc
    contradiction
  induction h with
  | last hc => simp [split, hspace hc, hc]
  | @next c text hc _ ih =>
    rw [split, if_neg (hspace hc)]
    cases hs : split ' ' text with
    | nil => exact absurd hs (split_ne_nil ' ' text)
    | cons first rest =>
      rw [hs] at ih
      have hfirst := (ih first List.mem_cons_self).2
      intro w hw
      rcases List.mem_cons.mp hw with rfl | hw
      · simpa [hc] using hfirst
      · exact ih w (List.mem_cons_of_mem _ hw)
  | @space c text hc _ ih =>
    have hsplit : split ' ' (c :: ' ' :: text) = [c] :: split ' ' text := by
      rw [← List.singleton_append, split_append_cons,
        split_of_not_mem (by simpa using (hspace hc).symm)]
      rfl
    rw [hsplit]
    intro w hw
    rcases List.mem_cons.mp hw with rfl | hw
    · simp [hc]
    · exact ih w hw

/-- Words that are joined by spaces are evenly spaced. -/
theorem of_join {ws : List (List Char)} (hne : ws ≠ [])
    (h : ∀ w ∈ ws, w ≠ [] ∧ ∀ c ∈ w, isBlank c = false) : Spaced (join [' '] ws) := by
  induction ws with
  | nil => exact absurd rfl hne
  | cons w ws ih =>
    have hw := h w List.mem_cons_self
    have hspaced : Spaced w := of_not_blank hw.1 hw.2
    by_cases hnil : ws = []
    · subst hnil
      exact hspaced
    · rw [join_cons hnil, List.append_assoc, List.singleton_append]
      exact hspaced.append_space (ih hnil fun v hv => h v (List.mem_cons_of_mem w hv))

end Spaced

/-! ## Trimming -/

/-- A text is its trimmed text with blanks around it. -/
theorem exists_trim (text : List Char) : ∃ before after, text = before ++ trim text ++ after ∧
    (∀ c ∈ before, isBlank c = true) ∧ ∀ c ∈ after, isBlank c = true := by
  refine ⟨text.takeWhile isBlank, ((trimStart text).reverse.takeWhile isBlank).reverse, ?_,
    fun c hc => List.mem_takeWhile_imp hc,
    fun c hc => List.mem_takeWhile_imp (List.mem_reverse.mp hc)⟩
  have hend : trimStart text =
      trim text ++ ((trimStart text).reverse.takeWhile isBlank).reverse := by
    have h := List.takeWhile_append_dropWhile (p := isBlank) (l := (trimStart text).reverse)
    rw [trim, trimEnd, ← List.reverse_append]
    exact (congrArg List.reverse h).trans (List.reverse_reverse _) |>.symm
  rw [List.append_assoc, ← hend, trimStart, List.takeWhile_append_dropWhile]

/-- Trimming takes away all blanks in front of a text that holds none. -/
theorem trim_append_of_not_blank {front text : List Char} (hfront : ∀ c ∈ front, isBlank c = true)
    (h : ∀ c ∈ text, isBlank c = false) : trim (front ++ text) = text := by
  have hself : ∀ {t : List Char}, (∀ c ∈ t, isBlank c = false) → trimStart t = t := by
    intro t ht
    cases t with
    | nil => rfl
    | cons c t => simp [trimStart, ht c List.mem_cons_self]
  have hstart : trimStart (front ++ text) = text := by
    rw [trimStart, List.dropWhile_append_of_pos hfront]
    exact hself h
  rw [trim, hstart, trimEnd, hself (by simpa using h), List.reverse_reverse]

/-! ## Texts without their blanks -/

/-- A text without its blanks. -/
def squeeze (text : List Char) : List Char := text.filter fun c => !isBlank c

@[simp] theorem squeeze_append (x y : List Char) : squeeze (x ++ y) = squeeze x ++ squeeze y :=
  List.filter_append x y

theorem squeeze_of_not_blank {text : List Char} (h : ∀ c ∈ text, isBlank c = false) :
    squeeze text = text :=
  List.filter_eq_self.mpr fun c hc => by simp [h c hc]

theorem squeeze_of_blank {text : List Char} (h : ∀ c ∈ text, isBlank c = true) :
    squeeze text = [] :=
  List.filter_eq_nil_iff.mpr fun c hc => by simp [h c hc]

@[simp] theorem squeeze_space : squeeze [' '] = [] :=
  squeeze_of_blank (by simp [isBlank_space])

@[simp] theorem squeeze_trim (text : List Char) : squeeze (trim text) = squeeze text := by
  obtain ⟨before, after, htext, hbefore, hafter⟩ := exists_trim text
  conv_rhs => rw [htext]
  simp [squeeze_of_blank hbefore, squeeze_of_blank hafter]

theorem squeeze_join (link : List Char) (texts : List (List Char)) :
    squeeze (join link texts) = join (squeeze link) (texts.map squeeze) := by
  fun_induction join link texts with
  | case1 => rfl
  | case2 text => rfl
  | case3 text next texts ih => simp [join, ih]

theorem mem_squeeze {text : List Char} {c : Char} :
    c ∈ squeeze text ↔ c ∈ text ∧ isBlank c = false := by
  simp [squeeze]

theorem flatten_pieces (text : List Char) :
    (pieces cuts text).flatten = text.filter fun c => !cuts c := by
  have hsplit : (text.splitOnP cuts).flatten = text.filter fun c => !cuts c := by
    induction text with
    | nil => rfl
    | cons c text ih =>
      rw [List.splitOnP_cons_eq_if_modifyHead]
      by_cases hc : cuts c = true
      · simp [hc, ih]
      · cases hs : text.splitOnP cuts with
        | nil => exact absurd hs (List.splitOnP_ne_nil cuts text)
        | cons first rest =>
          rw [hs] at ih
          simp [hc, ← ih]
  rw [pieces, List.flatten_filter_not_isEmpty, hsplit]

theorem mem_of_mem_words {text word : List Char} {c : Char} (hword : word ∈ words text)
    (hc : c ∈ word) : c ∈ text := by
  have hflat := List.mem_flatten.mpr ⟨word, hword, hc⟩
  rw [words_eq_pieces, flatten_pieces] at hflat
  exact (List.mem_filter.mp hflat).1

/-- Cutting a text into its words and joining them changes its blanks only. -/
theorem squeeze_join_words (text : List Char) :
    squeeze (join [' '] (words text)) = squeeze text := by
  have hself : ∀ w ∈ words text, squeeze w = w := fun w hw => squeeze_of_not_blank (mem_words hw).2
  have hflat : ∀ ws : List (List Char), join [] ws = ws.flatten := by
    intro ws
    fun_induction join [] ws <;> simp_all
  rw [squeeze_join, List.map_congr_left hself, List.map_id', squeeze_space, hflat, words_eq_pieces,
    flatten_pieces, squeeze]

end TableClient.Text
