import Mathlib
import TableClient.Proofs.Condition.Marks
import TableClient.Proofs.Condition.Terms

/-!
# Keywords in a term

Which words of a term are `AND`, `OR` or `BETWEEN`. Apart from the `BETWEEN` and the `AND` of a
range, it is only the path that can be such a word: as the operand of a comparison, a range or a
list, or with blanks around it in the parentheses of a call. Written without these blanks a call
holds no keyword.

Results:
* `mem_tokens_of_mem_split`: a keyword among the words of a text is one of its tokens.
* `Test.Spelled.exists_rest`: what the words behind the operand of a test do to the marks.
* `Term.Spelled.keyword_of_call`: the only keyword of a call is its path.
* `Term.Valid.not_keyword_of_call`: a written call has none.
* `Term.Valid.fits_of_path`: a written term whose path is no keyword fits every place.
-/

namespace TableClient.Condition

open Text

/-- The words that join terms or stand in a range. -/
def keywords : List (List Char) := ["AND".toList, "OR".toList, "BETWEEN".toList]

/-- The pieces of a text between blanks, parentheses and commas. -/
def tokens (text : List Char) : List (List Char) := pieces isDelimiter text

/-! ## Tokens -/

theorem keyword_chars {word : List Char} (h : word ∈ keywords) :
    word ≠ [] ∧ ∀ c ∈ word, isDelimiter c = false := by
  have hchars : keywords.all (fun word => !word.isEmpty && word.all isWordChar) = true := rfl
  obtain ⟨hne, hword⟩ := Bool.and_eq_true_iff.mp (List.all_eq_true.mp hchars word h)
  exact ⟨by simpa using hne, fun c hc =>
    isDelimiter_of_isWordChar (List.all_eq_true.mp hword c hc)⟩

/-- A keyword among the words of a text is one of its tokens. -/
theorem mem_tokens_of_mem_split {text word : List Char} (h : word ∈ split ' ' text)
    (hword : word ∈ keywords) : word ∈ tokens text := by
  have hspace : isDelimiter ' ' = true := isDelimiter_of_isBlank ' ' isBlank_space
  rw [tokens, ← join_split ' ' text, pieces_join hspace]
  refine List.mem_flatMap.mpr ⟨word, h, ?_⟩
  rw [pieces_of_forall (keyword_chars hword).1 (keyword_chars hword).2]
  exact List.mem_singleton_self word

theorem tokens_append_cons {c : Char} (hc : isDelimiter c = true) (x y : List Char) :
    tokens (x ++ c :: y) = tokens x ++ tokens y :=
  pieces_append_cons hc x y

theorem tokens_cons {c : Char} (hc : isDelimiter c = true) (text : List Char) :
    tokens (c :: text) = tokens text :=
  pieces_cons hc text

theorem tokens_append_singleton {c : Char} (hc : isDelimiter c = true) (text : List Char) :
    tokens (text ++ [c]) = tokens text :=
  pieces_append_of_forall (by simpa using hc)

/-- A text without delimiters is its only token. -/
theorem tokens_of_forall {text : List Char} (hne : text ≠ [])
    (h : ∀ c ∈ text, isDelimiter c = false) : tokens text = [text] :=
  pieces_of_forall hne h

theorem tokens_append_closing {closing : List Char} (h : Closing closing) (text : List Char) :
    tokens (text ++ closing) = tokens text := by
  refine pieces_append_of_forall fun c hc => ?_
  rcases h.chars c hc with rfl | rfl <;> decide

/-- Before a test stand no tokens but `NOT`s. -/
theorem mem_tokens_opening_append {negated : Bool} {opening text token : List Char}
    (h : Opening negated opening) (htoken : token ∈ tokens (opening ++ text)) :
    token = "NOT".toList ∨ token ∈ tokens text := by
  induction h with
  | nil => exact .inr htoken
  | paren _ ih =>
    rw [List.cons_append, tokens_cons (by decide)] at htoken
    exact ih htoken
  | space _ ih =>
    rw [List.cons_append, List.cons_append, tokens_cons (by decide), tokens_cons (by decide)]
      at htoken
    exact ih htoken
  | @not _ opening _ ih =>
    have htext : "NOT ".toList ++ opening ++ text = "NOT".toList ++ ' ' :: (opening ++ text) := rfl
    have hnot : tokens "NOT".toList = ["NOT".toList] := by decide
    rw [htext, tokens_append_cons (by decide), hnot] at htoken
    rcases List.mem_append.mp htoken with htoken | htoken
    · exact .inl (List.mem_singleton.mp htoken)
    · exact ih htoken

/-- The tokens between parentheses are the arguments. -/
theorem tokens_arguments {inner : List Char} {texts : List (List Char)}
    (h : (split ',' inner).map trim = texts)
    (htexts : ∀ text ∈ texts, text ≠ [] ∧ ∀ c ∈ text, isDelimiter c = false) :
    tokens inner = texts := by
  have htrim : ∀ piece, tokens piece = tokens (trim piece) := by
    intro piece
    obtain ⟨before, after, hpiece, hbefore, hafter⟩ := exists_trim piece
    conv_lhs => rw [hpiece]
    rw [tokens, pieces_append_of_forall fun c hc => isDelimiter_of_isBlank c (hafter c hc),
      pieces_append_left fun c hc => isDelimiter_of_isBlank c (hbefore c hc), tokens]
  have hself : ∀ text ∈ texts, tokens text = [text] := fun text htext =>
    tokens_of_forall (htexts text htext).1 (htexts text htext).2
  have hpieces : (split ',' inner).flatMap tokens = texts.flatMap tokens := by
    rw [← h, List.flatMap_map]
    exact List.flatMap_congr fun piece _ => htrim piece
  rw [tokens, ← join_split ',' inner, pieces_join (by decide)]
  refine hpieces.trans ?_
  rw [List.flatMap_congr hself]
  exact List.flatMap_singleton' texts

/-! ## Words without keywords -/

/-- Words without keywords leave everything as it is. -/
theorem marks_of_no_keyword {words : List (List Char)} (h : ∀ word ∈ words, word ∉ keywords)
    (waiting : Bool) : orMark ∉ markBetween waiting words ∧ andMark ∉ markBetween waiting words ∧
      waits waiting words = waiting := by
  have hnot : ∀ word ∈ keywords, word ∉ words := fun word hword hmem => h word hmem hword
  refine ⟨fun hmem => ?_, fun hmem => ?_, ?_⟩
  · exact hnot _ (by decide) (plain_mem_markBetween hmem)
  · exact hnot _ (by decide) (plain_mem_markBetween hmem)
  · exact (markBetween_of_not_mem (hnot _ (by decide)) fun _ => hnot _ (by decide)).2

/-- In the words of a range the `BETWEEN` is closed by the `AND`. -/
theorem marks_of_range {low : List Char} {rest : List (List Char)} (hlow : low ∉ keywords)
    (hrest : ∀ word ∈ rest, word ∉ keywords) (waiting : Bool) :
    orMark ∉ markBetween waiting ("BETWEEN".toList :: low :: "AND".toList :: rest) ∧
      andMark ∉ markBetween waiting ("BETWEEN".toList :: low :: "AND".toList :: rest) ∧
      waits waiting ("BETWEEN".toList :: low :: "AND".toList :: rest) = false := by
  simp only [keywords, List.mem_cons, not_or] at hlow
  obtain ⟨hand, hor, hbetween, -⟩ := hlow
  have hopen : ¬ (true = true ∧ low = "AND".toList) := fun h => hand h.2
  have hmark : markBetween waiting ("BETWEEN".toList :: low :: "AND".toList :: rest) =
      .plain "BETWEEN".toList :: .plain low :: .betweenAnd :: markBetween false rest := by
    rw [markBetween, if_pos rfl, markBetween, if_neg hbetween, if_neg hopen, markBetween,
      if_neg (by decide), if_pos ⟨rfl, rfl⟩]
  have hwaits : waits waiting ("BETWEEN".toList :: low :: "AND".toList :: rest) =
      waits false rest := by
    rw [waits, if_pos rfl, waits, if_neg hbetween, if_neg hopen, waits, if_neg (by decide),
      if_pos ⟨rfl, rfl⟩]
  obtain ⟨hnoor, hnoand, hfalse⟩ := marks_of_no_keyword hrest false
  rw [hmark, hwaits]
  exact ⟨by simpa [hnoor] using Ne.symm hor, by simpa [hnoand] using Ne.symm hand, hfalse⟩

theorem not_keyword_of_isPlaceholder {text : List Char} (h : isPlaceholder text = true) :
    text ∉ keywords := by
  intro hmem
  simp only [keywords, List.mem_cons, List.not_mem_nil, or_false] at hmem
  rcases hmem with rfl | rfl | rfl <;> revert h <;> decide

/-! ## Tests -/

/-- The bit that a test leaves behind: the `BETWEEN` of a range is closed by its `AND`. -/
def Test.settle : Test → Bool → Bool
  | .between .., _ => false
  | _, waiting => waiting

section
variable {test : Test} {text : List Char}

/-- What the words behind the operand do to the marks, when the test is no call. -/
theorem Test.Spelled.exists_rest (h : test.Spelled text) (hvalid : test.Valid)
    (hlink : test.link = ' ') : ∃ rest, text = test.lead ++ ' ' :: rest ∧
      ∀ closing, Closing closing → ∀ waiting,
        orMark ∉ markBetween waiting (split ' ' (rest ++ closing)) ∧
        andMark ∉ markBetween waiting (split ' ' (rest ++ closing)) ∧
        waits waiting (split ' ' (rest ++ closing)) = test.settle waiting := by
  have hvalue : ∀ value ∈ test.values, tokens value.toList = [value.toList] ∧
      value.toList ∉ keywords := by
    intro value hmem
    obtain ⟨hne, hchars⟩ := hvalid.value_chars (List.mem_map_of_mem hmem)
    exact ⟨tokens_of_forall hne hchars, not_keyword_of_isPlaceholder (hvalid.values value hmem)⟩
  cases test with
  | call => simp [Test.link] at hlink
  | compare operand comparator value =>
    refine ⟨comparator.sign.toList ++ ' ' :: value.toList, ?_, fun closing hclosing waiting =>
      marks_of_no_keyword (fun word hword hkeyword => ?_) waiting⟩
    · rw [show text = _ from h, Test.write, List.append_assoc]
      rfl
    · obtain ⟨hself, hnot⟩ := hvalue value (List.mem_singleton_self value)
      have hsign : tokens comparator.sign.toList = [comparator.sign.toList] ∧
          comparator.sign.toList ∉ keywords := by cases comparator <;> decide
      have htoken := mem_tokens_of_mem_split hword hkeyword
      rw [tokens_append_closing hclosing, tokens_append_cons (by decide), hself, hsign.1,
        List.singleton_append] at htoken
      rcases List.mem_cons.mp htoken with rfl | htoken
      · exact hsign.2 hkeyword
      · obtain rfl := List.mem_singleton.mp htoken
        exact hnot hkeyword
  | oneOf operand values =>
    obtain ⟨inner, rfl, hinner⟩ := h
    refine ⟨"IN".toList ++ ' ' :: ('(' :: (inner ++ [')'])), by simp [Test.lead],
      fun closing hclosing waiting =>
        marks_of_no_keyword (fun word hword hkeyword => ?_) waiting⟩
    have harguments : tokens inner = values.map String.toList :=
      tokens_arguments hinner fun value hmem => hvalid.value_chars hmem
    have hin : tokens "IN".toList = ["IN".toList] := by decide
    have htoken := mem_tokens_of_mem_split hword hkeyword
    rw [tokens_append_closing hclosing, tokens_append_cons (by decide), tokens_cons (by decide),
      tokens_append_singleton (by decide), harguments, hin, List.singleton_append] at htoken
    rcases List.mem_cons.mp htoken with rfl | htoken
    · exact absurd hkeyword (by decide)
    · obtain ⟨value, hmem, rfl⟩ := List.mem_map.mp htoken
      exact (hvalue value hmem).2 hkeyword
  | between operand low high =>
    refine ⟨"BETWEEN".toList ++ ' ' :: (low.toList ++ ' ' :: ("AND".toList ++ ' ' :: high.toList)),
      ?_, fun closing hclosing waiting => ?_⟩
    · rw [show text = _ from h, Test.write]
      simp [Test.lead]
    · obtain ⟨hhigh, hnot⟩ := hvalue high (by simp [Test.values])
      have hlow := hvalid.values low (by simp [Test.values])
      have hsplit : split ' ' ("BETWEEN".toList ++ ' ' :: (low.toList ++ ' ' :: ("AND".toList ++
          ' ' :: high.toList)) ++ closing) = "BETWEEN".toList :: low.toList :: "AND".toList ::
            split ' ' (high.toList ++ closing) := by
        simp only [List.append_assoc, List.cons_append]
        rw [split_append_cons, split_append_cons, split_append_cons, split_of_not_mem (by decide),
          split_of_not_mem (space_not_mem_placeholder hlow), split_of_not_mem (by decide)]
        rfl
      rw [hsplit]
      refine marks_of_range (not_keyword_of_isPlaceholder hlow) (fun word hword hkeyword => ?_)
        waiting
      have htoken := mem_tokens_of_mem_split hword hkeyword
      rw [tokens_append_closing hclosing, hhigh] at htoken
      obtain rfl := List.mem_singleton.mp htoken
      exact hnot hkeyword

/-- The only keyword in the operand of a test is its path. -/
theorem Test.Valid.eq_path_of_lead (h : test.Valid) (hlink : test.link = ' ') {token : List Char}
    (htoken : token ∈ tokens test.lead) (hkeyword : token ∈ keywords) :
    token = test.path.write String.toList := by
  have hoperand : ∀ {operand : Operand}, operand.path.Valid →
      token ∈ tokens (operand.write String.toList) → token = operand.path.write String.toList := by
    intro operand hpath htoken
    have hself : tokens (operand.path.write String.toList) = [operand.path.write String.toList] :=
      tokens_of_forall hpath.write_ne_nil fun c hc => (hpath.chars c hc).1
    rw [Operand.write] at htoken
    split_ifs at htoken
    · have hsize : "size(".toList ++ operand.path.write String.toList ++ [')'] =
          "size".toList ++ '(' :: (operand.path.write String.toList ++ [')']) := rfl
      have hname : tokens "size".toList = ["size".toList] := by decide
      rw [hsize, tokens_append_cons (by decide), tokens_append_singleton (by decide), hname, hself,
        List.singleton_append] at htoken
      rcases List.mem_cons.mp htoken with rfl | htoken
      · exact absurd hkeyword (by decide)
      · exact List.mem_singleton.mp htoken
    · rw [hself] at htoken
      exact List.mem_singleton.mp htoken
  cases test with
  | call => simp [Test.link] at hlink
  | compare operand => exact hoperand h.path htoken
  | between operand => exact hoperand h.path htoken
  | oneOf operand => exact hoperand h.path htoken

theorem BuiltIn.name_not_keyword (function : BuiltIn) :
    function.name.toList ∉ keywords ∧ tokens function.name.toList = [function.name.toList] := by
  obtain ⟨hne, hchars⟩ := function.name_chars
  exact ⟨by cases function <;> decide,
    tokens_of_forall hne fun c hc => isDelimiter_of_isWordChar (hchars c hc)⟩

/-- The only keyword in a call is its path. -/
theorem Test.Spelled.eq_path_of_call (h : test.Spelled text) (hvalid : test.Valid)
    (hlink : test.link = '(') {token : List Char} (htoken : token ∈ tokens text)
    (hkeyword : token ∈ keywords) : token = test.path.write String.toList := by
  cases test with
  | call function path value? =>
    obtain ⟨inner, rfl, hinner⟩ := h
    have harguments := tokens_arguments hinner fun argument hargument =>
      hvalid.argument_chars hargument
    rw [tokens_append_cons (by decide), tokens_append_singleton (by decide), harguments,
      function.name_not_keyword.2, List.singleton_append] at htoken
    rcases List.mem_cons.mp htoken with rfl | htoken
    · exact absurd hkeyword function.name_not_keyword.1
    · rcases List.mem_cons.mp htoken with rfl | htoken
      · rfl
      · obtain ⟨value, hvalue, rfl⟩ := List.mem_map.mp htoken
        exact absurd hkeyword (not_keyword_of_isPlaceholder (hvalid.values value hvalue))
  | _ => simp [Test.link] at hlink

/-- Behind the path of a written call stands no keyword. -/
theorem Test.Valid.exists_write_call (h : test.Valid) (hlink : test.link = '(') :
    ∃ rest, test.write String.toList =
        test.lead ++ '(' :: (test.path.write String.toList ++ rest) ∧
      ∀ token ∈ tokens rest, token ∉ keywords := by
  cases test with
  | call function path value? =>
    cases value? with
    | none =>
      have htokens : tokens [')'] = [] := by decide
      refine ⟨[')'], by simp [Test.write, Test.lead, Test.path], ?_⟩
      simp [htokens]
    | some value =>
      obtain ⟨hne, hchars⟩ := h.value_chars
        (List.mem_map_of_mem (f := String.toList) (List.mem_singleton_self value))
      refine ⟨',' :: ' ' :: (value.toList ++ [')']),
        by simp [Test.write, Test.lead, Test.path], ?_⟩
      rw [tokens_cons (by decide), tokens_cons (by decide), tokens_append_singleton (by decide),
        tokens_of_forall hne hchars]
      intro token htoken
      obtain rfl := List.mem_singleton.mp htoken
      exact not_keyword_of_isPlaceholder (h.values value (List.mem_singleton_self value))
  | _ => simp [Test.link] at hlink

end

/-! ## Terms -/

section
variable {term : Term}

/-- The only keyword up to the operand of a term is its path. -/
theorem Term.Valid.keyword_of_lead (h : term.Valid) (hlink : term.test.link = ' ')
    {word : List Char} (hword : word ∈ keywords)
    (hmem : word ∈ split ' ' (term.opening ++ term.test.lead)) :
    word = term.test.path.write String.toList := by
  rcases mem_tokens_opening_append h.opening (mem_tokens_of_mem_split hmem hword) with rfl | htoken
  · exact absurd hword (by decide)
  · exact h.test.eq_path_of_lead hlink htoken hword

/-- The words of a term that is no call: those up to the operand, and those behind it, with what
    they do to the marks. -/
theorem Term.Spelled.exists_behind {text : List Char} (h : term.Spelled text)
    (hlink : term.test.link = ' ') : ∃ behind, behind ≠ [] ∧
      split ' ' text = split ' ' (term.opening ++ term.test.lead) ++ behind ∧
      ∀ waiting, orMark ∉ markBetween waiting behind ∧ andMark ∉ markBetween waiting behind ∧
        waits waiting behind = term.test.settle waiting := by
  obtain ⟨hvalid, core, hspelled, rfl⟩ := h
  obtain ⟨rest, hcore, hrest⟩ := hspelled.exists_rest hvalid.test hlink
  refine ⟨split ' ' (rest ++ term.closing), split_ne_nil ' ' _, ?_,
    hrest term.closing hvalid.closing⟩
  have htext : term.opening ++ core ++ term.closing =
      (term.opening ++ term.test.lead) ++ ' ' :: (rest ++ term.closing) := by
    rw [hcore]
    simp
  rw [htext, split_append_cons]

/-- The only keyword in a call is its path. -/
theorem Term.Spelled.keyword_of_call {text word : List Char} (h : term.Spelled text)
    (hlink : term.test.link = '(') (hword : word ∈ keywords) (hmem : word ∈ split ' ' text) :
    word = term.test.path.write String.toList := by
  obtain ⟨hvalid, core, hspelled, rfl⟩ := h
  have htoken := mem_tokens_of_mem_split hmem hword
  rw [List.append_assoc] at htoken
  rcases mem_tokens_opening_append hvalid.opening htoken with rfl | htoken
  · exact absurd hword (by decide)
  · rw [tokens_append_closing hvalid.closing] at htoken
    exact hspelled.eq_path_of_call hvalid.test hlink htoken hword

/-- A call that is written holds no keyword. -/
theorem Term.Valid.not_keyword_of_call (h : term.Valid) (hlink : term.test.link = '(') :
    ∀ word ∈ split ' ' (term.write String.toList), word ∉ keywords := by
  intro word hmem hword
  obtain ⟨rest, hwrite, hrest⟩ := h.test.exists_write_call hlink
  have hpath : ' ' ∉ term.test.path.write String.toList := by
    intro hspace
    have hdelimiter := (h.test.path.chars ' ' hspace).1
    rw [isDelimiter_of_isBlank ' ' isBlank_space] at hdelimiter
    contradiction
  have hparen : '(' ∉ word := by
    intro hparen
    have hdelimiter := (keyword_chars hword).2 '(' hparen
    revert hdelimiter
    decide
  have hterm : term.write String.toList = (term.opening ++ term.test.lead) ++
      '(' :: (term.test.path.write String.toList ++ (rest ++ term.closing)) := by
    rw [Term.write, hwrite]
    simp
  have hlead : ∀ token ∈ tokens term.test.lead, token ∉ keywords := by
    intro token htoken
    cases htest : term.test with
    | call function path value? =>
      rw [htest, Test.lead, function.name_not_keyword.2] at htoken
      obtain rfl := List.mem_singleton.mp htoken
      exact function.name_not_keyword.1
    | _ => simp [htest, Test.link] at hlink
  -- the path stands in one word with the parenthesis before it
  rw [hterm] at hmem
  rcases mem_split_append_cons (by decide) hmem hparen with hmem | hmem
  · rcases mem_tokens_opening_append h.opening (mem_tokens_of_mem_split hmem hword) with
      rfl | htoken
    · exact absurd hword (by decide)
    · exact hlead word htoken hword
  · have hmem : word ∈ split ' ' (rest ++ term.closing) := by
      rw [split_append_of_not_mem hpath] at hmem
      cases hs : split ' ' (rest ++ term.closing) <;> simp_all
    have htoken := mem_tokens_of_mem_split hmem hword
    rw [tokens_append_closing h.closing] at htoken
    exact hrest word htoken hword

theorem Test.link_eq (test : Test) : test.link = ' ' ∨ test.link = '(' := by
  cases test <;> simp [Test.link]

/-- The words of a written term. -/
def Term.words (term : Term) : List (List Char) := split ' ' (term.write String.toList)

theorem Term.words_ne_nil (term : Term) : term.words ≠ [] := split_ne_nil ' ' _

/-- A term whose path is no keyword fits every place, and leaves no `AND` to come. -/
theorem Term.Valid.fits_of_path (h : term.Valid)
    (hpath : term.test.path.write String.toList ∉ keywords) (first : Bool) :
    TermFits first false term.words ∧ waits false term.words = false := by
  have hmarks : orMark ∉ markBetween false term.words ∧ andMark ∉ markBetween false term.words ∧
      waits false term.words = false := by
    rcases term.test.link_eq with hlink | hlink
    · obtain ⟨behind, -, hwords, hbehind⟩ := h.spelled_write.exists_behind hlink
      have hlead : ∀ word ∈ split ' ' (term.opening ++ term.test.lead), word ∉ keywords := by
        intro word hmem hword
        rw [h.keyword_of_lead hlink hword hmem] at hword
        exact hpath hword
      obtain ⟨hor, hand, hwaits⟩ := marks_of_no_keyword hlead false
      obtain ⟨hor', hand', hwaits'⟩ := hbehind false
      have hsettle : term.test.settle false = false := by cases term.test <;> rfl
      rw [Term.words, hwords, markBetween_append, waits_append, hwaits, hwaits', hsettle,
        List.mem_append, List.mem_append, not_or, not_or]
      exact ⟨⟨hor, hor'⟩, ⟨hand, hand'⟩, rfl⟩
    · exact marks_of_no_keyword (h.not_keyword_of_call hlink) false
  exact ⟨.of_no_mark term.words_ne_nil hmarks.1 hmarks.2.1, hmarks.2.2⟩

end

end TableClient.Condition
