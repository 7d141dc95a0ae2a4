import Mathlib
import TableClient.Proofs.Condition.Compile

/-!
# Compiling an expanded condition

The expansion of a compiled condition is the text it was compiled from, but for the blanks. It is
compiled to the same terms again, unless attributes are named `AND` and `BETWEEN`. The words of the
two texts differ only in a call, which is written without the blanks around its arguments: there an
`AND` or a `BETWEEN` that was a word of the source is part of a word of the expansion. So the bit
that tells whether a closing `AND` is still to come may differ as well. It does no harm as long as
it is set in the expansion only where it is set in the source.

Results:
* `Term.Spelled.follow`: reading a term of the source and the same term of the expansion keeps the
  bits in that order.
* `compile_expand`: what a compile of an expanded condition gives.
* `not_recompiled_expand`: a condition whose expansion cannot be compiled.
-/

namespace TableClient.Condition

open Text

/-! ## Paths that are keywords -/

/-- A path that is written as a word is that name alone. -/
theorem Path.Valid.names_of_write {path : Path} (h : path.Valid) {word : String}
    (hword : readPath word.toList = .ok [⟨word, []⟩])
    (hwrite : path.write String.toList = word.toList) : word ∈ path.map Segment.name := by
  have hread := readPath_eq_ok_iff.mpr ⟨h, hwrite.symm⟩
  rw [hword] at hread
  rw [← Except.ok.inj hread]
  exact List.mem_singleton_self word

theorem Term.Valid.path_ne_and {term : Term} (h : term.Valid) (hname : "AND" ∉ term.names) :
    term.test.path.write String.toList ≠ "AND".toList :=
  fun hwrite => hname (h.test.path.names_of_write (by decide) hwrite)

theorem Term.Valid.path_ne_between {term : Term} (h : term.Valid) (hname : "BETWEEN" ∉ term.names) :
    term.test.path.write String.toList ≠ "BETWEEN".toList :=
  fun hwrite => hname (h.test.path.names_of_write (by decide) hwrite)

/-! ## The bits of source and expansion -/

theorem waits_of_no_and {words : List (List Char)} (h : "AND".toList ∉ words) :
    waits true words = true := by
  induction words with
  | nil => rfl
  | cons word rest ih =>
    obtain ⟨hword, hrest⟩ := List.ne_and_not_mem_of_not_mem_cons h
    have hand : ¬ (true = true ∧ word = "AND".toList) := fun hand => hword hand.2.symm
    rw [waits, if_neg hand]
    split_ifs <;> exact ih hrest

/-- Where no `AND` stands nothing is marked, and the bit can only be set. -/
theorem marks_of_no_and {words : List (List Char)} (h : "AND".toList ∉ words) {source other : Bool}
    (hle : other = true → source = true) : markBetween source words = markBetween other words ∧
      (waits other words = true → waits source words = true) := by
  induction words generalizing source other with
  | nil => exact ⟨rfl, hle⟩
  | cons word rest ih =>
    obtain ⟨hword, hrest⟩ := List.ne_and_not_mem_of_not_mem_cons h
    have hand : ∀ waiting : Bool, ¬ (waiting = true ∧ word = "AND".toList) :=
      fun waiting hand => hword hand.2.symm
    simp only [markBetween, waits, hand, ↓reduceIte]
    split_ifs
    · exact ⟨rfl, fun _ => waits_of_no_and hrest⟩
    · obtain ⟨hmark, hwaits⟩ := ih hrest hle
      exact ⟨by rw [hmark], hwaits⟩

/-- A term fits if it was not cut and what stands behind its operand does no harm. -/
theorem TermCut.fits {first source other : Bool} {lead behind behind' : List (List Char)}
    (h : TermCut first source (lead ++ behind)) (hlead : lead ≠ []) (hbehind : behind ≠ [])
    (hmark : markBetween source lead = markBetween other lead)
    (hor : orMark ∉ markBetween (waits other lead) behind')
    (hand : andMark ∉ markBetween (waits other lead) behind') :
    TermFits first other (lead ++ behind') := by
  have hlead' : markBetween other lead ≠ [] := fun hnil => hlead (markBetween_eq_nil_iff.mp hnil)
  have hbehind' : markBetween (waits source lead) behind ≠ [] := fun hnil =>
    hbehind (markBetween_eq_nil_iff.mp hnil)
  have hcutor := h.no_or
  have hcutand := h.no_and
  rw [markBetween_append, hmark] at hcutor hcutand
  rw [List.tail_append_of_ne_nil hlead', List.dropLast_append_of_ne_nil hbehind',
    List.mem_append, not_or] at hcutor
  refine ⟨by simp [hlead], ?_, ?_⟩
  · rw [markBetween_append, List.tail_append_of_ne_nil hlead', List.mem_append, not_or]
    exact ⟨hcutor.1, hor⟩
  · rw [markBetween_append]
    cases first
    · simp only [Bool.false_eq_true, ↓reduceIte] at hcutand ⊢
      rw [List.dropLast_append_of_ne_nil hbehind', List.mem_append, not_or] at hcutand
      rw [List.mem_append, not_or]
      exact ⟨hcutand.1, hand⟩
    · simp only [↓reduceIte] at hcutand ⊢
      rw [List.tail_append_of_ne_nil hlead', List.dropLast_append_of_ne_nil hbehind',
        List.mem_append, not_or] at hcutand
      rw [List.tail_append_of_ne_nil hlead', List.mem_append, not_or]
      exact ⟨hcutand.1, hand⟩

/-- The bits before a term of the source and of the expansion. -/
structure Follows (between : Prop) (source other : Bool) : Prop where
  /-- It is set in the expansion only where it is set in the source. -/
  le : other = true → source = true
  /-- It is not set where no attribute is named `BETWEEN`. -/
  unset : between → source = false

section
variable {between : Prop} {source other : Bool} {words : List (List Char)}
  (h : Follows between source other) (hand : ¬ between → "AND".toList ∉ words)
  (hbetween : between → "BETWEEN".toList ∉ words)
include h hand hbetween

/-- Words that only the source has keep the bits in order. -/
theorem Follows.waits_left : Follows between (waits source words) other := by
  by_cases hcase : between
  · have hsource := h.unset hcase
    have hunset := (@markBetween_of_not_mem false words (hbetween hcase) (by simp)).2
    rw [hsource, hunset]
    exact ⟨fun hset => hsource ▸ h.le hset, fun _ => rfl⟩
  · refine ⟨fun hset => ?_, fun hbetween => absurd hbetween hcase⟩
    rw [h.le hset]
    exact waits_of_no_and (hand hcase)

/-- Words that both have are marked alike and keep the bits in order. -/
theorem Follows.waits_both : markBetween source words = markBetween other words ∧
    Follows between (waits source words) (waits other words) := by
  by_cases hcase : between
  · have hsource := h.unset hcase
    have hother : other = false := by
      cases other
      · rfl
      · exact (hsource ▸ h.le rfl).symm
    have hwaits := (@markBetween_of_not_mem false words (hbetween hcase) (by simp)).2
    rw [hsource, hother, hwaits]
    exact ⟨rfl, id, fun _ => rfl⟩
  · obtain ⟨hmark, hwaits⟩ := marks_of_no_and (hand hcase) h.le
    exact ⟨hmark, hwaits, fun hbetween => absurd hbetween hcase⟩

end

/-- Reading a term of the source and the same term of the expansion keeps the bits in order, and
    the term of the expansion fits where that of the source was not cut. -/
theorem Term.Spelled.follow {term : Term} {words : List (List Char)} {between : Prop}
    {first source other : Bool} (h : term.Spelled (join [' '] words))
    (hwords : ∀ word ∈ words, word ≠ [] ∧ ∀ c ∈ word, isBlank c = false)
    (hcut : TermCut first source words) (hfollows : Follows between source other)
    (hand : ¬ between → "AND" ∉ term.names) (hbetween : between → "BETWEEN" ∉ term.names) :
    TermFits first other term.words ∧
      Follows between (waits source words) (waits other term.words) := by
  have hvalid := h.1
  have hsplit : split ' ' (join [' '] words) = words := by
    refine split_join hcut.ne_nil fun word hword hmem => ?_
    have hblank := (hwords word hword).2 ' ' hmem
    rw [isBlank_space] at hblank
    contradiction
  -- a keyword among the words that come from the path is the path
  have hnames : ∀ {part : List (List Char)}, (∀ word ∈ keywords, word ∈ part →
      word = term.test.path.write String.toList) →
      (¬ between → "AND".toList ∉ part) ∧ (between → "BETWEEN".toList ∉ part) := by
    intro part hpart
    exact ⟨fun hcase hmem => hvalid.path_ne_and (hand hcase) (hpart _ (by decide) hmem).symm,
      fun hcase hmem => hvalid.path_ne_between (hbetween hcase) (hpart _ (by decide) hmem).symm⟩
  rcases term.test.link_eq with hlink | hlink
  · obtain ⟨behind, hne, hsource, hbehind⟩ := h.exists_behind hlink
    obtain ⟨behind', -, hother, hbehind'⟩ := hvalid.spelled_write.exists_behind hlink
    rw [hsplit] at hsource
    rw [Term.words, hother]
    subst hsource
    generalize hlead : split ' ' (term.opening ++ term.test.lead) = lead at *
    have hleadne : lead ≠ [] := hlead ▸ split_ne_nil ' ' _
    obtain ⟨hnoand, hnobetween⟩ := hnames fun word hword hmem =>
      hvalid.keyword_of_lead hlink hword (hlead ▸ hmem)
    obtain ⟨hmark, hle, hunset⟩ := hfollows.waits_both hnoand hnobetween
    refine ⟨hcut.fits hleadne hne hmark (hbehind' _).1 (hbehind' _).2.1, ?_⟩
    rw [waits_append, waits_append, (hbehind _).2.2, (hbehind' _).2.2]
    cases term.test with
    | between => exact ⟨id, fun _ => rfl⟩
    | _ => exact ⟨hle, hunset⟩
  · obtain ⟨hnoand, hnobetween⟩ := hnames fun word hword hmem =>
      h.keyword_of_call hlink hword (by rwa [hsplit])
    obtain ⟨hor, hmark, hwaits⟩ := marks_of_no_keyword (hvalid.not_keyword_of_call hlink) other
    have hother : waits other term.words = other := hwaits
    rw [hother]
    exact ⟨.of_no_mark term.words_ne_nil hor hmark, hfollows.waits_left hnoand hnobetween⟩

/-- The words of a group of the source, one list for each term, with the terms they are. -/
abbrev GroupSpelled (group : List (List (List Char))) (terms : List Term) : Prop :=
  List.Forall₂ (fun words term => term.Spelled (join [' '] words)) group terms

/-- Whether words are words of a text. -/
abbrev AreWords (words : List (List Char)) : Prop :=
  ∀ word ∈ words, word ≠ [] ∧ ∀ c ∈ word, isBlank c = false

/-- The same for the terms of a group, one after another. -/
theorem GroupSpelled.follow {group : List (List (List Char))} {terms : List Term} {between : Prop}
    {first source other : Bool} (h : GroupSpelled group terms)
    (hwords : ∀ words ∈ group, AreWords words) (hcut : GroupCut first source group)
    (hfollows : Follows between source other)
    (hand : ¬ between → ∀ term ∈ terms, "AND" ∉ term.names)
    (hbetween : between → ∀ term ∈ terms, "BETWEEN" ∉ term.names) :
    GroupFits first other (groupWords terms) ∧
      Follows between (group.foldl waits source) ((groupWords terms).foldl waits other) := by
  induction h generalizing first source other with
  | nil => exact ⟨trivial, hfollows⟩
  | @cons words term group terms hterm _ ih =>
    obtain ⟨hfits, hnext⟩ := hterm.follow (hwords words List.mem_cons_self) hcut.1 hfollows
      (fun hcase => hand hcase term List.mem_cons_self)
      (fun hcase => hbetween hcase term List.mem_cons_self)
    obtain ⟨hrest, hend⟩ := ih
      (fun other hother => hwords other (List.mem_cons_of_mem words hother)) hcut.2 hnext
      (fun hcase other hother => hand hcase other (List.mem_cons_of_mem term hother))
      (fun hcase other hother => hbetween hcase other (List.mem_cons_of_mem term hother))
    exact ⟨⟨hfits, hrest⟩, hend⟩

theorem map_eq_of_forall₂ {α β γ : Type} {R : α → β → Prop} {f : α → γ} {g : β → γ} {xs : List α}
    {ys : List β} (h : List.Forall₂ R xs ys) (hstep : ∀ x y, R x y → f x = g y) :
    xs.map f = ys.map g := by
  induction h with
  | nil => rfl
  | cons hxy _ ih => rw [List.map_cons, List.map_cons, hstep _ _ hxy, ih]

/-- Terms are written as the texts that they were read from, but for the blanks. -/
theorem squeeze_writeGroups {texts : List (List (List Char))} {groups : List (List Term)}
    (h : List.Forall₂ (List.Forall₂ Term.Spelled) texts groups) :
    squeeze (writeGroups String.toList groups) =
      squeeze (join " AND ".toList (texts.map (join " OR ".toList))) := by
  have hjoin : ∀ {link : List Char} {texts others : List (List Char)},
      texts.map squeeze = others.map squeeze →
        squeeze (join link texts) = squeeze (join link others) := by
    intro link texts others heq
    rw [squeeze_join, squeeze_join, heq]
  rw [writeGroups]
  refine hjoin ?_
  rw [List.map_map, List.map_map]
  refine (map_eq_of_forall₂ h fun group terms hgroup => hjoin ?_).symm
  rw [List.map_map]
  exact map_eq_of_forall₂ hgroup fun text term hterm => hterm.squeeze_eq

/-- The expansion of a compiled condition is made up of the texts of its terms, but for the
    blanks. -/
theorem squeeze_expand_of_compile {names after : Namespace} {text : String} {values : List Json}
    {c : Compiled} (h : compile names text values = .ok (c, after)) :
    squeeze c.expand.toList =
      squeeze (join " AND ".toList ((termTexts (words text.toList)).map (join " OR ".toList))) := by
  obtain ⟨hne, groups, hread, -, rfl, -⟩ := compile_eq_ok_iff.mp h
  have hspelled := ((readGroups_eq_ok_iff
    (spaced_of_mem_termTexts hne fun word hword => mem_words hword)).mp hread).1
  rw [expand_compiled values (valid_of_readGroups hne hread).1 fun name hname =>
    mem_addNames.mpr (.inr hname), String.toList_ofList, squeeze_writeGroups hspelled]

/-- A condition, with the words of the source it was compiled from. -/
structure Source (text : String) (names : Namespace)
    (sources : List (List (List (List Char)))) (groups : List (List Term)) : Prop where
  ne_nil : sources ≠ []
  words : joinGroups sources = Text.words text.toList
  cuts : ∀ group ∈ sources, group ≠ [] ∧ GroupCut true false group
  ends : ∀ group ∈ sources.dropLast, group.foldl waits false = false
  spelled : List.Forall₂ GroupSpelled sources groups
  fresh : Fresh names.bound (allValues groups)

theorem GroupCut.ne_nil {first waiting : Bool} {group : List (List (List Char))}
    (h : GroupCut first waiting group) : ∀ words ∈ group, words ≠ [] := by
  induction group generalizing first waiting with
  | nil => simp
  | cons words group ih =>
    intro other hother
    rcases List.mem_cons.mp hother with rfl | hother
    · exact h.1.ne_nil
    · exact ih h.2 other hother

/-- What a successful compile has read. -/
theorem exists_source {names after : Namespace} {text : String} {values : List Json} {c : Compiled}
    (hseparator : '\x1f' ∉ text.toList) (h : compile names text values = .ok (c, after)) :
    ∃ sources groups, Source text names sources groups ∧
      (allValues groups).length = values.length ∧
      c = compiled (addNames names.names (allNames groups)) groups values := by
  obtain ⟨hne, groups, hread, hcount, hc, -⟩ := compile_eq_ok_iff.mp h
  obtain ⟨sources, hsources, hjoin, htexts, hcuts, hends⟩ := exists_groups hne
    fun word hword hmem => hseparator (mem_of_mem_words hword hmem)
  have hspaced := spaced_of_mem_termTexts hne fun word hword => mem_words hword
  rw [htexts] at hspaced
  rw [htexts, readGroups_eq_ok_iff hspaced, List.forall₂_map_left_iff] at hread
  simp only [List.forall₂_map_left_iff] at hread
  exact ⟨sources, groups, ⟨hsources, hjoin, hcuts, hends, hread.1, hread.2⟩, hcount, hc⟩

namespace Source

variable {text : String} {names : Namespace} {sources : List (List (List (List Char)))}
  {groups : List (List Term)}

theorem areWords (h : Source text names sources groups) :
    ∀ group ∈ sources, ∀ words ∈ group, AreWords words := by
  intro group hgroup words hwords word hword
  refine @mem_words text.toList word ?_
  rw [← h.words]
  exact mem_joinGroups_of_mem hgroup hwords hword

theorem valid (h : Source text names sources groups) :
    ∀ group ∈ groups, group ≠ [] ∧ ∀ term ∈ group, term.Valid := by
  refine forall_right_of_forall₂ h.spelled h.cuts fun group terms hgroup hcut => ⟨?_, ?_⟩
  · rintro rfl
    exact hcut.1 (List.forall₂_nil_right_iff.mp hgroup)
  · exact forall_right_of_forall₂ hgroup (P := fun _ => True) (by simp)
      fun words term hterm _ => hterm.1

theorem groups_ne_nil (h : Source text names sources groups) : groups ≠ [] := by
  rintro rfl
  exact h.ne_nil (List.forall₂_nil_right_iff.mp h.spelled)

/-- The terms are written as the source, but for the blanks. -/
theorem squeeze_write (h : Source text names sources groups) :
    squeeze (writeGroups String.toList groups) = squeeze text.toList := by
  have hspelled : List.Forall₂ (List.Forall₂ Term.Spelled)
      (sources.map fun group => group.map (join [' '])) groups := by
    rw [List.forall₂_map_left_iff]
    simp only [List.forall₂_map_left_iff]
    exact h.spelled
  have hrows : ∀ group ∈ sources, group ≠ [] ∧ ∀ words ∈ group, words ≠ [] := fun group hgroup =>
    ⟨(h.cuts group hgroup).1, (h.cuts group hgroup).2.ne_nil⟩
  rw [squeeze_writeGroups hspelled, List.map_map, ← squeeze_join_words text.toList, ← h.words,
    join_joinGroups hrows]
  rfl

/-- The terms fit their places, unless attributes are named `AND` and `BETWEEN`. -/
theorem fits (h : Source text names sources groups)
    (hnames : "AND" ∉ allNames groups ∨ "BETWEEN" ∉ allNames groups) :
    (∀ group ∈ groups, GroupFits true false (groupWords group)) ∧
      ∀ group ∈ groups.dropLast, (groupWords group).foldl waits false = false := by
  let between : Prop := "BETWEEN" ∉ allNames groups
  have hmem : ∀ group ∈ groups, ∀ term ∈ group, ∀ name ∈ term.names, name ∈ allNames groups :=
    fun group hgroup term hterm name hname =>
      List.mem_flatMap.mpr ⟨term, List.mem_flatten.mpr ⟨group, hgroup, hterm⟩, hname⟩
  -- every group starts with both bits unset, since no `AND` before it was waited for
  have hstart : Follows between false false := ⟨id, fun _ => rfl⟩
  have hfollow : ∀ group terms, GroupSpelled group terms →
      (∀ words ∈ group, AreWords words) ∧ GroupCut true false group → terms ∈ groups →
      GroupFits true false (groupWords terms) ∧
        Follows between (group.foldl waits false) ((groupWords terms).foldl waits false) := by
    intro group terms hspelled hgroup hterms
    refine hspelled.follow hgroup.1 hgroup.2 hstart (fun hcase term hterm hname => ?_)
      fun hcase term hterm hname => hcase (hmem terms hterms term hterm _ hname)
    rcases hnames with hand | hbetween
    · exact hand (hmem terms hterms term hterm _ hname)
    · exact hcase hbetween
  have hsources : ∀ group ∈ sources,
      (∀ words ∈ group, AreWords words) ∧ GroupCut true false group := fun group hgroup =>
    ⟨h.areWords group hgroup, (h.cuts group hgroup).2⟩
  constructor
  · have hfits := forall_right_of_forall₂ (Q := fun terms => terms ∈ groups →
      GroupFits true false (groupWords terms)) h.spelled hsources
      fun group terms hspelled hgroup hterms => (hfollow group terms hspelled hgroup hterms).1
    exact fun terms hterms => hfits terms hterms hterms
  · have hlength : sources.length = groups.length := h.spelled.length_eq
    have hspelled := List.forall₂_take (sources.length - 1) h.spelled
    rw [← List.dropLast_eq_take, hlength, ← List.dropLast_eq_take] at hspelled
    have hends := forall_right_of_forall₂ (Q := fun terms => terms ∈ groups →
      (groupWords terms).foldl waits false = false) hspelled
      (fun group hgroup => (⟨h.ends group hgroup,
        hsources group (List.mem_of_mem_dropLast hgroup)⟩ :
          group.foldl waits false = false ∧ (∀ words ∈ group, AreWords words) ∧
            GroupCut true false group))
      fun group terms hspelled hgroup hterms => by
        have hle := (hfollow group terms hspelled hgroup.2 hterms).2.le
        rw [hgroup.1] at hle
        cases hset : (groupWords terms).foldl waits false
        · rfl
        · exact (hle hset).symm
    exact fun terms hterms => hends terms hterms (List.mem_of_mem_dropLast hterms)

end Source

/-! ## Expansion and compile -/

/-- The expansion of a compiled condition is its source, but for the blanks. Unless attributes are
    named `AND` and `BETWEEN`, it is compiled to the same expansion, the same terms and the same
    values. -/
theorem compile_expand {names after : Namespace} {text : String} {values : List Json} {c : Compiled}
    (hseparator : '\x1f' ∉ text.toList) (h : compile names text values = .ok (c, after)) :
    squeeze c.expand.toList = squeeze text.toList ∧
      ("AND" ∉ c.names.map Prod.snd ∨ "BETWEEN" ∉ c.names.map Prod.snd →
        ∃ again, compileAlone c.expand values = .ok again ∧ again.expand = c.expand ∧
          again.terms = c.terms ∧ again.values = c.values) := by
  obtain ⟨sources, groups, hsource, hcount, rfl⟩ := exists_source hseparator h
  have hall : ∀ names : List String, ∀ name ∈ allNames groups,
      name ∈ addNames names (allNames groups) := fun names name hname =>
    mem_addNames.mpr (.inr hname)
  have hvalid := hsource.valid
  have hexpand : ∀ names : List String,
      (compiled (addNames names (allNames groups)) groups values).expand =
        String.ofList (writeGroups String.toList groups) := fun names =>
    expand_compiled values (fun group hgroup => (hvalid group hgroup).2) (hall names)
  have hsqueeze := hsource.squeeze_write
  rw [hexpand, String.toList_ofList]
  refine ⟨hsqueeze, fun hnames => ?_⟩
  have hseparator' : '\x1f' ∉ writeGroups String.toList groups := by
    intro hmem
    have hmem : '\x1f' ∈ squeeze text.toList := by
      rw [← hsqueeze]
      exact mem_squeeze.mpr ⟨hmem, by decide⟩
    exact hseparator (mem_squeeze.mp hmem).1
  have hmember : ∀ name ∈ allNames groups,
      name ∈ (compiled (addNames names.names (allNames groups)) groups values).names.map
        Prod.snd := fun name hname =>
    List.mem_map_of_mem (f := Prod.snd)
      (Dict.mem_of_get? (get?_names_compiled values (hall names.names) hname))
  obtain ⟨hfits, hends⟩ := hsource.fits
    (hnames.imp (fun hand hmem => hand (hmember _ hmem)) fun hbetween hmem =>
      hbetween (hmember _ hmem))
  have hfresh : Fresh [] (allValues groups) :=
    ⟨hsource.fresh.valid, hsource.fresh.nodup, fun _ _ => List.not_mem_nil⟩
  exact ⟨_, compileAlone_write hsource.groups_ne_nil hvalid hfits hends hseparator' hfresh hcount,
    hexpand [], rfl, rfl⟩

/-- A condition with more blanks than its expansion has. -/
theorem compile_expand_spacedCall : ∃ c after again,
    compile {} "attribute_exists( a )  AND NOT ( size(b[0].c) >= :n OR d IN (:x ,:y) )"
      [.int 1, .int 2, .int 3] = .ok (c, after) ∧
    c.expand = "attribute_exists(a) AND NOT ( size(b[0].c) >= :n OR d IN (:x, :y) )" ∧
    compileAlone c.expand [.int 1, .int 2, .int 3] = .ok again ∧ again.expand = c.expand ∧
      again.terms = c.terms ∧ again.values = c.values := by
  have hresult : (compile {}
      "attribute_exists( a )  AND NOT ( size(b[0].c) >= :n OR d IN (:x ,:y) )"
      [.int 1, .int 2, .int 3]).map (fun result => (result.1.expand, result.1.names.map Prod.snd)) =
      .ok ("attribute_exists(a) AND NOT ( size(b[0].c) >= :n OR d IN (:x, :y) )",
        ["a", "b", "c", "d"]) := by rfl
  cases hcompile : compile {}
      "attribute_exists( a )  AND NOT ( size(b[0].c) >= :n OR d IN (:x ,:y) )"
      [.int 1, .int 2, .int 3] with
  | error e =>
    rw [hcompile] at hresult
    contradiction
  | ok result =>
    obtain ⟨c, after⟩ := result
    rw [hcompile] at hresult
    obtain ⟨hexpand, hnames⟩ := Prod.mk.inj (Except.ok.inj hresult)
    obtain ⟨-, hagain⟩ := compile_expand (by decide) hcompile
    obtain ⟨again, hagain⟩ := hagain (.inl (by rw [hnames]; decide))
    exact ⟨c, after, again, rfl, hexpand, hagain⟩

/-- An `AND` in a call closes a `BETWEEN` only while blanks stand around it. -/
theorem not_recompiled_expand : ¬ ∀ (names after : Namespace) (text : String) (values : List Json)
    (c : Compiled), '\x1f' ∉ text.toList → compile names text values = .ok (c, after) →
      squeeze c.expand.toList = squeeze text.toList ∧
        ∃ again, compileAlone c.expand values = .ok again ∧ again.expand = c.expand ∧
          again.terms = c.terms ∧ again.values = c.values := by
  intro h
  have hresult : (compile {} "BETWEEN = :x OR attribute_exists( AND ) AND C = :c"
      [.int 1, .int 2]).map (fun result => result.1.expand) =
      .ok "BETWEEN = :x OR attribute_exists(AND) AND C = :c" := by rfl
  cases hcompile : compile {} "BETWEEN = :x OR attribute_exists( AND ) AND C = :c"
      [.int 1, .int 2] with
  | error e =>
    rw [hcompile] at hresult
    contradiction
  | ok result =>
    obtain ⟨c, after⟩ := result
    rw [hcompile] at hresult
    have hexpand : c.expand = "BETWEEN = :x OR attribute_exists(AND) AND C = :c" :=
      Except.ok.inj hresult
    obtain ⟨-, again, hagain, -⟩ := h {} after _ _ c (by decide) hcompile
    rw [hexpand] at hagain
    have hfails : compileAlone "BETWEEN = :x OR attribute_exists(AND) AND C = :c"
        [.int 1, .int 2] = .error (.unknownTerm "attribute_exists(AND) AND C = :c") := by rfl
    rw [hfails] at hagain
    contradiction

end TableClient.Condition
