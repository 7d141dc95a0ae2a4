import Mathlib
import TableClient.Key.Schema

/-!
# Building a schema

A schema is built from a primary key by any calls in any order: an index is added behind the others,
and attributes are projected into the first index of a name. Each index is that of its call, and
whatever is projected into it later, it holds the attributes of the table's key and of its own, none
of them twice.

Results:
* `exists_addNames`: what adding names puts behind those that are there.
* `projects_projectFirst`: what projecting attributes changes.
* `Sound.step`: every call keeps the indexes those of their calls and well formed.
* `build_wellFormed`: so any calls do.
-/

namespace TableClient

/-- Behind the names that are there stand the others, each once. -/
theorem exists_addNames (there names : List String) :
    ∃ added, addNames there names = there ++ added ∧ added.Nodup ∧
      ∀ name, name ∈ added ↔ name ∈ names ∧ name ∉ there := by
  induction names generalizing there with
  | nil => exact ⟨[], by simp [addNames]⟩
  | cons first names ih =>
    rw [addNames]
    by_cases hfirst : first ∈ there
    · obtain ⟨added, heq, hnodup, hmem⟩ := ih there
      refine ⟨added, by simpa [hfirst] using heq, hnodup, fun name => ?_⟩
      rw [hmem, List.mem_cons]
      constructor
      · rintro ⟨hname, hnew⟩
        exact ⟨.inr hname, hnew⟩
      · rintro ⟨rfl | hname, hnew⟩
        · exact absurd hfirst hnew
        · exact ⟨hname, hnew⟩
    · obtain ⟨added, heq, hnodup, hmem⟩ := ih (there ++ [first])
      refine ⟨first :: added, by simpa [hfirst] using heq, ?_, fun name => ?_⟩
      · refine List.nodup_cons.mpr ⟨fun h => ?_, hnodup⟩
        exact ((hmem first).mp h).2 (by simp)
      · rw [List.mem_cons, hmem, List.mem_cons, List.mem_append, List.mem_singleton]
        by_cases hname : name = first
        · simp [hname, hfirst]
        · simp [hname]

/-- An index is of the kind that its hash attribute says, and holds the attributes of the table's
    key and of its own, none twice. -/
structure IndexSchema.Fits (primary : KeyLayout) (index : IndexSchema) : Prop where
  kind_iff : index.kind = .localToTable ↔ index.key.nameOf? .hash = primary.nameOf? .hash
  nodup : index.projections.Nodup
  primary_subset : primary.names ⊆ index.projections
  key_subset : index.key.names ⊆ index.projections

/-- An index still fits with attributes that it lacked behind those that it had. -/
theorem IndexSchema.Fits.append {primary : KeyLayout} {index : IndexSchema}
    (h : index.Fits primary) {added : List String} (hnodup : added.Nodup)
    (hnew : ∀ name ∈ added, name ∉ index.projections) :
    { index with projections := index.projections ++ added : IndexSchema }.Fits primary where
  kind_iff := h.kind_iff
  nodup := h.nodup.append hnodup fun name hthere hadded => hnew name hadded hthere
  primary_subset := fun _ hname => List.mem_append_left added (h.primary_subset hname)
  key_subset := fun _ hname => List.mem_append_left added (h.key_subset hname)

namespace ItemSchema

/-! ## Calls -/

/-- A call on a schema that is being built. -/
inductive Step where
  | index (name : String) (key : KeyLayout)
  | localIndex (name range : String)
  | project (name : String) (attributes : List String)

namespace Step

/-- The schema after a call. -/
def apply (schema : ItemSchema) : Step → ItemSchema
  | index name key => schema.addIndex name key
  | localIndex name range => schema.addLocalIndex name range
  | project name attributes => schema.project name attributes

/-- Whether a call adds an index. -/
def adds : Step → Bool
  | index _ _ | localIndex _ _ => true
  | project _ _ => false

/-- An index has the name and the key that a call gave it on a table with the given hash attribute,
    and it is local if the call says so. -/
def Makes (hash : String) : Step → IndexSchema → Prop
  | index name key, made => made.name = name ∧ made.key = key
  | localIndex name range, made =>
    made.name = name ∧ made.key = .ofHashRange hash range ∧ made.kind = .localToTable
  | project _ _, _ => False

end Step

/-- The schema that calls on a primary key build, one after another. -/
def build (primary : KeyLayout) (steps : List Step) : ItemSchema :=
  steps.foldl Step.apply ⟨primary, []⟩

theorem build_snoc (primary : KeyLayout) (steps : List Step) (step : Step) :
    build primary (steps ++ [step]) = step.apply (build primary steps) := by
  unfold build
  rw [List.foldl_append]
  rfl

/-! ## Projecting -/

/-- The first index of a name has the attributes that it lacked behind those that it had, each once;
    every other index is as it was, and so are all of them if none has the name. -/
inductive Projects (name : String) (attributes : List String) :
    List IndexSchema → List IndexSchema → Prop
  | missing {indexes : List IndexSchema} (h : ∀ index ∈ indexes, index.name ≠ name) :
    Projects name attributes indexes indexes
  | first (front back : List IndexSchema) {index : IndexSchema} {added : List String}
    (hfront : ∀ other ∈ front, other.name ≠ name) (hname : index.name = name)
    (hnodup : added.Nodup)
    (hadded : ∀ other, other ∈ added ↔ other ∈ attributes ∧ other ∉ index.projections) :
    Projects name attributes (front ++ index :: back)
      (front ++ { index with projections := index.projections ++ added } :: back)

theorem Projects.cons {name : String} {attributes : List String} {indexes more : List IndexSchema}
    (h : Projects name attributes indexes more) {other : IndexSchema} (hother : other.name ≠ name) :
    Projects name attributes (other :: indexes) (other :: more) := by
  cases h with
  | missing hmissing => exact .missing (List.forall_mem_cons.mpr ⟨hother, hmissing⟩)
  | first front back hfront hname hnodup hadded =>
    exact .first (other :: front) back (List.forall_mem_cons.mpr ⟨hother, hfront⟩) hname hnodup
      hadded

theorem projects_projectFirst (name : String) (attributes : List String)
    (indexes : List IndexSchema) :
    Projects name attributes indexes (projectFirst name attributes indexes) := by
  induction indexes with
  | nil => exact .missing (by simp)
  | cons index indexes ih =>
    rw [projectFirst]
    split_ifs with hname
    · obtain ⟨added, heq, hnodup, hadded⟩ := exists_addNames index.projections attributes
      rw [heq]
      exact .first [] indexes (by simp) hname hnodup hadded
    · exact ih.cons hname

/-- Indexes that fit still do after projecting. -/
theorem Projects.fits {name : String} {attributes : List String} {indexes more : List IndexSchema}
    (h : Projects name attributes indexes more) {primary : KeyLayout}
    (hfits : ∀ index ∈ indexes, index.Fits primary) : ∀ index ∈ more, index.Fits primary := by
  cases h with
  | missing => exact hfits
  | first front back hfront hname hnodup hadded =>
    obtain ⟨hbefore, hthere⟩ := List.forall_mem_append.mp hfits
    obtain ⟨hindex, hbehind⟩ := List.forall_mem_cons.mp hthere
    have hmore := hindex.append hnodup fun other hother => ((hadded other).mp hother).2
    exact List.forall_mem_append.mpr ⟨hbefore, List.forall_mem_cons.mpr ⟨hmore, hbehind⟩⟩

/-- Projecting does not change which calls made the indexes. -/
theorem makes_projectFirst {hash name : String} {attributes : List String} {steps : List Step}
    {indexes : List IndexSchema} (h : List.Forall₂ (Step.Makes hash) steps indexes) :
    List.Forall₂ (Step.Makes hash) steps (projectFirst name attributes indexes) := by
  induction h with
  | nil => exact .nil
  | @cons step index steps indexes hfirst hrest ih =>
    rw [projectFirst]
    split_ifs
    · refine .cons ?_ hrest
      cases step <;> exact hfirst
    · exact .cons hfirst ih

/-! ## Steps -/

/-- The indexes of a schema are those of the calls that add one, in order, and each of them fits. -/
structure Sound (hash : String) (primary : KeyLayout) (steps : List Step)
    (schema : ItemSchema) : Prop where
  primary_eq : schema.primary = primary
  makes : List.Forall₂ (Step.Makes hash) (steps.filter Step.adds) schema.indexes
  fits : ∀ index ∈ schema.indexes, index.Fits primary

theorem exists_addIndex (schema : ItemSchema) (name : String) (key : KeyLayout) :
    ∃ made, schema.addIndex name key = { schema with indexes := schema.indexes ++ [made] } ∧
      made.name = name ∧ made.key = key ∧ made.Fits schema.primary := by
  refine ⟨_, rfl, rfl, rfl, ?_, nodup_addNames List.nodup_nil _, ?_, ?_⟩
  · show (if _ then IndexKind.localToTable else .global) = .localToTable ↔ _
    split_ifs with hhash
    · exact iff_of_true rfl hhash
    · exact iff_of_false (by simp) hhash
  · exact fun _ hname => mem_addNames.mpr (.inr (List.mem_append_left _ hname))
  · exact fun _ hname => mem_addNames.mpr (.inr (List.mem_append_right _ hname))

section

variable {hash : String} {primary : KeyLayout} {steps : List Step} {schema : ItemSchema}

/-- A call may add an index that is its own and fits. -/
theorem Sound.add (h : Sound hash primary steps schema) {step : Step} {made : IndexSchema}
    (hadds : step.adds = true) (hmakes : step.Makes hash made) (hfits : made.Fits primary) :
    Sound hash primary (steps ++ [step]) { schema with indexes := schema.indexes ++ [made] } where
  primary_eq := h.primary_eq
  makes := by
    rw [List.filter_append, List.filter_singleton, hadds]
    exact List.rel_append h.makes (.cons hmakes .nil)
  fits := List.forall_mem_append.mpr ⟨h.fits, by simpa using hfits⟩

theorem Sound.project (h : Sound hash primary steps schema) (name : String)
    (attributes : List String) :
    Sound hash primary (steps ++ [.project name attributes]) (schema.project name attributes) where
  primary_eq := h.primary_eq
  makes := by
    have hsteps : (steps ++ [Step.project name attributes]).filter Step.adds =
        steps.filter Step.adds := by
      rw [List.filter_append]
      exact List.append_nil _
    rw [hsteps]
    exact makes_projectFirst h.makes
  fits := (projects_projectFirst name attributes schema.indexes).fits h.fits

/-- Every call keeps the indexes those of the calls, each of them fitting. -/
theorem Sound.step (h : Sound hash primary steps schema) (hhash : primary.nameOf? .hash = some hash)
    (step : Step) : Sound hash primary (steps ++ [step]) (step.apply schema) := by
  obtain rfl := h.primary_eq
  cases step with
  | index name key =>
    obtain ⟨made, happly, hname, hkey, hfits⟩ := exists_addIndex schema name key
    rw [Step.apply, happly]
    exact h.add rfl ⟨hname, hkey⟩ hfits
  | localIndex name range =>
    obtain ⟨made, happly, hname, hkey, hfits⟩ :=
      exists_addIndex schema name (.ofHashRange hash range)
    -- the hash attribute of its key is that of the table
    have hlocal : made.kind = .localToTable := hfits.kind_iff.mpr (by rw [hkey, hhash]; rfl)
    rw [Step.apply, addLocalIndex, hhash, Option.getD_some, happly]
    exact h.add rfl ⟨hname, hkey, hlocal⟩ hfits
  | project name attributes => exact h.project name attributes

end

theorem exists_hash {primary : KeyLayout} (h : primary.fault? = none) :
    ∃ hash, primary.nameOf? .hash = some hash := by
  obtain ⟨hash, -, rfl⟩ | ⟨hash, range, -, -, rfl⟩ := (KeyLayout.fault?_eq_none_iff primary).mp h
  · exact ⟨hash, rfl⟩
  · exact ⟨hash, rfl⟩

theorem sound_build {hash : String} {primary : KeyLayout}
    (hhash : primary.nameOf? .hash = some hash) (steps : List Step) :
    Sound hash primary steps (build primary steps) := by
  induction steps using List.reverseRecOn with
  | nil => exact ⟨rfl, .nil, by simp [build]⟩
  | append_singleton steps step ih =>
    rw [build_snoc]
    exact ih.step hhash step

/-- Whatever calls build a schema on a primary key without fault, its indexes are those of the calls
    that add one, in order; each of them is local exactly if its hash attribute is that of the
    table, so each that is added as a local one, and holds the attributes of both keys, none twice.
    To project attributes changes the first index of the name alone, and adds behind what it
    holds. -/
theorem build_wellFormed {primary : KeyLayout} (h : primary.fault? = none) (steps : List Step) :
    (build primary steps).primary = primary ∧
    (∃ hash, primary.nameOf? .hash = some hash ∧
      List.Forall₂ (Step.Makes hash) (steps.filter Step.adds) (build primary steps).indexes) ∧
    (∀ index ∈ (build primary steps).indexes, index.Fits primary) ∧
    ∀ name attributes, Projects name attributes (build primary steps).indexes
      (build primary (steps ++ [.project name attributes])).indexes := by
  obtain ⟨hash, hhash⟩ := exists_hash h
  obtain ⟨hprimary, hmakes, hfits⟩ := sound_build hhash steps
  refine ⟨hprimary, ⟨hash, hhash, hmakes⟩, hfits, fun name attributes => ?_⟩
  rw [build_snoc]
  exact projects_projectFirst name attributes _

/-- Calls that add two indexes of one name, with key attributes of the table among theirs. -/
def albumIndexes : List Step :=
  [.localIndex "by" "year", .index "by" (.ofHashRange "title" "artist"),
   .project "by" ["label", "year", "label"]]

/-- The first index gets the one attribute that it lacks, the second one of the name stays. -/
theorem build_wellFormed_albumIndexes :
    let primary : KeyLayout := .ofHashRange "artist" "album"
    let byYear : IndexSchema := ⟨"by", .localToTable, .ofHashRange "artist" "year",
      ["artist", "album", "year", "label"]⟩
    let byTitle : IndexSchema := ⟨"by", .global, .ofHashRange "title" "artist",
      ["artist", "album", "title"]⟩
    primary.fault? = none ∧ (build primary albumIndexes).indexes = [byYear, byTitle] ∧
      List.Forall₂ (Step.Makes "artist") (albumIndexes.filter Step.adds) [byYear, byTitle] ∧
      byYear.Fits primary ∧ byTitle.Fits primary ∧
      Projects "by" ["genre"] [byYear, byTitle]
        (build primary (albumIndexes ++ [.project "by" ["genre"]])).indexes := by
  intro primary byYear byTitle
  have hvalid : primary.fault? = none := by decide
  have hbuilt : (build primary albumIndexes).indexes = [byYear, byTitle] := by decide
  obtain ⟨-, ⟨hash, hhash, hmakes⟩, hfits, hprojects⟩ := build_wellFormed hvalid albumIndexes
  obtain rfl : "artist" = hash := Option.some.inj hhash
  rw [hbuilt] at hmakes hfits
  have hprojected := hprojects "by" ["genre"]
  rw [hbuilt] at hprojected
  exact ⟨hvalid, hbuilt, hmakes, hfits byYear (by simp), hfits byTitle (by simp), hprojected⟩

end ItemSchema

end TableClient
