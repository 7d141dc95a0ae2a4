import Mathlib
import TableClient.Config
import TableClient.Key.Schema
import TableClient.Protocol.Message
import TableClient.Proofs.Attribute.Form
import TableClient.Proofs.Json.Record

/-!
# Payloads are read back

Every type of payload is read back from the text that it is written as: fields that are left out
when they are absent, fields that are null when they are absent, fields with defaults, and
alternatives under their names. The one thing that stands in the way is the reader, which refuses a
text in which too many arrays and objects stand in one another; only attributes can be that deep.
What is written need not be the text that was read, but it is read as the same value, because the
defaults that are added to it are not deep.

Results:
* `roundTrips`: a type whose values are read back from their JSON forms is read back from texts.
* `payloads_round_trip`: so are all payloads, attributes, schemas and settings.
* `depth_nestedLists`: lists in one another are written with two levels for each of them.
-/

namespace TableClient

namespace Protocol

/-! ## Single items -/

instance : WireForm GetItem := .ofRecord (fun _ => rfl) (fun _ => rfl) (by decide)

instance : WireForm GetItemReply := .ofRecord (fun _ => rfl) (fun _ => rfl) (by decide)

instance : WireForm PutItem := .ofRecord (fun _ => rfl) (fun _ => rfl) (by decide)

instance : WireForm DeleteItem := .ofRecord (fun _ => rfl) (fun _ => rfl) (by decide)

/-! ## Queries and scans -/

instance : WireForm Query := .ofRecord (fun _ => rfl) (fun _ => rfl) (by decide)

instance : WireForm Scan := .ofRecord (fun _ => rfl) (fun _ => rfl) (by decide)

instance : WireForm Page := .ofRecord (fun _ => rfl) (fun _ => rfl) (by decide)

/-! ## Batches -/

instance : WireForm KeySelection := .ofRecord (fun _ => rfl) (fun _ => rfl) (by decide)

instance : WireForm BatchGet := .ofRecord (fun _ => rfl) (fun _ => rfl) (by decide)

instance : WireForm BatchGetReply := .ofRecord (fun _ => rfl) (fun _ => rfl) (by decide)

theorem toJson_put (item : AttributeMap) :
    toJson (Write.put item) = .object [("put", (RecordForm.required "item").toJson item)] := rfl

theorem toJson_delete (key : AttributeMap) :
    toJson (Write.delete key) = .object [("delete", (RecordForm.required "key").toJson key)] := rfl

instance : WireForm Write where
  Ordered write := Ordered write.attributes
  height := outerHeight (outerHeight (WireForm.height AttributeMap))
  plain_toJson write := by
    cases write <;> exact ⟨⟨plain_toJson _, trivial⟩, trivial⟩
  reads_back {write} h source := by
    have hread : ∀ name : String, (RecordForm.required name).readContent? source
        (source.see ((RecordForm.required name).toJson write.attributes)) = some write.attributes :=
      fun name => RecordForm.readContent?_see (List.nodup_singleton name) h
    cases write with
    | put item =>
      rw [toJson_put, Source.see_singleton]
      exact congrArg (Option.map Write.put) (hread "item")
    | delete key =>
      rw [toJson_delete, Source.see_singleton]
      exact congrArg (Option.map Write.delete) (hread "key")
  ordered_of_readFrom? {source json write} h := by
    simp only [readFrom?] at h
    split at h
    · split_ifs at h <;> obtain ⟨attributes, hread, rfl⟩ := Option.map_eq_some_iff.mp h
      all_goals
        exact RecordForm.ordered_of_readFrom? (RecordForm.readFrom?_of_readContent? hread)
    · cases h
  depth_le {source json write} h := by
    simp only [readFrom?] at h
    split at h
    · split_ifs at h <;> obtain ⟨attributes, hread, rfl⟩ := Option.map_eq_some_iff.mp h
      all_goals
        have hdepth := RecordForm.depth_toJson_le (RecordForm.readFrom?_of_readContent? hread)
        simp only [toJson, Json.depth_singleton]
        exact succ_le_max_outerHeight hdepth
    · cases h

instance : WireForm BatchWrite := .ofRecord (fun _ => rfl) (fun _ => rfl) (by decide)

instance : WireForm BatchWriteReply := .ofRecord (fun _ => rfl) (fun _ => rfl) (by decide)

/-! ## Streams -/

instance : WireForm StreamStatus :=
  .ofAtoms (fun _ => trivial) (fun _ => rfl) fun _ value => by cases value <;> rfl

instance : Mapless StreamStatus := ⟨fun _ => trivial⟩

instance : WireForm StreamView :=
  .ofAtoms (fun _ => trivial) (fun _ => rfl) fun _ value => by cases value <;> rfl

instance : Mapless StreamView := ⟨fun _ => trivial⟩

instance : WireForm IteratorStart :=
  .ofAtoms (fun _ => trivial) (fun _ => rfl) fun _ value => by cases value <;> rfl

instance : WireForm DescribeStream := .ofRecord (fun _ => rfl) (fun _ => rfl) (by decide)

instance : WireForm ShardDescription := .ofRecord (fun _ => rfl) (fun _ => rfl) (by decide)

instance : WireForm StreamDescription := .ofRecord (fun _ => rfl) (fun _ => rfl) (by decide)

instance : WireForm GetShardIterator := .ofRecord (fun _ => rfl) (fun _ => rfl) (by decide)

instance : WireForm GetShardIteratorReply := .ofRecord (fun _ => rfl) (fun _ => rfl) (by decide)

instance : WireForm GetRecords := .ofRecord (fun _ => rfl) (fun _ => rfl) (by decide)

instance : WireForm RawRecord := .ofRecord (fun _ => rfl) (fun _ => rfl) (by decide)

instance : WireForm GetRecordsReply := .ofRecord (fun _ => rfl) (fun _ => rfl) (by decide)

instance : WireForm TableDescription := .ofRecord (fun _ => rfl) (fun _ => rfl) (by decide)

instance : WireForm ErrorReply := .ofRecord (fun _ => rfl) (fun _ => rfl) (by decide)

end Protocol

/-! ## Schemas and settings -/

instance : WireForm KeyRole :=
  .ofAtoms (fun _ => trivial) (fun _ => rfl) fun _ value => by cases value <;> rfl

instance : WireForm KeyPart := .ofRecord (fun _ => rfl) (fun _ => rfl) (by decide)

instance : WireForm KeyLayout := .ofRecord (fun _ => rfl) (fun _ => rfl) (by decide)

instance : WireForm IndexKind :=
  .ofAtoms (fun _ => trivial) (fun _ => rfl) fun _ value => by cases value <;> rfl

instance : WireForm IndexSchema := .ofRecord (fun _ => rfl) (fun _ => rfl) (by decide)

instance : WireForm ItemSchema := .ofRecord (fun _ => rfl) (fun _ => rfl) (by decide)

instance : WireForm Config := .ofRecord (fun _ => rfl) (fun _ => rfl) (by decide)

/-! ## Texts -/

section Texts

variable (α : Type) [JsonForm α]

/-- The text that a value is written as. -/
def writtenText {α : Type} [JsonForm α] (value : α) : String := (toJson value).compact

/-- The value of a type that a text is read as, at once or by way of the value of the text. -/
def readAs (source : Source) (text : String) : Option α :=
  (Json.written? text.toList).bind fun json => readFrom? source (source.see json)

theorem readAs_value (text : String) :
    readAs α .value text = (Json.ofText? text.toList).bind ofJson? := by
  rw [readAs, Json.ofText?, Option.bind_map]
  rfl

variable [WireForm α]

/-- The values of a type are read back from their texts. -/
structure RoundTrips : Prop where
  /-- A value whose maps are in order, as maps are, is read back, unless it is too deep. -/
  read_written : ∀ (source : Source) (value : α), Ordered value →
    readAs α source (writtenText value) =
      if (toJson value).depth ≤ Json.maxDepth then some value else none
  /-- Whatever text a value was read from, it is read again from the text that it is written as. -/
  read_again : ∀ (source : Source) (text : String) (value : α),
    readAs α source text = some value →
      ∀ other : Source, readAs α other (writtenText value) = some value
  /-- The maps of a value that was read are in order. -/
  ordered : ∀ (source : Source) (text : String) (value : α),
    readAs α source text = some value → Ordered value

variable {α} {source : Source}

theorem readAs_writtenText {value : α} (h : Ordered value) : readAs α source (writtenText value) =
    if (toJson value).depth ≤ Json.maxDepth then some value else none := by
  rw [readAs, writtenText, Json.written?_compact (plain_toJson value)]
  split_ifs
  · exact reads_back h source
  · rfl

theorem ordered_of_readAs {text : String} {value : α} (h : readAs α source text = some value) :
    Ordered value := by
  obtain ⟨json, -, hread⟩ := Option.bind_eq_some_iff.mp h
  exact ordered_of_readFrom? hread

/-- A value that was read is not too deep to be read again. -/
theorem depth_le_of_readAs {text : String} {value : α} (hheight : WireForm.height α ≤ Json.maxDepth)
    (h : readAs α source text = some value) : (toJson value).depth ≤ Json.maxDepth := by
  obtain ⟨json, hjson, hread⟩ := Option.bind_eq_some_iff.mp h
  calc (toJson value).depth
    _ ≤ max (source.see json).depth (WireForm.height α) := WireForm.depth_le hread
    _ ≤ Json.maxDepth := max_le
      ((Source.depth_see_le json).trans (Json.within_of_written? hjson).depth_le) hheight

/-- A type whose values are read back from their JSON forms, and whose defaults are not deep, is
    read back from texts. -/
theorem roundTrips (α : Type) [JsonForm α] [WireForm α]
    (hheight : WireForm.height α ≤ Json.maxDepth) : RoundTrips α where
  read_written _ _ h := readAs_writtenText h
  read_again _ _ _ h _ :=
    (readAs_writtenText (ordered_of_readAs h)).trans (if_pos (depth_le_of_readAs hheight h))
  ordered _ _ _ h := ordered_of_readAs h

end Texts

open Protocol in
/-- Every payload, attribute, schema and setting is read back from the text that it is written
    as. -/
theorem payloads_round_trip :
    (RoundTrips GetItem ∧ RoundTrips GetItemReply ∧ RoundTrips PutItem ∧ RoundTrips DeleteItem) ∧
    (RoundTrips Query ∧ RoundTrips Scan ∧ RoundTrips Page) ∧
    (RoundTrips KeySelection ∧ RoundTrips BatchGet ∧ RoundTrips BatchGetReply ∧
      RoundTrips Write ∧ RoundTrips BatchWrite ∧ RoundTrips BatchWriteReply) ∧
    (RoundTrips StreamStatus ∧ RoundTrips StreamView ∧ RoundTrips DescribeStream ∧
      RoundTrips ShardDescription ∧ RoundTrips StreamDescription ∧ RoundTrips IteratorStart ∧
      RoundTrips GetShardIterator ∧ RoundTrips GetShardIteratorReply ∧ RoundTrips GetRecords ∧
      RoundTrips RawRecord ∧ RoundTrips GetRecordsReply ∧ RoundTrips TableDescription) ∧
    (RoundTrips Attribute ∧ RoundTrips AttributeMap ∧ RoundTrips ItemSchema ∧
      RoundTrips ErrorReply ∧ RoundTrips Config) :=
  ⟨⟨roundTrips _ (by decide), roundTrips _ (by decide), roundTrips _ (by decide),
      roundTrips _ (by decide)⟩,
    ⟨roundTrips _ (by decide), roundTrips _ (by decide), roundTrips _ (by decide)⟩,
    ⟨roundTrips _ (by decide), roundTrips _ (by decide), roundTrips _ (by decide),
      roundTrips _ (by decide), roundTrips _ (by decide), roundTrips _ (by decide)⟩,
    ⟨roundTrips _ (by decide), roundTrips _ (by decide), roundTrips _ (by decide),
      roundTrips _ (by decide), roundTrips _ (by decide), roundTrips _ (by decide),
      roundTrips _ (by decide), roundTrips _ (by decide), roundTrips _ (by decide),
      roundTrips _ (by decide), roundTrips _ (by decide), roundTrips _ (by decide)⟩,
    ⟨roundTrips _ (by decide), roundTrips _ (by decide), roundTrips _ (by decide),
      roundTrips _ (by decide), roundTrips _ (by decide)⟩⟩

/-- A query without index and filter, with the greatest limit, and with values in values. -/
def nestedQuery : Protocol.Query where
  table := "albums"
  keyCondition := "#k0 = :k0"
  names := [("#k0", "artist")]
  values := [(":k0", .map
    [("cover", .binary [0, 255]), ("tags", .stringSet ["live\n", "\"1977\""])])]
  limit := some 0xFFFFFFFFFFFFFFFF
  startKey := some [("artist", .string "Kraftwerk")]

theorem nestedQuery_is_read_back : Ordered nestedQuery ∧
    ∀ source, readAs Protocol.Query source (writtenText nestedQuery) = some nestedQuery := by
  have hcontent : Ordered (Attribute.map
      [("cover", .binary [0, 255]), ("tags", .stringSet ["live\n", "\"1977\""])]) :=
    ⟨by unfold Dict.Sorted; decide, trivial, trivial, trivial⟩
  have hnames : Ordered nestedQuery.names :=
    ⟨List.pairwise_singleton _ _, fun _ _ => ordered_of_mapless _⟩
  have hvalues : Ordered nestedQuery.values := by
    refine ⟨List.pairwise_singleton _ _, fun entry hentry => ?_⟩
    rw [List.mem_singleton.mp hentry]
    exact hcontent
  have hstart : Ordered nestedQuery.startKey := by
    rintro key ⟨⟩
    refine ⟨List.pairwise_singleton _ _, fun entry hentry => ?_⟩
    rw [List.mem_singleton.mp hentry]
    trivial
  have hordered : Ordered nestedQuery :=
    ⟨trivial, ordered_of_mapless _, trivial, ordered_of_mapless _, hnames, hvalues,
      ordered_of_mapless _, trivial, trivial, hstart⟩
  exact ⟨hordered, fun source =>
    (payloads_round_trip.2.1.1.read_written source nestedQuery hordered).trans
      (if_pos (by decide))⟩

/-- An empty list in that many other lists. -/
def nestedLists : ℕ → Attribute
  | 0 => .list []
  | n + 1 => .list [nestedLists n]

theorem ordered_nestedLists : ∀ n, Ordered (nestedLists n)
  | 0 => trivial
  | n + 1 => ⟨ordered_nestedLists n, trivial⟩

/-- Each list is an object with an array in it. -/
theorem depth_nestedLists (n : ℕ) : (toJson (nestedLists n)).depth = 2 * n + 2 := by
  induction n with
  | zero => rfl
  | succ n ih =>
    have hsucc : (toJson (nestedLists (n + 1))).depth = (toJson (nestedLists n)).depth + 2 := by
      simp [nestedLists, toJson, Attribute.content, Attribute.contentItems, Json.depth,
        Json.depthItems, Json.depthFields]
    omega

theorem nestedLists_is_not_read_back : Ordered (nestedLists 63) ∧
    ∀ source, readAs Attribute source (writtenText (nestedLists 63)) = none := by
  refine ⟨ordered_nestedLists 63, fun source => ?_⟩
  rw [readAs_writtenText (ordered_nestedLists 63), if_neg]
  rw [depth_nestedLists]
  decide

end TableClient
