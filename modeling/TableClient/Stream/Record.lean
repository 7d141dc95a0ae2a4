import TableClient.Error
import TableClient.Stream.Sequence

/-!
# Records of a stream

A record tells that an item was added, updated or deleted, and shows an image of it: of a deleted
item the one before, else the one behind the change. When the stream shows keys only, or there is
no such image, the key attributes stand for it.
-/

namespace TableClient

/-- The kind of a change. -/
inductive ChangeKind where
  | added
  | updated
  | deleted
deriving DecidableEq

namespace ChangeKind

/-- The name of a kind. -/
def name : ChangeKind → String
  | .added => "added"
  | .updated => "updated"
  | .deleted => "deleted"

instance : JsonForm ChangeKind where
  toJson kind := .string kind.name
  readFrom? _ := readAlternative? [.added, .updated, .deleted] name

/-- The kind that the name of an event stands for. -/
def ofEventName? (name : String) : Option ChangeKind :=
  if name = "INSERT" then some .added
  else if name = "MODIFY" then some .updated
  else if name = "REMOVE" then some .deleted
  else none

end ChangeKind

/-- A change of an item. -/
structure Record where
  kind : ChangeKind
  sequenceNumber : SequenceNumber
  image : AttributeMap
deriving DecidableEq

namespace Record

/-- The image that a raw record shows of the item. -/
def imageOf? (kind : ChangeKind) (keysOnly : Bool) (raw : Protocol.RawRecord) :
    Option AttributeMap :=
  let image := if kind = .deleted then raw.oldImage else raw.newImage
  match image with
  | some image =>
    if !keysOnly then some image else if raw.keys.isEmpty then none else some raw.keys
  | none => if raw.keys.isEmpty then none else some raw.keys

/-- The record that a raw record is. -/
def ofRaw (keysOnly : Bool) (raw : Protocol.RawRecord) : Except StreamError Record :=
  match raw.eventName with
  | none => .error .missingEventName
  | some name =>
    match ChangeKind.ofEventName? name with
    | none => .error (.unknownEventName name)
    | some kind =>
      match imageOf? kind keysOnly raw with
      | none => .error (.noImage raw.sequenceNumber)
      | some image => .ok ⟨kind, ⟨raw.sequenceNumber⟩, image⟩

end Record

end TableClient
