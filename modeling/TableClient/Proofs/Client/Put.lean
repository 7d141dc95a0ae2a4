import Mathlib
import TableClient.Client
import TableClient.Proofs.Batch.Orders
import TableClient.Proofs.Store

/-!
# Items that are put one by one

A put asks the store for what a batch of puts files for the same item, and leaves the client with
the same schemas. Items of one table that are put one after the other leave, in each row, the last
of the items that have the key of the row.

Results:
* `put_eq`, `putInput?_eq`: a put sends the payload that a batch files, or nothing.
* `putEach_eq`: what is left in a row after some items are put one after the other.
-/

namespace TableClient

open Batch (Filing entryOf filings)
open Protocol (Write)

namespace Client

/-- What a put of an item asks the store for, if the item is accepted. -/
def putInput? (client : Client) (type : ItemType) (table : String) (item : Json) :
    Option Protocol.PutItem :=
  match (client.put type table item).1.request? with
  | some (.putItem input) => some input
  | _ => none

/-- The rows after some items of a table are put one after the other. -/
def putEach (layouts : String → KeyLayout) (client : Client) (type : ItemType) (table : String)
    (rows : Rows) : List Json → Rows
  | [] => rows
  | item :: items =>
    let rows :=
      match client.putInput? type table item with
      | some input => rows.write layouts (input.table, .put input.item)
      | none => rows
    putEach layouts (client.put type table item).2 type table rows items

/-! ## What a put sends -/

theorem put_eq (client : Client) (type : ItemType) (table : String) (item : Json) :
    (client.put type table item).1.request? =
        (entryOf .put client.cache type item).1.toOption.map
          (fun entry => .putItem ⟨table, entry.payload⟩) ∧
      (client.put type table item).2 =
        { client with cache := (entryOf .put client.cache type item).2 } := by
  unfold put resolve entryOf
  cases AttributeMap.ofDocument item with
  | error error => exact ⟨rfl, rfl⟩
  | ok attributes =>
    simp only [Except.map, if_true]
    rcases client.cache.schemaFor type attributes.withoutEmpty with ⟨_ | schema, cache⟩
    · exact ⟨rfl, rfl⟩
    · simp only
      cases schema.primaryKey attributes.withoutEmpty with
      | error error => exact ⟨rfl, rfl⟩
      | ok key => exact ⟨rfl, rfl⟩

/-- A put asks for the payload to be stored that a batch of puts files for the item. -/
theorem putInput?_eq (client : Client) (type : ItemType) (table : String) (item : Json) :
    client.putInput? type table item =
      (entryOf .put client.cache type item).1.toOption.map fun entry => ⟨table, entry.payload⟩ := by
  rw [putInput?, (put_eq client type table item).1]
  cases (entryOf .put client.cache type item).1.toOption <;> rfl

/-- The last of the items with the key of a row is left in the row. -/
theorem putEach_eq (layouts : String → KeyLayout) (client : Client) (type : ItemType)
    (table : String) (rows : Rows) (position : Nat) (items : List Json) (row : Row) :
    client.putEach layouts type table rows items row =
      (((filings .put client.cache table type position items).filter fun filing =>
        rowOf layouts (table, .put filing.entry.payload) = row).getLast?.map
          fun filing => filing.entry.payload).or (rows row) := by
  induction items generalizing client rows position with
  | nil => rfl
  | cons item items ih =>
    rw [putEach, putInput?_eq, ih _ _ (position + 1), (put_eq client type table item).2,
      Batch.filings_cons, List.filter_append]
    cases (entryOf .put client.cache type item).1.toOption with
    | none => rfl
    | some entry =>
      generalize (List.filter _ (filings .put _ table type (position + 1) items)) = later
      simp only [Option.map_some, Option.toList_some, List.filter_singleton, List.getLast?_append,
        Rows.write]
      cases later.getLast? with
      | some last => rfl
      | none =>
        by_cases hrow : rowOf layouts (table, .put entry.payload) = row
        · simp [hrow, Rows.written?]
        · simp [hrow]

end Client

end TableClient
