import Mathlib
import TableClient.Client
import TableClient.Proofs.Conversation
import TableClient.Proofs.Dict
import TableClient.Proofs.Key.Identity

/-!
# A store of rows

A store keeps at most one item for each key of each table, where the key of an item are its values
for the attributes of the layout of the table. It does a part of a batch of writes, in any order,
and echoes the rest.

Results:
* `writeAll_of_not_mem`: rows that no write is about stay as they are.
* `writeAll_of_unique`: a row that one write is about is what the write leaves.
-/

namespace TableClient

open Protocol (Write BatchWriteReply)

/-- A row: a table, and the values of a key in the order of the layout of the table. -/
abbrev Row := String × List (Option Attribute)

/-- The items that a store keeps, by their rows. -/
abbrev Rows := Row → Option AttributeMap

/-- The row that an entry of a batch is about. -/
def rowOf (layouts : String → KeyLayout) (entry : String × Write) : Row :=
  (entry.1, (layouts entry.1).values entry.2.attributes)

/-- Whether a request has an entry for a row. -/
def Request.carries (layouts : String → KeyLayout) (row : Row) : Request → Bool
  | .batchWrite input => (Dict.entries input.tables).any fun entry => rowOf layouts entry = row
  | _ => false

namespace Rows

variable {layouts : String → KeyLayout}

/-- What a write leaves in its row. -/
def written? : Write → Option AttributeMap
  | .put item => some item
  | .delete _ => none

/-- The rows after a write to a table. -/
def write (layouts : String → KeyLayout) (rows : Rows) (entry : String × Write) : Rows :=
  fun row => if rowOf layouts entry = row then written? entry.2 else rows row

/-- The rows after some writes, one after the other. -/
def writeAll (layouts : String → KeyLayout) (rows : Rows) (entries : List (String × Write)) :
    Rows :=
  entries.foldl (Rows.write layouts) rows

/-- What a store may answer to a request, and the rows it is left with: it does a part of a batch
    of writes and echoes the rest, or it fails, and then anything may have been written. -/
inductive Serves (layouts : String → KeyLayout) : Rows → Request → Reply → Rows → Prop
  | wrote {rows : Rows} {input : Protocol.BatchWrite} {reply : Reply} {answer : BatchWriteReply}
      {done : List (String × Write)} (hreply : reply.as BatchWriteReply = .ok answer)
      (hpart : (done ++ Dict.entries answer.unprocessed).Perm (Dict.entries input.tables)) :
      Serves layouts rows (.batchWrite input) reply (rows.writeAll layouts done)
  | failed {rows rows' : Rows} {input : Protocol.BatchWrite} {reply : Reply}
      {cause : TransportError} (hreply : reply.as BatchWriteReply = .error cause) :
      Serves layouts rows (.batchWrite input) reply rows'

/-! ## Lemmas -/

theorem carries_iff {row : Row} {input : Protocol.BatchWrite} :
    (Request.batchWrite input).carries layouts row = true ↔
      ∃ entry ∈ Dict.entries input.tables, rowOf layouts entry = row := by
  simp [Request.carries]

/-- Rows that no write is about stay as they are. -/
theorem writeAll_of_not_mem {rows : Rows} {entries : List (String × Write)} {row : Row}
    (h : ∀ entry ∈ entries, rowOf layouts entry ≠ row) :
    rows.writeAll layouts entries row = rows row := by
  induction entries generalizing rows with
  | nil => rfl
  | cons entry entries ih =>
    have hrest := @ih (rows.write layouts entry) fun other hother =>
      h other (List.mem_cons_of_mem _ hother)
    exact hrest.trans (if_neg (h entry List.mem_cons_self))

/-- A row that one of the writes is about is what the write leaves. -/
theorem writeAll_of_unique {rows : Rows} {entries : List (String × Write)}
    {entry : String × Write} (hentry : entry ∈ entries)
    (hunique : ∀ other ∈ entries, rowOf layouts other = rowOf layouts entry → other = entry) :
    rows.writeAll layouts entries (rowOf layouts entry) = written? entry.2 := by
  induction entries generalizing rows with
  | nil => exact absurd hentry List.not_mem_nil
  | cons first entries ih =>
    by_cases hmem : entry ∈ entries
    · exact ih hmem fun other hother => hunique other (List.mem_cons_of_mem _ hother)
    · obtain rfl : entry = first := (List.mem_cons.mp hentry).resolve_right hmem
      have hrest : ∀ other ∈ entries, rowOf layouts other ≠ rowOf layouts entry := by
        intro other hother hsame
        obtain rfl := hunique other (List.mem_cons_of_mem _ hother) hsame
        exact hmem hother
      exact (writeAll_of_not_mem hrest).trans (if_pos rfl)

end Rows

end TableClient
