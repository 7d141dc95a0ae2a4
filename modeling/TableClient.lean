import TableClient.Attribute.Basic
import TableClient.Attribute.Document
import TableClient.Attribute.Form
import TableClient.Batch.Basic
import TableClient.Batch.Round
import TableClient.Batch.Run
import TableClient.Client
import TableClient.Condition.Compiled
import TableClient.Condition.Error
import TableClient.Condition.Reader
import TableClient.Condition.Syntax
import TableClient.Config
import TableClient.Conversation
import TableClient.Dict
import TableClient.Error
import TableClient.Json.Basic
import TableClient.Json.Form
import TableClient.Json.Numeral
import TableClient.Json.Printer
import TableClient.Json.Reader
import TableClient.Key.Cache
import TableClient.Key.Identity
import TableClient.Key.Layout
import TableClient.Key.Resolve
import TableClient.Key.Schema
import TableClient.Main
import TableClient.MessagePack
import TableClient.Names
import TableClient.Number.Binary64
import TableClient.Number.Decimal
import TableClient.Number.Stepwise
import TableClient.Proofs.Batch.Registration
import TableClient.Proofs.Key.Identity
import TableClient.Proofs.Key.Resolve
import TableClient.Proofs.MessagePack
import TableClient.Protocol.Batch
import TableClient.Protocol.Item
import TableClient.Protocol.Message
import TableClient.Protocol.Page
import TableClient.Protocol.Stream
import TableClient.Query.Builder
import TableClient.Query.Pages
import TableClient.Stream.Feed
import TableClient.Stream.Record
import TableClient.Stream.Sequence
import TableClient.Tail
import TableClient.Text.Blank
import TableClient.Text.Cut
import TableClient.Proofs.Batch.Orders
import TableClient.Proofs.Batch.Dedup
import TableClient.Proofs.Batch.Round
import TableClient.Proofs.Batch.Echo
import TableClient.Proofs.Batch.Report
import TableClient.Proofs.Conversation
import TableClient.Proofs.Query.Resume
import TableClient.Proofs.Batch.Run
import TableClient.Proofs.Store
import TableClient.Proofs.Batch.Stored
import TableClient.Proofs.Client.Put
import TableClient.Proofs.Batch.Refinement
import TableClient.Proofs.Stream.Log
import TableClient.Proofs.Stream.Reading
import TableClient.Proofs.Stream.Poll
import TableClient.Proofs.Stream.Session
import TableClient.Proofs.Stream.SingleShard
import TableClient.Proofs.Stream.Replay
import TableClient.Proofs.Stream.Drain
import TableClient.Proofs.Stream.Order
import TableClient.Proofs.Stream.Cursor
import TableClient.Proofs.Stream.Sequence
import TableClient.Proofs.Dict
import TableClient.Proofs.Stream.Comparison
import TableClient.Proofs.Query.Paging
import TableClient.Proofs.Condition.Grammar
import TableClient.Proofs.Condition.Shapes
import TableClient.Proofs.Condition.Terms
import TableClient.Proofs.Condition.Marks
import TableClient.Proofs.Condition.Expansion
import TableClient.Proofs.Condition.Keywords
import TableClient.Proofs.Condition.Compile
import TableClient.Proofs.Condition.Recompile
import TableClient.Proofs.Condition.Tree
import TableClient.Proofs.Condition.Placeholders
import TableClient.Proofs.Condition.Sharing
import TableClient.Proofs.Batch.Collect
import TableClient.Proofs.Trace
import TableClient.Proofs.Batch.Delivery
import TableClient.Proofs.Batch.Course
import TableClient.Proofs.Batch.Termination
import TableClient.Proofs.Batch.Carried
import TableClient.Proofs.Batch.Unsent
import TableClient.Proofs.Batch.Arena
import TableClient.Proofs.Batch.Reads
import TableClient.Proofs.Attribute.Prune
import TableClient.Proofs.Client.Keys
import TableClient.Proofs.Query.Building
import TableClient.Proofs.Number.Rounding
import TableClient.Proofs.Number.Spelling
import TableClient.Proofs.Attribute.Document
import TableClient.Proofs.Attribute.Form
import TableClient.Proofs.Json.Text
import TableClient.Proofs.Json.Canonical
import TableClient.Proofs.Json.Wire
import TableClient.Proofs.Protocol.RoundTrip
import TableClient.Proofs.Condition.Renaming
import TableClient.Proofs.Query.Reordering
import TableClient.Proofs.Stream.Custody
import TableClient.Proofs.Condition.Joining
import TableClient.Proofs.Condition.Parentheses
import TableClient.Proofs.Query.HashFilter
import TableClient.Proofs.Client.IndexLookup
import TableClient.Proofs.Batch.Share
import TableClient.Proofs.Stream.Gaps
import TableClient.Proofs.Attribute.Paths
import TableClient.Proofs.Key.Cache
import TableClient.Proofs.Key.Building
