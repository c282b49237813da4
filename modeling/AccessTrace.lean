import AccessTrace.CallStack.Discipline
import AccessTrace.Chunk.Session
import AccessTrace.Host.Model
import AccessTrace.Ingest.Pipeline
import AccessTrace.Main
import AccessTrace.Store.History
import AccessTrace.TraceFile.Writer
import AccessTrace.Proofs.CallStack.Frames
import AccessTrace.Proofs.CallStack.Index
import AccessTrace.Proofs.Chunk.Run
import AccessTrace.Proofs.Store.Position
import AccessTrace.Proofs.Store.Stack
import AccessTrace.Proofs.Ingest.Completion
import AccessTrace.Proofs.Ingest.Pipeline
import AccessTrace.Proofs.Ingest.Schedule
import AccessTrace.Proofs.Lz4
import AccessTrace.Proofs.Payload
import AccessTrace.Proofs.TraceFile.Header
import AccessTrace.Proofs.TraceFile.RoundTrip
import AccessTrace.Proofs.TraceFile.Framing
import AccessTrace.Proofs.Budget.Gate
import AccessTrace.Proofs.Store.Detail
import AccessTrace.Proofs.Store.Reread
import AccessTrace.Proofs.Store.Turn
import AccessTrace.Proofs.Store.Bound
import AccessTrace.Proofs.Store.Failure
import AccessTrace.Proofs.Store.Listed
import AccessTrace.Proofs.Chunk.Chain
import AccessTrace.Proofs.Text.Blank
import AccessTrace.Proofs.Text.Utf8
import AccessTrace.Proofs.Word
import AccessTrace.Proofs.Region.Grammar
import AccessTrace.Proofs.Region.Lenience
import AccessTrace.Proofs.Region.Line
import AccessTrace.Proofs.Region.Text
import AccessTrace.Proofs.TraceFile.Regions
import AccessTrace.Proofs.Ingest.Ending
import AccessTrace.Proofs.Ingest.Cancellation
import AccessTrace.Proofs.Ingest.Books
import AccessTrace.Proofs.Ingest.Faults
import AccessTrace.Proofs.TraceFile.Lenience
import AccessTrace.Proofs.TraceFile.Truncation
import AccessTrace.Proofs.Ingest.Truncation
import AccessTrace.Proofs.Tally
import AccessTrace.Proofs.Region.Lookup
import AccessTrace.Proofs.Chunk.Counts
import AccessTrace.Proofs.Summary
import AccessTrace.Proofs.Summary.Storage
import AccessTrace.Proofs.PageActivity
import AccessTrace.Proofs.PageActivity.Quiet
import AccessTrace.Proofs.PageActivity.Axis
import AccessTrace.Proofs.Chunk.Window
import AccessTrace.Proofs.Store.Places
import AccessTrace.Proofs.Region.Resolve
import AccessTrace.Proofs.Lz4.Truncation
import AccessTrace.Proofs.Lz4.Expansion
import AccessTrace.Proofs.Budget
import AccessTrace.Proofs.Ingest.Omission
import AccessTrace.Proofs.Ingest.Account
import AccessTrace.Proofs.Chunk.Refusal
import AccessTrace.Proofs.TraceFile.Offset
import AccessTrace.Proofs.Summary.Moments
import AccessTrace.Proofs.Summary.Delivery
