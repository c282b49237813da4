import AccessTrace.Block
import AccessTrace.CallStack
import AccessTrace.Config
import AccessTrace.Record
import AccessTrace.TraceFile

/-!
Why a trace cannot be loaded, or a question about it answered.
-/

namespace AccessTrace

inductive TraceError
  | file (e : TraceFile.Error)
  | block (e : Block.Error)
  | record (e : Record.DecodeError)
  | stack (e : CallStack.Error)
  | config (e : Config.Fault)
  | noChunk (index : Nat)
  | noRecord (position : Nat)
  | detailDropped (chunk : Nat)
  | detailMismatch (chunk expected actual : Nat)
deriving DecidableEq, Repr

namespace TraceError

def message : TraceError → String
  | file e => e.message
  | block e => e.message
  | record e => e.message
  | stack e => e.message
  | config e => "Invalid configuration: " ++ e.message
  | noChunk index => s!"Chunk {index} does not exist"
  | noRecord position => s!"Record {position} is past the end of the trace"
  | detailDropped chunk =>
    s!"Record detail for chunk {chunk} was dropped and no trace file is attached to re-read it"
  | detailMismatch chunk expected actual =>
    s!"Re-read of chunk {chunk} produced {actual} records, expected {expected}"

/-- The message, and behind it that of a cause from outside the trace, which the message repeats. -/
def causes (e : TraceError) : List String :=
  e.message ::
    match e with
    | file (.unreadable fault) => [fault.message]
    | file (.regionsNotUtf8 fault) => [fault.message]
    | _ => []

end TraceError

end AccessTrace
