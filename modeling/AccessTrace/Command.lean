import AccessTrace.Error
import AccessTrace.Host
import AccessTrace.Record
import AccessTrace.Region
import AccessTrace.Store.Detail
import AccessTrace.Summary
import AccessTrace.Summary.Storage
import AccessTrace.TraceFile

/-!
The commands: summing up a trace, showing a record with the calls around it, listing the regions of
a file, and telling the version. What they print are lines of text; a failure is told in one line,
or as a report on several.
-/

namespace AccessTrace.Command

inductive Failure
  | noPath
  | missing (path : String)
  | notAFile (path : String)
  | load (path : String) (e : TraceError)
  | stalled (path : String)
  | header (path : String) (e : TraceError)
  | record (position : UInt64) (e : TraceError)
  | summary (e : Summary.StorageError)
deriving DecidableEq, Repr

namespace Failure

/-- What went wrong, and behind it the causes, from the nearest on. -/
def chain : Failure → List String
  | noPath => ["No trace file given"]
  | missing path => ["Trace file not found: " ++ path]
  | notAFile path => ["Not a file: " ++ path]
  | load path e => ("Failed to load trace " ++ path) :: e.causes
  | stalled path => ["Failed to load trace " ++ path, "memory is never free"]
  | header path e => ("Failed to read trace header of " ++ path) :: e.causes
  | record position e => s!"No record at position {position}" :: e.causes
  | summary e => "Failed to write summary JSON" :: e.causes

def message (f : Failure) : String :=
  ": ".intercalate f.chain

def indent (margin text : String) : String :=
  String.ofList (text.toList.flatMap fun c => if c = '\n' then '\n' :: margin.toList else [c])

def causeLines : List String → List String
  | [] => []
  | [cause] => ["", "Caused by:", "    " ++ indent "    " cause]
  | causes =>
    ["", "Caused by:"] ++ causes.mapIdx fun n cause =>
      String.ofList ((toString n).toList.leftpad 5 ' ') ++ ": " ++ indent "       " cause

def report (f : Failure) : String :=
  match f.chain with
  | [] => ""
  | context :: causes => "Error: " ++ "\n".intercalate (context :: causeLines causes) ++ "\n"

end Failure

def leftColumn (width n : Nat) : String :=
  String.ofList ((toString n).toList.rightpad width ' ')

def rightColumn (width n : Nat) : String :=
  String.ofList ((toString n).toList.leftpad width ' ')

def wideHex (w : UInt64) : String :=
  "0x" ++ String.ofList (Word.paddedHex 12 w)

def regionLine (r : Summary.RegionEntry) : String :=
  let name := if r.pathname.isEmpty then "[anon]" else r.pathname
  "    " ++ wideHex r.low ++ "-" ++ wideHex r.high ++ " " ++ r.perms ++ " " ++ name

def openFrameLines (frames : List String) : List String :=
  if frames.isEmpty then []
  else "  Frames open at end of trace:" :: frames.mapIdx fun depth frame => s!"    #{depth} {frame}"

def summaryLines (s : Summary) : List String :=
  let c := s.counts
  [s!"Trace: {s.trace}",
    s!"  Chunks:         {s.chunkCount}",
    s!"  Records:        {s.totalRecords}",
    s!"    accesses:     {c.accesses} ({c.writes} writes, {c.unmappedAccesses} unmapped)",
    s!"    enters/exits: {c.enters} / {c.exits}",
    s!"  Pages ({s.pageSize} B):   {s.activePages} active, {s.quietPages} quiet",
    s!"  Touched regions: {s.touchedRegions.length}"] ++
    s.touchedRegions.map regionLine ++ openFrameLines s.openFrames

structure StackReport where
  position : UInt64
  record : Record
  frames : List String
deriving DecidableEq, Repr

def stackLines (r : StackReport) : List String :=
  s!"Record {r.position}: {r.record.text}" ::
    if r.frames.isEmpty then ["  (no enclosing frames)"]
    else r.frames.mapIdx fun depth frame => "  #" ++ leftColumn 3 depth ++ " " ++ frame

def tableLines (o : TraceFile.Opened) : List String :=
  (s!"{o.regions.size} regions ({o.regionTextLength} bytes of header text, " ++
    s!"blocks start at offset {o.dataOffset})") ::
    o.regions.toList.mapIdx fun id r =>
      "  [" ++ rightColumn 3 id ++ "] " ++ String.ofList r.line

def programVersion : String :=
  "0.1.0"

def versionLines : List String :=
  ["Memtrace Studio v" ++ programVersion,
    "Summary Schema: v" ++ Summary.schemaVersion,
    s!"Record width: {Record.width} bytes",
    "",
    "Out-of-core memory-access trace ingestion and call stack queries."]

end AccessTrace.Command

namespace AccessTrace

inductive Command
  | inspect (trace : String) (output : Option String) (config : Config)
  | stack (trace : String) (position : UInt64) (config : Config)
  | regions (trace : String) (config : Config)
  | version
deriving DecidableEq

namespace Command

variable {m : Type → Type} [Monad m] [Host m]

/-- A command under way, on a host that it may change before it fails. -/
abbrev Action (m : Type → Type) (α : Type) :=
  ExceptT Failure m α

def ask {ε α : Type} (failure : ε → Failure) (answer : m (Except ε α)) : Action m α :=
  ExceptT.mk do return (← answer).mapError failure

def printLines (lines : List String) : Action m Unit :=
  lines.forM fun line => ExceptT.lift (Host.print (line ++ "\n"))

def checkTrace (path : String) : Action m Unit := do
  if path.isEmpty then throw .noPath
  match ← ExceptT.lift (Files.FileSystem.kind path) with
  | .error _ => throw (.missing path)
  | .ok .file => return ()
  | .ok _ => throw (.notAFile path)

def readFile (path : String) : Action m FileContent :=
  ExceptT.lift (Files.FileSystem.read path)

def loadTrace (path : String) (config : Config) : Action m Store := do
  let i ← ask (.load path) (return Ingest.ofFile config (← Files.FileSystem.read path))
  match ← ExceptT.lift (Host.load i) with
  | .waiting _ => throw (.stalled path)
  | .ended _ (.error e) => throw (.load path e)
  | .ended i (.ok _) => return i.store

def inspectTrace (trace : String) (output : Option String) (config : Config) :
    Action m Summary := do
  checkTrace trace
  let store ← loadTrace trace config
  let summary := Summary.ofStore store trace config.pages.pageSize (← ExceptT.lift Host.now)
  printLines (summaryLines summary)
  match output with
  | none => return summary
  | some path =>
    ask .summary (summary.save path)
    printLines ["Summary written to " ++ path]
    return summary

def showStack (trace : String) (position : UInt64) (config : Config) : Action m StackReport := do
  checkTrace trace
  let store ← loadTrace trace config
  let (answer, store) := store.recordAt (← readFile trace) position.toNat
  let record ← ask (.record position) (return answer)
  let report := { position, record, frames := (store.stackNamesAt position.toNat).getD [] }
  printLines (stackLines report)
  return report

def openTrace (config : Config) (file : FileContent) : Except TraceError TraceFile.Opened := do
  let content ← file.mapError fun fault => .file (.unreadable fault)
  (TraceFile.read config.strictRegions content).mapError .file

def listRegions (trace : String) (config : Config) : Action m Region.Table := do
  checkTrace trace
  let opened ← ask (.header trace) (return openTrace config (← Files.FileSystem.read trace))
  printLines (tableLines opened)
  return opened.regions

def showVersion : Action m Unit :=
  printLines versionLines

def run : Command → Action m Unit
  | .inspect trace output config => discard (inspectTrace trace output config)
  | .stack trace position config => discard (showStack trace position config)
  | .regions trace config => discard (listRegions trace config)
  | .version => showVersion

end Command

end AccessTrace
