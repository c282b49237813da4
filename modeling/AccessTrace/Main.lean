import AccessTrace.Host
import AccessTrace.CommandLine

/-!
The program on a real machine.
-/

namespace AccessTrace.Main

open Files (Fault Kind)

def faultOfCode (code : UInt32) (details : String) : Fault :=
  match code.toNat with
  | 2 => .notFound
  | 17 => .alreadyExists
  | 20 => .notDirectory
  | 21 => .isDirectory
  | 22 => .invalidArgument
  | 28 => .noSpace
  | 36 => .nameTooLong
  | n => .other s!"{details} (os error {n})"

def faultOf (e : IO.Error) : Fault :=
  match e with
  | .alreadyExists _ code details | .otherError code details | .resourceBusy code details
  | .resourceVanished code details | .unsupportedOperation code details
  | .hardwareFault code details | .unsatisfiedConstraints code details
  | .illegalOperation code details | .protocolError code details | .timeExpired code details
  | .interrupted _ code details | .noFileOrDirectory _ code details
  | .invalidArgument _ code details | .permissionDenied _ code details
  | .resourceExhausted _ code details | .inappropriateType _ code details
  | .noSuchThing _ code details => faultOfCode code details
  | .unexpectedEof | .userError _ => .other (toString e)

def attempt {α : Type} (act : IO α) : IO (Except Fault α) := do
  match ← act.toBaseIO with
  | .ok x => return .ok x
  | .error e => return .error (faultOf e)

def kindOf (path : String) : IO Kind := do
  match (← (System.mkFilePath [path]).metadata).type with
  | .file => return .file
  | .dir => return .directory
  | _ => return .device

def appendTo (path : String) (bytes : Bytes) : IO Nat := do
  IO.FS.withFile path .append fun h => do
    h.write ⟨bytes.toArray⟩
    h.flush
  return bytes.length

def reportText (path : String) : IO (List Char) := do
  match ← attempt (IO.FS.readFile path) with
  | .ok report => return report.toList
  | .error _ => return []

def pollMemory : IO Poll := do
  return { snapshot := Host.Report.memory? (← reportText "/proc/meminfo"), raisesShutdown := false }

def currentTime : IO String := do
  let time := Host.Report.time? (← reportText "/proc/stat") (← reportText "/proc/uptime")
  return Calendar.text (time.getD 0)

/-- Loads to the end, with a pause after every look at memory that let no block through. -/
partial def loadAll (i : Ingest) : IO Ingest.Status := do
  match i.advance [← pollMemory] with
  | .ended j result => return .ended j result
  | .waiting j =>
    if j.stats.blocks = i.stats.blocks then
      IO.sleep (UInt32.ofNat i.gate.budget.pollMillis)
    loadAll j

instance : Host IO where
  kind path := attempt (kindOf path)
  read path := attempt do return (← IO.FS.readBinFile path).toList
  makeDirectory path := attempt (IO.FS.createDir path)
  create path := attempt (IO.FS.writeBinFile path ByteArray.empty)
  append path bytes := attempt (appendTo path bytes)
  print text := do
    (← IO.getStdout).putStr text
  now := currentTime
  load i := loadAll i

end AccessTrace.Main

def main (args : List String) : IO UInt32 := do
  let exit ← AccessTrace.CommandLine.run args
  (← IO.getStderr).putStr exit.complaint
  return exit.code.toUInt32
