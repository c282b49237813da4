import AccessTrace.Files.FileSystem
import AccessTrace.Files.Buffer
import AccessTrace.Summary.Document

/-!
Keeping summaries in files.
-/

namespace AccessTrace.Summary

inductive StorageError
  | emptyPath
  | pathIsDirectory (path : String)
  | noParent (path : String) (fault : Files.Fault)
  | file (fault : Files.Fault)
  | document (fault : Files.Fault)
  | malformed
deriving DecidableEq, Repr

namespace StorageError

def malformedText : String :=
  "not a summary document"

def message : StorageError → String
  | emptyPath => "Invalid output path: Path is empty"
  | pathIsDirectory path => "Invalid output path: Path is a directory: " ++ path
  | noParent path fault =>
    "Invalid output path: Cannot create directory " ++ path ++ ": " ++ fault.message
  | file fault => "Failed to write file: " ++ fault.message
  | document fault => "Failed to serialize JSON: " ++ fault.message
  | malformed => "Failed to serialize JSON: " ++ malformedText

def causes (e : StorageError) : List String :=
  e.message ::
    match e with
    | file fault | document fault => [fault.message]
    | malformed => [malformedText]
    | _ => []

end StorageError

def pieces (s : Summary) : List Bytes :=
  (Text.cutBefore '\n' s.text).map Text.Utf8.encode

theorem flatten_pieces (s : Summary) : s.pieces.flatten = s.encode := by
  suffices ∀ texts : List (List Char),
      (texts.map Text.Utf8.encode).flatten = Text.Utf8.encode texts.flatten by
    rw [pieces, this, Text.flatten_cutBefore]
    rfl
  intro texts
  induction texts with
  | nil => rfl
  | cons text rest ih => simp [Text.Utf8.encode, List.flatMap_append] at *; exact ih

open Files

variable {m : Type → Type} [Monad m] [FileSystem m]

def makeRoom (path : String) : m (Except StorageError Unit) := do
  match (Path.ofText path).parent with
  | none => return .ok ()
  | some above =>
    if ← pure above.text.isEmpty <||> FileSystem.isPresent above.text then return .ok ()
    return (← FileSystem.makeDirectories above).mapError (.noParent above.text)

def saveIn (pieces : List Bytes) (path : String) : m (Except StorageError Unit) := do
  if path.isEmpty then return .error .emptyPath
  if ← FileSystem.hasKind .directory path then return .error (.pathIsDirectory path)
  match ← makeRoom path with
  | .error e => return .error e
  | .ok () =>
    match ← FileSystem.create path with
    | .error fault => return .error (.file fault)
    | .ok () => return (← Buffer.write (FileSystem.append path) pieces).mapError .document

def save (s : Summary) (path : String) : m (Except StorageError Unit) :=
  saveIn s.pieces path

/-- Reads the summary that a file holds. A directory can be opened but not read. -/
def load (path : String) : m (Except StorageError Summary) := do
  match ← FileSystem.read path with
  | .error .isDirectory => return .error (.document .isDirectory)
  | .error fault => return .error (.file fault)
  | .ok content =>
    match decode? content with
    | some s => return .ok s
    | none => return .error .malformed

end AccessTrace.Summary
