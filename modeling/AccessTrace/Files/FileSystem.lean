import AccessTrace.Files.Path
import AccessTrace.Word

/-!
What a program asks of a file system, how that can fail, and the questions and steps made up from
it.
-/

namespace AccessTrace.Files

inductive Fault
  | notFound
  | alreadyExists
  | notDirectory
  | isDirectory
  | invalidArgument
  | noSpace
  | nameTooLong
  | zeroInName
  | other (text : String)
deriving DecidableEq, Repr

def Fault.message : Fault → String
  | .notFound => "No such file or directory (os error 2)"
  | .alreadyExists => "File exists (os error 17)"
  | .notDirectory => "Not a directory (os error 20)"
  | .isDirectory => "Is a directory (os error 21)"
  | .invalidArgument => "Invalid argument (os error 22)"
  | .noSpace => "No space left on device (os error 28)"
  | .nameTooLong => "File name too long (os error 36)"
  | .zeroInName => "file name contained an unexpected NUL byte"
  | .other text => text

inductive Kind
  | file
  | directory
  | device
deriving DecidableEq, Repr

/-- Operations on files by path. `create` empties a file that exists; `append` answers how many of
the bytes were taken. -/
class FileSystem (m : Type → Type) where
  kind : String → m (Except Fault Kind)
  read : String → m (Except Fault Bytes)
  makeDirectory : String → m (Except Fault Unit)
  create : String → m (Except Fault Unit)
  append : String → Bytes → m (Except Fault Nat)

namespace FileSystem

variable {m : Type → Type} [Monad m] [FileSystem m]

def isPresent (path : String) : m Bool := do
  match ← kind path with
  | .ok _ => return true
  | .error _ => return false

def hasKind (k : Kind) (path : String) : m Bool := do
  match ← kind path with
  | .ok found => return found = k
  | .error _ => return false

/-- Makes a directory; one that is there already is as good as a new one. -/
def makeOneDirectory (path : String) : m (Except Fault Unit) := do
  match ← makeDirectory path with
  | .ok () => return .ok ()
  | .error fault => return if ← hasKind .directory path then .ok () else .error fault

def makeDirectories (p : Path) : m (Except Fault Unit) := do
  if p.text.isEmpty then return .ok ()
  match ← makeOneDirectory p.text with
  | .error .notFound =>
    match h : p.parent with
    | none => return .error (.other "failed to create whole tree")
    | some above =>
      have := Path.depth_lt_of_parent h
      match ← makeDirectories above with
      | .error fault => return .error fault
      | .ok () => makeOneDirectory p.text
  | answer => return answer
termination_by p.depth

end FileSystem

end AccessTrace.Files
