import AccessTrace.Files.FileSystem

/-!
A tree of files as a value. A path is followed name by name from the root or from the current
directory; everything it passes through must be a directory. What stands around the place that it
leads to is kept on the way, so that a change there can be put back into the whole tree.
-/

namespace AccessTrace.Files

/-- What a name stands for. A device keeps nothing: it takes all that is written to it, or refuses
it for a reason of its own, and it gives the same bytes to every reader. -/
inductive Entry
  | file (content : Bytes)
  | directory (members : List (String × Entry))
  | device (content : Bytes) (refusal : Option Fault)

abbrev Members :=
  List (String × Entry)

def Entry.kind : Entry → Kind
  | file _ => .file
  | directory _ => .directory
  | device _ _ => .device

namespace Members

def erase (members : Members) (name : String) : Members :=
  members.filter fun (other, _) => other ≠ name

def insert (members : Members) (name : String) (e : Entry) : Members :=
  (name, e) :: erase members name

end Members

/-- A place in a tree: the names that lead to it, last first, each with the members of the directory
in which it was looked up, and what stands there. -/
structure Place where
  trail : List (String × Members)
  entry? : Option Entry

namespace Place

def maxNameLength : Nat :=
  255

def parent (p : Place) : Place :=
  match p.trail with
  | [] => p
  | (_, members) :: trail => ⟨trail, some (.directory members)⟩

def members (p : Place) : Except Fault Members :=
  match p.entry? with
  | none => .error .notFound
  | some (.directory members) => .ok members
  | some _ => .error .notDirectory

/-- The place that a name means in the directory at a place. Nothing need stand there. -/
def enter (p : Place) (name : String) : Except Fault Place := do
  let members ← p.members
  if name = "." then return p
  else if name = ".." then return p.parent
  else if maxNameLength < name.utf8ByteSize then throw .nameTooLong
  else return ⟨(name, members) :: p.trail, members.lookup name⟩

def walk (p : Place) (names : List String) : Except Fault Place :=
  names.foldlM enter p

def put (p : Place) (e : Entry) : Entry :=
  p.trail.foldl (fun e (name, members) => .directory (Members.insert members name e)) e

def clear (p : Place) : Entry :=
  match p.trail with
  | [] => .directory []
  | (name, members) :: trail => put ⟨trail, none⟩ (.directory (Members.erase members name))

end Place

structure Tree where
  root : Entry
  /-- The names that lead from the root to the current directory. -/
  current : List String

namespace Tree

def empty : Tree :=
  ⟨.directory [], []⟩

def maxPathLength : Nat :=
  4096

def path? (text : String) : Except Fault Path :=
  if text.toList.contains '\x00' then .error .zeroInName
  else if text.isEmpty then .error .notFound
  else if maxPathLength ≤ text.utf8ByteSize then .error .nameTooLong
  else .ok (Path.ofText text)

def follow (t : Tree) (p : Path) (names : List String) : Except Fault Place := do
  let root : Place := ⟨[], some t.root⟩
  let origin ← if p.start = .root then pure root else root.walk t.current
  origin.walk names

def find (t : Tree) (text : String) : Except Fault (Place × Entry) := do
  let p ← path? text
  let place ← t.follow p p.names
  match place.entry? with
  | none => throw .notFound
  | some (.directory members) => return (place, .directory members)
  | some e => if p.endsInSlash then throw .notDirectory else return (place, e)

def kind (t : Tree) (text : String) : Except Fault Kind := do
  let (_, e) ← t.find text
  return e.kind

def read (t : Tree) (text : String) : Except Fault Bytes := do
  match (← t.find text).2 with
  | .file content | .device content _ => return content
  | .directory _ => throw .isDirectory

/-- The directory in which a path looks up its last name, and that name. A path that ends in dots,
or in the root, has none. -/
def lastName? (t : Tree) (p : Path) : Except Fault (Option (Place × String)) := do
  match p.names.getLast? with
  | none => return none
  | some name =>
    let above ← t.follow p p.names.dropLast
    let _ ← above.members
    if name = "." ∨ name = ".." then return none
    return some (above, name)

def makeDirectory (t : Tree) (text : String) : Except Fault Tree := do
  match ← t.lastName? (← path? text) with
  | none => throw .alreadyExists
  | some (above, name) =>
    let place ← above.enter name
    if place.entry?.isSome then throw .alreadyExists
    return { t with root := place.put (.directory []) }

/-- Makes an empty file, or empties the one that is there. A slash at the end asks for a directory,
whatever the name in front of it. -/
def create (t : Tree) (text : String) : Except Fault Tree := do
  let p ← path? text
  match ← t.lastName? p with
  | none => throw .isDirectory
  | some (above, name) =>
    if p.endsInSlash then throw .isDirectory
    let place ← above.enter name
    match place.entry? with
    | some (.directory _) => throw .isDirectory
    | some (.device _ _) => return t
    | _ => return { t with root := place.put (.file []) }

def append (t : Tree) (text : String) (bytes : Bytes) : Except Fault Tree := do
  match ← t.find text with
  | (place, .file content) => return { t with root := place.put (.file (content ++ bytes)) }
  | (_, .directory _) => throw .isDirectory
  | (_, .device _ none) => return t
  | (_, .device _ (some fault)) => throw fault

def remove (t : Tree) (text : String) : Except Fault Tree := do
  match ← t.find text with
  | (_, .directory _) => throw .isDirectory
  | (place, _) => return { t with root := place.clear }

def write (t : Tree) (text : String) (content : Bytes) : Except Fault Tree := do
  (← t.create text).append text content

end Tree

end AccessTrace.Files
