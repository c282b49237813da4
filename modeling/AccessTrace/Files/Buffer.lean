import AccessTrace.Files.FileSystem
import AccessTrace.Word

/-!
Writing through a buffer. Pieces are gathered until the next one does not fit; what is left at the
end is written with nobody looking at the outcome.
-/

namespace AccessTrace.Files.Buffer

/-- How a file takes bytes: it answers how many of them it took, or a fault. -/
abbrev Sink (m : Type → Type) :=
  Bytes → m (Except Fault Nat)

def capacity : Nat :=
  8192

def stuckWaiting : Fault :=
  .other "failed to write the buffered data"

def stuckPiece : Fault :=
  .other "failed to write whole buffer"

variable {m : Type → Type} [Monad m]

/-- Writes bytes until all are taken. Gives those that were not; a file that takes none is
`stuck`. -/
def writeAll (sink : Sink m) (stuck : Fault) : Bytes → m (Except Fault Unit × Bytes)
  | [] => return (.ok (), [])
  | b :: rest => do
    match ← sink (b :: rest) with
    | .error fault => return (.error fault, b :: rest)
    | .ok 0 => return (.error stuck, b :: rest)
    | .ok (taken + 1) => writeAll sink stuck (rest.drop taken)
termination_by bs => bs.length
decreasing_by simp only [List.length_drop, List.length_cons]; omega

/-- Adds a piece to the bytes that wait. A piece as large as the buffer goes to the file at once. -/
def put (sink : Sink m) (waiting piece : Bytes) : m (Except Fault Unit × Bytes) := do
  if waiting.length + piece.length ≤ capacity ∧ piece.length < capacity then
    return (.ok (), waiting ++ piece)
  match ← writeAll sink stuckWaiting waiting with
  | (.error fault, rest) => return (.error fault, rest)
  | (.ok (), _) =>
    if piece.length < capacity then return (.ok (), piece)
    let (answer, _) ← writeAll sink stuckPiece piece
    return (answer, [])

def putAll (sink : Sink m) (waiting : Bytes) : List Bytes → m (Except Fault Unit × Bytes)
  | [] => return (.ok (), waiting)
  | piece :: rest => do
    match ← put sink waiting piece with
    | (.error fault, waiting) => return (.error fault, waiting)
    | (.ok (), waiting) => putAll sink waiting rest

/-- Writes pieces one behind the other. The last bytes to wait may get lost without a fault. -/
def write (sink : Sink m) (pieces : List Bytes) : m (Except Fault Unit) := do
  let (answer, waiting) ← putAll sink [] pieces
  let _ ← writeAll sink stuckWaiting waiting
  return answer

end AccessTrace.Files.Buffer
