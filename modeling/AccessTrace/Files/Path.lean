import AccessTrace.Text

/-!
Paths, cut at their slashes. Empty pieces and single dots say nothing about where a path leads, so
the parent of a path is found behind them.
-/

namespace AccessTrace.Files

/-- Where a path sets out from: the root, or the current directory, with or without a dot for it. -/
inductive Start
  | root
  | here
  | bare
deriving DecidableEq, Repr

structure Path where
  start : Start
  pieces : List String
deriving DecidableEq, Repr

namespace Path

def cut (body : List Char) : List String :=
  (Text.splitOn '/' body).map String.ofList

def ofText (text : String) : Path :=
  match text.toList with
  | '/' :: body => { start := .root, pieces := cut body }
  | ['.'] => { start := .here, pieces := [] }
  | '.' :: '/' :: body => { start := .here, pieces := cut body }
  | body => { start := .bare, pieces := cut body }

def text (p : Path) : String :=
  match p.start with
  | .root => "/" ++ "/".intercalate p.pieces
  | .here => "/".intercalate ("." :: p.pieces)
  | .bare => "/".intercalate p.pieces

def isFiller (piece : String) : Bool :=
  piece == "" || piece == "."

/-- The path of the directory that holds what this path names. The root has none, nor has the empty
path. -/
def parent (p : Path) : Option Path :=
  match p.pieces.reverse.dropWhile isFiller with
  | _ :: above => some { p with pieces := (above.dropWhile isFiller).reverse }
  | [] => if p.start = .here then some { start := .bare, pieces := [] } else none

def depth (p : Path) : Nat :=
  p.pieces.length + if p.start = .here then 1 else 0

theorem depth_lt_of_parent {p q : Path} (h : p.parent = some q) : q.depth < p.depth := by
  have hle := (List.dropWhile_sublist isFiller (l := p.pieces.reverse)).length_le
  unfold parent at h
  split at h
  · rename_i piece above heq
    rw [heq, List.length_reverse, List.length_cons] at hle
    have := (List.dropWhile_sublist isFiller (l := above)).length_le
    simp only [Option.some.injEq] at h
    simp only [← h, depth, List.length_reverse]
    omega
  · split at h
    · rename_i hstart
      simp only [Option.some.injEq] at h
      simp [← h, depth, hstart]
    · simp at h

def names (p : Path) : List String :=
  p.pieces.filter (· ≠ "")

def endsInSlash (p : Path) : Bool :=
  p.pieces.getLast? == some ""

end Path

end AccessTrace.Files
