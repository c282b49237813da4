import AccessTrace.Record
import AccessTrace.Word

/-!
Which pages a stretch of records touches, which of them are quiet beside the busiest one, and the
display axis on which the other pages stand side by side without the gaps between them. Pages are
tallied: each distinct one once, in ascending order, with the number of times it occurs. `compact?`
does the arithmetic of the axis so that a word which wraps around does not pass unnoticed.
-/

namespace AccessTrace.Tally

variable {α : Type} [LE α] [DecidableLE α] [DecidableEq α]

def push (x : α) : List (α × Nat) → List (α × Nat)
  | (y, n) :: rest => if x = y then (y, n + 1) :: rest else (x, 1) :: (y, n) :: rest
  | [] => [(x, 1)]

def ofList (xs : List α) : List (α × Nat) :=
  (xs.mergeSort fun a b => a ≤ b).foldr push []

def distinct (xs : List α) : List α :=
  (ofList xs).map Prod.fst

end AccessTrace.Tally

namespace AccessTrace

/-- A page is quiet when it has fewer accesses than the `quietThreshold`-th part of the busiest one;
zero leaves no page quiet. The active pages of `lookback` earlier chunks stay on the axis. -/
structure PageConfig where
  pageSize : UInt64 := 4096
  quietThreshold : Nat := 0
  lookback : Nat := 0
deriving DecidableEq, Repr

structure PageActivity where
  pageSize : UInt64
  /-- The pages with an access and the number of these, ascending. -/
  counts : List (UInt64 × Nat)
  /-- The accesses of the busiest page. -/
  peak : Nat
  quiet : List UInt64
  active : List UInt64
  /-- The pages on the axis, ascending, each with the number of pages left out below it. -/
  axis : List (UInt64 × UInt64)
deriving DecidableEq, Repr

namespace PageActivity

def isQuiet (count peak threshold : Nat) : Bool :=
  threshold ≠ 0 && 0 < peak && count < peak / threshold

/-- Puts ascending pages behind the page `previous`, below which `skipped` pages are left out. -/
def axisFrom (previous skipped : UInt64) : List UInt64 → List (UInt64 × UInt64)
  | [] => []
  | page :: rest =>
    let skipped := skipped + (page - previous - 1)
    (page, skipped) :: axisFrom page skipped rest

def axisOf : List UInt64 → List (UInt64 × UInt64)
  | [] => []
  | page :: rest => (page, page) :: axisFrom page page rest

/-- Sorts out the pages of some addresses, which may stand in any order. A page size of zero counts
as one. -/
def ofAddresses (addresses : List UInt64) (config : PageConfig) (lookback : List (List UInt64)) :
    PageActivity :=
  let pageSize := max config.pageSize 1
  let counts := Tally.ofList (addresses.map (· / pageSize))
  let peak := (counts.map Prod.snd).foldl max 0
  let (quiet, active) := counts.partition fun (_, n) => isQuiet n peak config.quietThreshold
  let active := active.map Prod.fst
  { pageSize, counts, peak
    quiet := quiet.map Prod.fst
    active
    axis := axisOf (Tally.distinct (active ++ lookback.flatten)) }

def addresses (records : List Record) : List UInt64 :=
  records.filterMap fun r => r.access?.map Access.addr

def ofRecords (records : List Record) (config : PageConfig) (lookback : List (List UInt64)) :
    PageActivity :=
  ofAddresses (addresses records) config lookback

def touched (p : PageActivity) : List UInt64 :=
  p.counts.map Prod.fst

def axisPages (p : PageActivity) : List UInt64 :=
  p.axis.map Prod.fst

def pageOf (p : PageActivity) (addr : UInt64) : UInt64 :=
  addr / p.pageSize

def count (p : PageActivity) (page : UInt64) : Nat :=
  (p.counts.lookup page).getD 0

def rank (p : PageActivity) (page : UInt64) : Option Nat :=
  p.axis.findIdx? fun (q, _) => q == page

/-- The number of pages below a page that are not on the axis. -/
def skippedBelow (p : PageActivity) (page : UInt64) : Option UInt64 :=
  p.axis.lookup page

/-- The length of the axis in bytes, at least one. -/
def width (p : PageActivity) : UInt64 :=
  max (UInt64.ofNat p.axis.length * p.pageSize) 1

def compact (p : PageActivity) (addr : UInt64) : Option UInt64 :=
  (p.skippedBelow (p.pageOf addr)).map fun skipped => addr - skipped * p.pageSize

def normalized (p : PageActivity) (addr : UInt64) : Option Float :=
  (p.compact addr).map fun place => place.toFloat / p.width.toFloat

def axisFrom? (previous skipped : UInt64) :
    List UInt64 → Except Word.Overflow (List (UInt64 × UInt64))
  | [] => return []
  | page :: rest => do
    let distance ← Word.sub? page previous
    let gap ← Word.sub? distance 1
    let skipped ← Word.add? skipped gap
    let axis ← axisFrom? page skipped rest
    return (page, skipped) :: axis

def axisOf? : List UInt64 → Except Word.Overflow (List (UInt64 × UInt64))
  | [] => return []
  | page :: rest => do
    let skipped ← Word.add? 0 page
    let axis ← axisFrom? page skipped rest
    return (page, skipped) :: axis

def compact? (p : PageActivity) (addr : UInt64) : Except Word.Overflow (Option UInt64) :=
  match p.skippedBelow (p.pageOf addr) with
  | none => return none
  | some skipped => do
    let left ← Word.mul? skipped p.pageSize
    let place ← Word.sub? addr left
    return some place

end PageActivity

end AccessTrace
