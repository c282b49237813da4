/-!
Closed intervals of positions, and a search tree for those that hold a point. The tree is laid out
in an array of the intervals in ascending order of their starts: the root of a stretch of it stands
in the middle, its subtrees to either side. Beside each root is the largest stop in its stretch,
which lets a query leave out the whole of it.
-/

namespace AccessTrace

structure Interval (α : Type) where
  start : Nat
  stop : Nat
  value : α
deriving DecidableEq, Repr

namespace Interval

variable {α : Type}

def holds (i : Interval α) (point : Nat) : Bool :=
  i.start ≤ point && point ≤ i.stop

structure Tree (α : Type) where
  intervals : Array (Interval α)
  maxStops : Array Nat
  size_maxStops : maxStops.size = intervals.size

namespace Tree

/-- Where the root of the stretch `[low, high)` stands. -/
def root (low high : Nat) : Nat :=
  low + (high - low) / 2

theorem le_root (low high : Nat) : low ≤ root low high :=
  Nat.le_add_right _ _

theorem root_lt {low high : Nat} (h : low < high) : root low high < high := by
  unfold root
  omega

/-- Writes the largest stop of a stretch to its root, and so for all subtrees. An empty stretch has
none. -/
def fill (intervals : Array (Interval α)) (low high : Nat) (h : high ≤ intervals.size)
    (maxStops : Array Nat) : Option Nat × Array Nat :=
  if lt : low < high then
    have inside := root_lt lt
    let left := fill intervals low (root low high) (by omega) maxStops
    let right := fill intervals (root low high + 1) high h left.2
    let largest := max intervals[root low high].stop (max (left.1.getD 0) (right.1.getD 0))
    (some largest, right.2.setIfInBounds (root low high) largest)
  else (none, maxStops)
termination_by high - low
decreasing_by
  · have := root_lt lt
    omega
  · have := le_root low high
    omega

theorem size_fill (intervals : Array (Interval α)) (low high : Nat) (h : high ≤ intervals.size)
    (maxStops : Array Nat) : (fill intervals low high h maxStops).2.size = maxStops.size := by
  fun_induction fill intervals low high h maxStops with
  | case1 low high h maxStops lt inside left right largest ihl _ ihr =>
    exact Array.size_setIfInBounds.trans (ihr.trans ihl)
  | case2 => rfl

def ofSorted (intervals : Array (Interval α)) : Tree α where
  intervals := intervals
  maxStops := (fill intervals 0 intervals.size (Nat.le_refl _) (.replicate intervals.size 0)).2
  size_maxStops := by rw [size_fill, Array.size_replicate]

/-- The tree of a list, without the intervals that stop before they start; intervals with the same
start keep their order. -/
def ofList (xs : List (Interval α)) : Tree α :=
  ofSorted ((xs.filter fun i => i.start ≤ i.stop).mergeSort fun a b => a.start ≤ b.start).toArray

def toList (t : Tree α) : List (Interval α) :=
  t.intervals.toList

def size (t : Tree α) : Nat :=
  t.intervals.size

def stab (t : Tree α) (point low high : Nat) (h : high ≤ t.intervals.size) : List (Interval α) :=
  if lt : low < high then
    have inside := root_lt lt
    have inside' : root low high < t.maxStops.size := by
      rw [t.size_maxStops]
      omega
    if t.maxStops[root low high] < point then []
    else
      let middle := t.intervals[root low high]
      t.stab point low (root low high) (by omega) ++
        if middle.start ≤ point then
          if point ≤ middle.stop then middle :: t.stab point (root low high + 1) high h
          else t.stab point (root low high + 1) high h
        else []
  else []
termination_by high - low
decreasing_by
  · have := root_lt lt
    omega
  all_goals
    have := le_root low high
    omega

def query (point : Nat) (t : Tree α) : List (Interval α) :=
  t.stab point 0 t.intervals.size (Nat.le_refl _)

@[simp] theorem length_toList (t : Tree α) : t.toList.length = t.size :=
  Array.length_toList

end Tree

end Interval

end AccessTrace
