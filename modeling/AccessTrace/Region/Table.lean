import AccessTrace.Region
import AccessTrace.Search

/-!
Tables of regions in address order. A table is built only from a list in which each region ends
before the next one starts, so at most one region holds an address and binary search finds it.
-/

namespace AccessTrace.Region

def Precedes (a b : Region) : Prop :=
  a.low < b.low ∧ a.high ≤ b.low

instance (a b : Region) : Decidable (Precedes a b) :=
  inferInstanceAs (Decidable (_ ∧ _))

theorem Precedes.trans {a b c : Region} (hab : Precedes a b) (hbc : Precedes b c) :
    Precedes a c :=
  ⟨UInt64.lt_trans hab.1 hbc.1, UInt64.le_trans hab.2 (UInt64.le_of_lt hbc.1)⟩

structure Disorder where
  index : Nat
  low : UInt64
  previousHigh : UInt64
deriving DecidableEq, Repr

def Disorder.message (d : Disorder) : String :=
  s!"Region table not sorted: region {d.index} starts at {Word.hex d.low}, " ++
    s!"before the end of its predecessor ({Word.hex d.previousHigh})"

def firstDisorder (index : Nat) : List Region → Option Disorder
  | a :: b :: rest =>
    if Precedes a b then firstDisorder (index + 1) (b :: rest)
    else some { index := index + 1, low := b.low, previousHigh := a.high }
  | _ => none

theorem firstDisorder_eq_none_iff {index : Nat} {regions : List Region} :
    firstDisorder index regions = none ↔ regions.Pairwise Precedes := by
  fun_induction firstDisorder index regions with
  | case1 index a b rest hab ih =>
    rw [ih, List.pairwise_cons (a := a)]
    refine ⟨fun h => ⟨fun c hc => ?_, h⟩, fun h => h.2⟩
    rcases List.mem_cons.1 hc with rfl | hc
    · exact hab
    · exact hab.trans ((List.pairwise_cons.1 h).1 c hc)
  | case2 index a b rest hab =>
    simp only [reduceCtorEq, List.pairwise_cons, false_iff]
    exact fun h => hab (h.1 b List.mem_cons_self)
  | case3 regions _ h =>
    match regions, h with
    | [], _ => simp
    | [_], _ => simp
    | a :: b :: rest, h => exact absurd rfl (h a b rest)

structure Table where
  regions : Array Region
  sorted : regions.toList.Pairwise Precedes

namespace Table

def empty : Table :=
  ⟨#[], List.Pairwise.nil⟩

def ofList (regions : List Region) : Except Disorder Table :=
  match h : firstDisorder 0 regions with
  | some d => .error d
  | none => .ok ⟨regions.toArray, by simpa using firstDisorder_eq_none_iff.1 h⟩

def toList (t : Table) : List Region :=
  t.regions.toList

def size (t : Table) : Nat :=
  t.regions.size

def get? (t : Table) (id : Nat) : Option Region :=
  t.regions[id]?

/-- The region that holds an address: only the last one that starts at or below it can. -/
def lookup (t : Table) (addr : UInt64) : Option (Nat × Region) :=
  let id := Search.partitionPoint (fun r => r.low ≤ addr) t.regions - 1
  match t.get? id with
  | some r => if r.contains addr then some (id, r) else none
  | none => none

def resolve (t : Table) (addr : UInt64) : Region :=
  match t.lookup addr with
  | some (_, r) => r
  | none => unknown addr

def symbol (t : Table) (addr : UInt64) : String :=
  (t.resolve addr).symbol addr

end Table

inductive TableError
  | line (number : Nat) (text : String) (fault : LineFault)
  | disorder (d : Disorder)
deriving DecidableEq, Repr

def TableError.message : TableError → String
  | .line number text fault => s!"Malformed region line {number} '{text}': {fault.message}"
  | .disorder d => d.message

/-- The regions on the lines from `number` on, in front of which those in `done` stand, last first.
Blank lines say nothing; a bad line is passed over, or ends the reading when `strict`. -/
def readLines (strict : Bool) (number : Nat) (done : List Region) :
    List (List Char) → Except TableError (List Region)
  | [] => .ok done.reverse
  | line :: rest =>
    if (Text.trim line).isEmpty then readLines strict (number + 1) done rest
    else
      match ofLine? line with
      | .ok r => readLines strict (number + 1) (r :: done) rest
      | .error fault =>
        if strict then .error (.line number (String.ofList line) fault)
        else readLines strict (number + 1) done rest

def Table.ofText? (strict : Bool) (text : List Char) : Except TableError Table := do
  let regions ← readLines strict 1 [] (Text.splitOn '\n' text)
  (Table.ofList regions).mapError .disorder

end AccessTrace.Region
