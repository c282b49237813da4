/-!
How much memory a host can spare, and the gate in front of every block. Margins are set aside first:
a fixed one and a share of the total; what is left counts in whole megabytes, rounded toward zero.
The gate asks for the state of memory again and again until enough is spare. When the state cannot
be had the reader goes on without knowing it, and a raised shutdown flag ends the wait.
-/

namespace AccessTrace

/-- The memory to be left alone, and how much more there must be before a block is read. -/
structure Budget where
  minSpareMb : Int64 := 500
  safetyMarginMb : UInt64 := 100
  relativeMarginPercent : UInt64 := 20
  pollMillis : Nat := 10
deriving DecidableEq

structure Snapshot where
  total : UInt64
  free : UInt64
  reclaimable : UInt64
  idle : UInt64
deriving DecidableEq, Repr

def bytesPerMb : Nat :=
  1024 * 1024

namespace Budget

def available (s : Snapshot) : Nat :=
  s.free.toNat + s.reclaimable.toNat + s.idle.toNat

/-- What is set aside. The product stays within a signed word of 128 bits for every share of less
than two to the power of sixty-three percent; settings that are checked ask for a hundred at
most. -/
def margin (b : Budget) (s : Snapshot) : Nat :=
  b.safetyMarginMb.toNat * bytesPerMb + s.total.toNat * b.relativeMarginPercent.toNat / 100

/-- The spare megabytes, negative when the margins are not covered. -/
def spare (b : Budget) (s : Snapshot) : Int :=
  ((available s : Int) - b.margin s).tdiv bytesPerMb

def spareMb (b : Budget) (s : Snapshot) : Int64 :=
  Int64.ofInt (b.spare s)

end Budget

/-- One answer about memory, empty when there is none. The shutdown flag may go up while it is being
fetched. -/
structure Poll where
  snapshot : Option Snapshot
  raisesShutdown : Bool
deriving DecidableEq, Repr

/-- A gate that `listens` gives up its waits when the flag is raised. -/
structure Gate where
  budget : Budget
  listens : Bool
  raised : Bool
deriving DecidableEq

namespace Gate

inductive Outcome
  | satisfied (spareMb : Int64)
  | unknown
  | exhausted (polls : Nat)
  | cancelled
deriving DecidableEq

def cancelledMessage : String :=
  "Ingestion cancelled while waiting for memory"

/-- A wait after some polls: the outcome if there is one yet, the number of polls it took, and those
it did not need. -/
structure Wait where
  outcome : Option Outcome
  polls : Nat
  gate : Gate
  unused : List Poll

def cancelled (g : Gate) : Bool :=
  g.listens && g.raised

def hear (g : Gate) (p : Poll) : Gate :=
  { g with raised := g.raised || p.raisesShutdown }

def spare? (g : Gate) (p : Poll) : Option Int64 :=
  p.snapshot.map g.budget.spareMb

def judge (g : Gate) (minSpareMb : Int64) (p : Poll) : Option Outcome :=
  match g.spare? p with
  | none => some .unknown
  | some spareMb => if minSpareMb ≤ spareMb then some (.satisfied spareMb) else none

/-- Goes on waiting after `made` polls. The flag is looked at before the limit, and both before the
next poll. -/
def awaitFrom (minSpareMb : Int64) (limit : Option Nat) (made : Nat) (g : Gate)
    (polls : List Poll) : Wait :=
  if g.cancelled then ⟨some .cancelled, made, g, polls⟩
  else if limit.any (· ≤ made) then ⟨some (.exhausted made), made, g, polls⟩
  else
    match polls with
    | [] => ⟨none, made, g, []⟩
    | p :: rest =>
      match g.judge minSpareMb p with
      | some outcome => ⟨some outcome, made + 1, g.hear p, rest⟩
      | none => awaitFrom minSpareMb limit (made + 1) (g.hear p) rest

def await (g : Gate) (minSpareMb : Int64) (limit : Option Nat) (polls : List Poll) : Wait :=
  awaitFrom minSpareMb limit 0 g polls

end Gate

/-- Answers about memory: first those listed, then the same one for ever. -/
structure Forecast where
  listed : List Poll
  later : Poll
deriving DecidableEq, Repr

namespace Forecast

def next (f : Forecast) : Poll × Forecast :=
  match f.listed with
  | [] => (f.later, f)
  | p :: rest => (p, { f with listed := rest })

/-- Waits at a gate, until an outcome or for ever. Past the listed answers one more settles it: if
it does not, only a limit ends the wait. -/
def await (f : Forecast) (g : Gate) (minSpareMb : Int64) (limit : Option Nat) :
    Gate.Wait × Forecast :=
  let w := g.await minSpareMb limit (f.listed ++ [f.later])
  match w.outcome, limit with
  | none, some n =>
    ({ w with outcome := some (.exhausted n), polls := n }, { f with listed := [] })
  | _, _ => (w, { f with listed := w.unused.dropLast })

end Forecast

end AccessTrace
