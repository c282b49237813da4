import AccessTrace.Summary

/-!
Taking a summary of a store that still grows. Its parts are read one after another, and chunks may
be appended between any two of these readings.
-/

namespace AccessTrace.Summary

inductive Stage
  | begun
  | chunks (chunks : List Chunk)
  | touched (chunks : List Chunk) (touched : List Nat)
  | openFrames (chunks : List Chunk) (touched : List Nat) (openFrames : List Record)
  | totalRecords (chunks : List Chunk) (touched : List Nat) (openFrames : List Record)
      (totalRecords : Nat)
  | taken (reading : Reading)

def Stage.read (s : Store) : Stage → Stage
  | .begun => .chunks s.chunks.toList
  | .chunks cs => .touched cs s.touchedRegions
  | .touched cs ids => .openFrames cs ids s.openFrames
  | .openFrames cs ids frames => .totalRecords cs ids frames s.totalRecords
  | .totalRecords cs ids frames total => .taken ⟨cs, ids, frames, total, s.counts⟩
  | .taken reading => .taken reading

inductive Event
  | append (c : Chunk)
  | read

namespace Event

def chunk? : Event → Option Chunk
  | append c => some c
  | read => none

def isRead (e : Event) : Bool :=
  e.chunk?.isNone

end Event

structure Observation where
  store : Store
  stage : Stage

namespace Observation

def start (s : Store) : Observation where
  store := s
  stage := .begun

def step (o : Observation) : Event → Observation
  | .append c => { o with store := o.store.append c }
  | .read => { o with stage := o.stage.read o.store }

def run (o : Observation) (events : List Event) : Observation :=
  events.foldl step o

def reading? (o : Observation) : Option Reading :=
  match o.stage with
  | .taken reading => some reading
  | _ => none

/-- Where nothing is appended in between, all is read of one store. -/
theorem reading?_undisturbed (s : Store) :
    ((start s).run (.replicate 5 .read)).reading? = some (.ofStore s) :=
  rfl

end Observation

end AccessTrace.Summary
