import AccessTrace.Store.Detail

/-!
What can happen to a store, one thing after another, where every reading finds the trace file as it
is then; and where the records come from that chunks hold: from the batch that a chunk was made of,
or from the trace file later on. The source is told from outside, by what is there before and behind
each action.
-/

namespace AccessTrace.Store

inductive Action
  | append (c : Chunk)
  | recordAt (file : FileContent) (position : Nat)
  | hydrate (file : FileContent) (index : Nat)
  | release (index : Nat)
  | releaseChunk (index : Nat)

def Action.chunk? : Action → Option Chunk
  | .append c => some c
  | _ => none

/-- Chunks are appended in the order of their numbers, as `append` asks; the next one is `first`. -/
def Action.InOrder (first : Nat) (actions : List Action) : Prop :=
  let chunks := actions.filterMap Action.chunk?
  chunks.map Chunk.index = List.range' first chunks.length

def act (s : Store) : Action → Store
  | .append c => s.append c
  | .recordAt file position => (s.recordAt file position).2
  | .hydrate file index => (s.hydrate file index).2
  | .release index => (s.release index).2
  | .releaseChunk index => s.releaseChunk index

def actAll (s : Store) (actions : List Action) : Store :=
  actions.foldl act s

@[simp] theorem actAll_nil (s : Store) : s.actAll [] = s :=
  rfl

@[simp] theorem actAll_cons (s : Store) (a : Action) (rest : List Action) :
    s.actAll (a :: rest) = (s.act a).actAll rest :=
  rfl

theorem actAll_append (s : Store) (front rest : List Action) :
    s.actAll (front ++ rest) = (s.actAll front).actAll rest := by
  simp [actAll]

def detail? (s : Store) (index : Nat) : Option (List Record) :=
  (s.chunk? index).bind Chunk.detail

inductive Source
  | batch
  | file
deriving DecidableEq, Repr

/-- The source behind an action of what a chunk holds then. Records that were there stay what they
were; new ones come with a new chunk, and any others can only come from the file. -/
def sourceBehind (s : Store) (a : Action) (index : Nat) (source : Option Source) : Option Source :=
  if ((s.act a).detail? index).isNone then none
  else if (s.detail? index).isSome then source
  else if index < s.chunks.size then some .file
  else some .batch

def sourceAfter (s : Store) (index : Nat) (actions : List Action)
    (source : Option Source := none) : Option Source :=
  match actions with
  | [] => source
  | a :: rest => (s.act a).sourceAfter index rest (s.sourceBehind a index source)

/-- The chunks that an action finds without records and leaves with some. -/
def loaded (s : Store) (a : Action) : List Nat :=
  (List.range s.chunks.size).filter fun index =>
    (s.detail? index).isNone && ((s.act a).detail? index).isSome

def loads (s : Store) : List Action → List Nat
  | [] => []
  | a :: rest => s.loaded a ++ (s.act a).loads rest

end AccessTrace.Store
