import AccessTrace.Proofs.Store.Detail
import AccessTrace.Store.History

/-!
What an action does to the records that chunks hold and to the list of chunks read again: it brings
a new chunk, changes nothing, loads a chunk at the expense of the head of the list, or lets a chunk
go.
-/

namespace AccessTrace.Store

variable {s t : Store} {index i : Nat} {file : FileContent}

theorem lt_size_of_chunk? {c : Chunk} (h : s.chunk? i = some c) : i < s.chunks.size :=
  (Array.getElem?_eq_some_iff.1 h).1

theorem detail?_isSome_lt (h : (s.detail? i).isSome) : i < s.chunks.size := by
  cases hc : s.chunk? i with
  | none => simp [detail?, hc] at h
  | some c => exact lt_size_of_chunk? hc

theorem detail?_append (s : Store) (c : Chunk) (i : Nat) :
    (s.append c).detail? i = if i = s.chunks.size then c.detail else s.detail? i := by
  simp only [detail?, chunk?, append, Array.getElem?_push]
  split <;> rfl

theorem detail?_setChunk_release (s : Store) (index i : Nat) :
    (s.setChunk index Chunk.release).detail? i = if i = index then none else s.detail? i := by
  rw [detail?, chunk?_setChunk]
  simp only [eq_comm (a := index)]
  split
  · cases s.chunk? i <;> rfl
  · rfl

theorem detail?_setChunk_hold {c : Chunk} (records : List Record) (h : s.chunk? index = some c)
    (i : Nat) :
    (s.setChunk index fun c => c.hold records).detail? i =
      if i = index then some records else s.detail? i := by
  rw [detail?, chunk?_setChunk]
  simp only [eq_comm (a := index)]
  split
  · rename_i hi
    subst hi
    rw [h]
    rfl
  · rfl

@[simp] theorem size_setChunk (s : Store) (index : Nat) (change : Chunk → Chunk) :
    (s.setChunk index change).chunks.size = s.chunks.size :=
  Array.size_modify

@[simp] theorem hydrated_setChunk (s : Store) (index : Nat) (change : Chunk → Chunk) :
    (s.setChunk index change).hydrated = s.hydrated :=
  rfl

@[simp] theorem hydratedLimit_setChunk (s : Store) (index : Nat) (change : Chunk → Chunk) :
    (s.setChunk index change).hydratedLimit = s.hydratedLimit :=
  rfl

def releaseAll (s : Store) (indices : List Nat) : Store :=
  indices.foldl (fun s index => s.setChunk index Chunk.release) s

@[simp] theorem size_releaseAll (s : Store) (indices : List Nat) :
    (s.releaseAll indices).chunks.size = s.chunks.size := by
  induction indices generalizing s with
  | nil => rfl
  | cons index rest ih => exact (ih _).trans (size_setChunk s index _)

@[simp] theorem hydrated_releaseAll (s : Store) (indices : List Nat) :
    (s.releaseAll indices).hydrated = s.hydrated := by
  induction indices generalizing s with
  | nil => rfl
  | cons index rest ih => exact ih _

@[simp] theorem hydratedLimit_releaseAll (s : Store) (indices : List Nat) :
    (s.releaseAll indices).hydratedLimit = s.hydratedLimit := by
  induction indices generalizing s with
  | nil => rfl
  | cons index rest ih => exact ih _

theorem detail?_releaseAll (s : Store) (indices : List Nat) (i : Nat) :
    (s.releaseAll indices).detail? i = if i ∈ indices then none else s.detail? i := by
  induction indices generalizing s with
  | nil => rfl
  | cons index rest ih =>
    rw [releaseAll, List.foldl_cons, ← releaseAll, ih, detail?_setChunk_release]
    by_cases hi : i = index <;> by_cases hrest : i ∈ rest <;> simp [hi, hrest]

def queued (s : Store) (index : Nat) : List Nat :=
  s.hydrated.filter (· ≠ index) ++ [index]

theorem length_queued (s : Store) (index : Nat) :
    (s.queued index).length = (s.hydrated.filter (· ≠ index)).length + 1 := by
  rw [queued, List.length_append, List.length_singleton]

/-- Those of them that have to go when there are more than may hold records. -/
def evicted (s : Store) (index : Nat) : List Nat :=
  (s.queued index).take ((s.queued index).length - s.hydratedLimit)

theorem track_eq (s : Store) (index : Nat) :
    s.track index =
      releaseAll { s with
        hydrated := (s.queued index).drop ((s.queued index).length - s.hydratedLimit) }
        (s.evicted index) :=
  rfl

theorem evicted_append_hydrated_track (s : Store) (index : Nat) :
    s.evicted index ++ (s.track index).hydrated = s.queued index := by
  rw [track_eq, hydrated_releaseAll]
  exact List.take_append_drop _ _

theorem detail?_track (s : Store) (index i : Nat) :
    (s.track index).detail? i = if i ∈ s.evicted index then none else s.detail? i := by
  rw [track_eq, detail?_releaseAll]
  rfl

/-- The chunk whose records an action asks for, and the trace file as it is found. -/
def asked? (s : Store) : Action → Option (FileContent × Nat)
  | .recordAt file position => (s.locate position).map fun (index, _) => (file, index)
  | .hydrate file index => some (file, index)
  | _ => none

/-- An action has the records of a chunk read again, which holds none and may keep them. -/
structure Loads (s : Store) (a : Action) (index : Nat) (records : List Record) : Prop where
  read : ∃ file c, s.asked? a = some (file, index) ∧ s.chunk? index = some c ∧ c.detail = none ∧
    s.reread file c = .ok records
  room : s.hydratedLimit ≠ 0

namespace Loads

variable {a : Action} {records : List Record}

theorem lt_size (h : s.Loads a index records) : index < s.chunks.size := by
  obtain ⟨_, _, -, hc, -⟩ := h.read
  exact lt_size_of_chunk? hc

theorem detail?_eq_none (h : s.Loads a index records) : s.detail? index = none := by
  obtain ⟨_, _, -, hc, hnone, -⟩ := h.read
  simp [detail?, hc, hnone]

theorem detail?_behind (h : s.Loads a index records) (i : Nat) :
    ((s.setChunk index fun c => c.hold records).track index).detail? i =
      if i ∈ s.evicted index then none
      else if i = index then some records else s.detail? i := by
  obtain ⟨_, _, -, hc, -⟩ := h.read
  rw [detail?_track, detail?_setChunk_hold records hc]
  rfl

end Loads

inductive Hydration (s : Store) (file : FileContent) (index : Nat) :
    Except TraceError (List Record) × Store → Prop
  | failed (e : TraceError) : Hydration s file index (.error e, s)
  | held {c : Chunk} {records : List Record} (hc : s.chunk? index = some c)
      (hdetail : c.detail = some records) : Hydration s file index (.ok records, s)
  | reread {c : Chunk} {records : List Record} (hc : s.chunk? index = some c)
      (hdetail : c.detail = none) (hread : s.reread file c = .ok records) :
      Hydration s file index (.ok records, s.keep index c records)

theorem hydration (s : Store) (file : FileContent) (index : Nat) :
    s.Hydration file index (s.hydrate file index) := by
  unfold hydrate
  split
  · exact .failed _
  · rename_i c hc
    split
    · rename_i records hdetail
      exact .held hc hdetail
    · rename_i hdetail
      split
      · exact .failed _
      · rename_i records hread
        exact .reread hc hdetail hread

inductive Turn (s : Store) : Action → Store → Prop
  | append (c : Chunk) : Turn s (.append c) (s.append c)
  | idle {a : Action} (h : a.chunk? = none) : Turn s a s
  | load {a : Action} {index : Nat} {records : List Record} (h : s.Loads a index records) :
      Turn s a ((s.setChunk index fun c => c.hold records).track index)
  | release (index : Nat) :
      Turn s (.release index)
        { s.setChunk index Chunk.release with hydrated := s.hydrated.filter (· ≠ index) }
  | releaseChunk (index : Nat) : Turn s (.releaseChunk index) (s.setChunk index Chunk.release)

/-- Where chunks are in order, the chunk that was loaded is the one that the list learns of. -/
theorem Numbered.keep_eq (h : s.Numbered) {c : Chunk} (hc : s.chunk? index = some c)
    (hlimit : s.hydratedLimit ≠ 0) (records : List Record) :
    s.keep index c records = (s.setChunk index fun c => c.hold records).track index := by
  rw [keep, if_neg hlimit, h index c hc]

theorem turn_hydrate {a : Action} (hs : s.Numbered) (ha : s.asked? a = some (file, index))
    (h : a.chunk? = none) : s.Turn a (s.hydrate file index).2 := by
  have ending := s.hydration file index
  generalize s.hydrate file index = answer at ending
  cases ending with
  | failed | held => exact .idle h
  | reread hc hdetail hread =>
    by_cases hlimit : s.hydratedLimit = 0
    · rw [keep, if_pos hlimit]
      exact .idle h
    · rw [hs.keep_eq hc hlimit]
      exact .load ⟨⟨file, _, ha, hc, hdetail, hread⟩, hlimit⟩

theorem turn_act (hs : s.Numbered) (a : Action) : s.Turn a (s.act a) := by
  cases a with
  | append c => exact .append c
  | recordAt file position =>
    simp only [act, recordAt]
    split
    · exact .idle rfl
    · rename_i index place hlocate
      exact turn_hydrate hs (by simp [asked?, hlocate]) rfl
  | hydrate file index => exact turn_hydrate hs rfl rfl
  | release index =>
    simp only [act, release]
    split
    · exact .idle rfl
    · exact .release index
  | releaseChunk index => exact .releaseChunk index

end AccessTrace.Store
