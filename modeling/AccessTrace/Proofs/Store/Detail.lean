import AccessTrace.Proofs.Chunk.Run
import AccessTrace.Store.History

/-!
Chunks letting go of their records and getting them back. A store stripped of all records is the
same store before and after, and whatever is asked without them it answers alike.
-/

namespace AccessTrace

namespace Search

theorem narrow_map {α β : Type} (f : α → β) (p : β → Bool) (xs : Array α) (low high : Nat)
    (h : high ≤ xs.size) (h' : high ≤ (xs.map f).size) :
    narrow p (xs.map f) low high h' = narrow (fun x => p (f x)) xs low high h := by
  fun_induction narrow (fun x => p (f x)) xs low high h with
  | case1 low high h lt middle inside hp ih =>
    rw [narrow, dif_pos lt]
    simp only [Array.getElem_map]
    rw [if_pos hp]
    exact ih _
  | case2 low high h lt middle inside hp ih =>
    rw [narrow, dif_pos lt]
    simp only [Array.getElem_map]
    rw [if_neg hp]
    exact ih _
  | case3 low high h lt => rw [narrow, dif_neg lt]

theorem partitionPoint_map {α β : Type} (f : α → β) (p : β → Bool) (xs : Array α) :
    partitionPoint p (xs.map f) = partitionPoint (fun x => p (f x)) xs := by
  simp only [partitionPoint, Array.size_map]
  exact narrow_map f p xs _ _ _ _

end Search

namespace Store

variable {s t : Store}

theorem chunk?_setChunk (s : Store) (index : Nat) (change : Chunk → Chunk) (i : Nat) :
    (s.setChunk index change).chunk? i =
      if index = i then (s.chunk? i).map change else s.chunk? i := by
  rw [chunk?, setChunk, Array.getElem?_modify]
  rfl

theorem forall_chunk?_setChunk {P : Nat → Chunk → Prop} {index : Nat} {change : Chunk → Chunk}
    (h : ∀ i c, s.chunk? i = some c → P i c)
    (hchange : ∀ c, s.chunk? index = some c → P index (change c)) :
    ∀ i c, (s.setChunk index change).chunk? i = some c → P i c := by
  intro i c hc
  rw [chunk?_setChunk] at hc
  split at hc
  · rename_i hi
    obtain ⟨c', hc', rfl⟩ := Option.map_eq_some_iff.1 hc
    exact hi ▸ hchange c' (hi ▸ hc')
  · exact h i c hc

def bare (s : Store) : Store :=
  { s with chunks := s.chunks.map Chunk.release, hydrated := [] }

theorem bare_setChunk (s : Store) (index : Nat) (change : Chunk → Chunk)
    (h : ∀ c, (change c).release = c.release) : (s.setChunk index change).bare = s.bare := by
  simp only [bare, setChunk, Store.mk.injEq, true_and, and_true]
  apply Array.ext
  · simp
  · intro i hi hi'
    simp only [Array.getElem_map, Array.getElem_modify]
    split
    · exact h _
    · rfl

theorem bare_track (s : Store) (index : Nat) : (s.track index).bare = s.bare := by
  suffices ∀ (queue : List Nat) (s : Store),
      (queue.foldl (fun s old => s.setChunk old Chunk.release) s).bare = s.bare from this _ _
  intro queue
  induction queue with
  | nil => exact fun s => rfl
  | cons old rest ih =>
    intro s
    rw [List.foldl_cons, ih]
    exact bare_setChunk s old _ fun _ => rfl

theorem bare_keep (s : Store) (place : Nat) (c : Chunk) (records : List Record) :
    (s.keep place c records).bare = s.bare := by
  unfold keep
  split
  · rfl
  · rw [bare_track]
    exact bare_setChunk s place _ fun _ => rfl

theorem bare_hydrate (s : Store) (file : FileContent) (index : Nat) :
    (s.hydrate file index).2.bare = s.bare := by
  unfold hydrate
  split
  · rfl
  · split
    · rfl
    · split
      · rfl
      · exact bare_keep s index _ _

theorem bare_recordAt (s : Store) (file : FileContent) (position : Nat) :
    (s.recordAt file position).2.bare = s.bare := by
  unfold recordAt
  split
  · rfl
  · exact bare_hydrate s file _

theorem bare_release (s : Store) (index : Nat) : (s.release index).2.bare = s.bare := by
  unfold release
  split
  · rfl
  · exact bare_setChunk s index _ fun _ => rfl

theorem bare_act {a : Action} (h : a.chunk? = none) (s : Store) : (s.act a).bare = s.bare := by
  cases a with
  | append c => contradiction
  | recordAt file position => exact bare_recordAt s file position
  | hydrate file index => exact bare_hydrate s file index
  | release index => exact bare_release s index
  | releaseChunk index => exact bare_setChunk s index _ fun _ => rfl

theorem bare_actAll {actions : List Action} (h : ∀ a ∈ actions, a.chunk? = none) (s : Store) :
    (s.actAll actions).bare = s.bare := by
  induction actions generalizing s with
  | nil => rfl
  | cons a rest ih =>
    rw [actAll_cons, ih (fun b hb => h b (.tail _ hb)), bare_act (h a List.mem_cons_self)]

theorem chunk?_bare (s : Store) (index : Nat) :
    s.bare.chunk? index = (s.chunk? index).map Chunk.release := by
  simp [chunk?, bare]

theorem locate_bare (s : Store) (position : Nat) : s.bare.locate position = s.locate position := by
  have hpoint : Search.partitionPoint (fun c => decide (c.firstRecord ≤ position)) s.bare.chunks =
      Search.partitionPoint (fun c => decide (c.firstRecord ≤ position)) s.chunks :=
    Search.partitionPoint_map Chunk.release _ s.chunks
  simp only [locate, hpoint, chunk?_bare]
  cases s.chunk? _ <;> rfl

theorem stackAt_bare (s : Store) (position : Nat) :
    s.bare.stackAt position = s.stackAt position := by
  simp only [stackAt, locate_bare, chunk?_bare, Option.bind_eq_bind]
  cases s.locate position with
  | none => rfl
  | some answer => simp only [Option.bind_some]; cases s.chunk? answer.1 <;> rfl

/-- What a store answers without looking at any record. -/
structure Agrees (s t : Store) : Prop where
  size : t.chunks.size = s.chunks.size
  locate : ∀ position, t.locate position = s.locate position
  stackAt : ∀ position, t.stackAt position = s.stackAt position
  stackNamesAt : ∀ position, t.stackNamesAt position = s.stackNamesAt position
  counts : t.counts = s.counts
  touchedRegions : t.touchedRegions = s.touchedRegions
  openFrames : t.openFrames = s.openFrames
  totalRecords : t.totalRecords = s.totalRecords

theorem agrees_bare (s : Store) : Agrees s s.bare where
  size := by simp [bare]
  locate := locate_bare s
  stackAt := stackAt_bare s
  stackNamesAt := by
    intro position
    rw [stackNamesAt, stackNamesAt, stackAt_bare]
    rfl
  counts := by
    simp only [counts, bare, Array.toList_map, List.map_map]
    rfl
  touchedRegions := by
    simp only [touchedRegions, bare, Array.toList_map, List.flatMap_map]
    rfl
  openFrames := by
    simp only [openFrames, bare, Array.back?_map]
    cases s.chunks.back? <;> rfl
  totalRecords := by
    simp only [totalRecords, bare, Array.back?_map]
    cases s.chunks.back? <;> rfl

theorem agrees_of_bare_eq (h : t.bare = s.bare) : Agrees s t := by
  have hs := agrees_bare s
  have ht := agrees_bare t
  rw [h] at ht
  exact {
    size := ht.size.symm.trans hs.size
    locate := fun position => (ht.locate position).symm.trans (hs.locate position)
    stackAt := fun position => (ht.stackAt position).symm.trans (hs.stackAt position)
    stackNamesAt := fun position => (ht.stackNamesAt position).symm.trans (hs.stackNamesAt position)
    counts := ht.counts.symm.trans hs.counts
    touchedRegions := ht.touchedRegions.symm.trans hs.touchedRegions
    openFrames := ht.openFrames.symm.trans hs.openFrames
    totalRecords := ht.totalRecords.symm.trans hs.totalRecords }

section Order

variable {a : Action} {actions rest : List Action} {first : Nat}

theorem size_act (s : Store) (a : Action) :
    (s.act a).chunks.size = s.chunks.size + a.chunk?.toList.length := by
  cases a with
  | append c => exact Array.size_push c
  | _ => exact (agrees_of_bare_eq (bare_act rfl s)).size

theorem hydratedLimit_act (s : Store) (a : Action) :
    (s.act a).hydratedLimit = s.hydratedLimit := by
  cases hc : a.chunk? with
  | none =>
    have hlimit : (s.act a).bare.hydratedLimit = s.bare.hydratedLimit := by rw [bare_act hc]
    exact hlimit
  | some c =>
    cases a with
    | append => rfl
    | _ => contradiction

theorem hydratedLimit_actAll (actions : List Action) (s : Store) :
    (s.actAll actions).hydratedLimit = s.hydratedLimit := by
  induction actions generalizing s with
  | nil => rfl
  | cons a rest ih => exact (ih _).trans (hydratedLimit_act s a)

theorem Action.InOrder.of_cons (h : InOrder first (a :: rest)) :
    (∀ c, a.chunk? = some c → c.index = first) ∧
      InOrder (first + a.chunk?.toList.length) rest := by
  unfold InOrder at h ⊢
  cases hc : a.chunk? with
  | none =>
    rw [List.filterMap_cons_none hc] at h
    exact ⟨nofun, h⟩
  | some c =>
    simp only [List.filterMap_cons_some hc, List.map_cons, List.length_cons, List.range'_succ] at h
    obtain ⟨hindex, hrest⟩ := List.cons.inj h
    refine ⟨?_, hrest⟩
    rintro _ ⟨⟩
    exact hindex

theorem Action.InOrder.front (h : InOrder first (actions ++ rest)) : InOrder first actions := by
  simp only [InOrder, List.filterMap_append, List.map_append, List.length_append,
    ← List.range'_append_1] at h
  exact (List.append_inj h (by simp)).1

/-- Chunks that are appended as a processor makes them are in order, whatever happens in between. -/
theorem Action.inOrder_of_feed (p : Processor) (batches : List Batch)
    (h : actions.filterMap Action.chunk? = (p.feed batches).1) : InOrder p.nextIndex actions := by
  unfold InOrder
  rw [h]
  exact (p.run_taken batches).map_index

theorem Action.inOrder_feed_append (p : Processor) (batches : List Batch)
    (hrest : ∀ a ∈ rest, a.chunk? = none) :
    InOrder p.nextIndex ((p.feed batches).1.map .append ++ rest) := by
  apply inOrder_of_feed p batches
  have happended : Action.chunk? ∘ Action.append = some := rfl
  rw [List.filterMap_append, List.filterMap_map, happended, List.filterMap_some,
    List.filterMap_eq_nil_iff.2 hrest, List.append_nil]

def Numbered (s : Store) : Prop :=
  ∀ place c, s.chunk? place = some c → c.index = place

namespace Numbered

theorem start (regions : Region.Table) (rereads : Bool) (limit : Nat) :
    (Store.start regions rereads limit).Numbered :=
  nofun

theorem of_bare_eq (h : s.Numbered) (hbare : t.bare = s.bare) : t.Numbered := by
  intro place c hc
  have hreleased : t.bare.chunk? place = some c.release := by
    rw [chunk?_bare, hc]
    rfl
  rw [hbare, chunk?_bare] at hreleased
  obtain ⟨d, hd, heq⟩ := Option.map_eq_some_iff.1 hreleased
  exact (congrArg Chunk.index heq).symm.trans (h place d hd)

theorem append (h : s.Numbered) {c : Chunk} (hc : c.index = s.chunks.size) :
    (s.append c).Numbered := by
  intro place d hd
  rw [chunk?, Store.append, Array.getElem?_push] at hd
  split at hd
  · rename_i hplace
    rw [hplace, ← Option.some.inj hd, hc]
  · exact h place d hd

theorem act (h : s.Numbered) (ha : ∀ c, a.chunk? = some c → c.index = s.chunks.size) :
    (s.act a).Numbered := by
  cases a with
  | append c => exact h.append (ha c rfl)
  | _ => exact h.of_bare_eq (bare_act rfl s)

theorem actAll (h : s.Numbered) (hactions : Action.InOrder s.chunks.size actions) :
    (s.actAll actions).Numbered := by
  induction actions generalizing s with
  | nil => exact h
  | cons a rest ih =>
    obtain ⟨ha, hrest⟩ := hactions.of_cons
    rw [← size_act] at hrest
    exact ih (h.act ha) hrest

end Numbered

end Order

end Store

end AccessTrace
