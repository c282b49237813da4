import AccessTrace.Proofs.Store.Bound

/-!
The list of chunks read again is not told when a chunk itself lets go of its records. It names only
chunks that hold records for as long as this happens to no chunk in the list; a name left behind
takes the place of a chunk that could have kept its records.
-/

namespace AccessTrace.Store

variable {s : Store} {a : Action} {source : Nat → Option Source} {loads : List Nat}

/-- Every chunk in the list of those read again holds records. -/
def ListHolds (s : Store) : Prop :=
  ∀ index ∈ s.hydrated, (s.detail? index).isSome

instance (s : Store) : Decidable s.ListHolds :=
  inferInstanceAs (Decidable (∀ index ∈ s.hydrated, (s.detail? index).isSome))

theorem ListHolds.act (h : s.ListHolds) (bounded : Bounded s source loads)
    (ha : ∀ index, a = .releaseChunk index → index ∉ s.hydrated) : (s.act a).ListHolds := by
  have turn := turn_act bounded.numbered a
  generalize hact : s.act a = t at turn
  intro i hi
  cases turn with
  | append c =>
    have := bounded.published i hi
    rw [detail?_append, if_neg (Nat.ne_of_lt this)]
    exact h i hi
  | idle => exact h i hi
  | @load _ index records hload =>
    have hkeeps := bounded.keeps hload
    have hnodup : (s.evicted index ++
        ((s.setChunk index fun c => c.hold records).track index).hydrated).Nodup := by
      rw [← hkeeps.order, List.nodup_append]
      exact ⟨bounded.nodup.filter _, by simp, by simp⟩
    by_cases hindex : i = index
    · rw [hindex, hkeeps.held]
      rfl
    · have hout : i ∉ s.evicted index := fun hout => List.disjoint_of_nodup_append hnodup hout hi
      rw [hkeeps.others i hindex, if_neg hout]
      have hi : i ∈ s.hydrated.filter (· ≠ index) ++ [index] := by
        rw [hkeeps.order]
        exact List.mem_append_right _ hi
      simp only [List.mem_append, List.mem_filter, List.mem_singleton, hindex, or_false] at hi
      exact h i hi.1
  | release index =>
    obtain ⟨hi, hne⟩ := List.mem_filter.1 hi
    change ((s.setChunk index Chunk.release).detail? i).isSome
    rw [detail?_setChunk_release, if_neg (by simpa using hne)]
    exact h i hi
  | releaseChunk index =>
    rw [detail?_setChunk_release, if_neg]
    · exact h i hi
    · rintro rfl
      exact ha i rfl hi

theorem ListHolds.actAll {past : List Action} (h : s.ListHolds) (bounded : Bounded s source loads)
    (horder : Action.InOrder s.chunks.size past)
    (hpast : ∀ front index rest, past = front ++ .releaseChunk index :: rest →
      index ∉ (s.actAll front).hydrated) : (s.actAll past).ListHolds := by
  induction past generalizing s source loads with
  | nil => exact h
  | cons a rest ih =>
    obtain ⟨ha, hrest⟩ := horder.of_cons
    rw [← size_act] at hrest
    refine ih (h.act bounded ?_) (bounded.act ha) hrest ?_
    · rintro index rfl
      exact hpast [] index rest rfl
    · rintro front index back rfl
      exact hpast (a :: front) index back rfl

theorem ListHolds.countP_file (h : s.ListHolds) (bounded : Bounded s source loads) :
    (List.range s.chunks.size).countP (fun index => source index = some .file) =
      s.hydrated.length := by
  rw [List.countP_eq_length_filter]
  apply List.Perm.length_eq
  rw [List.perm_ext_iff_of_nodup (List.nodup_range.filter _) bounded.nodup]
  intro i
  simp only [List.mem_filter, List.mem_range, decide_eq_true_eq]
  constructor
  · exact fun hi => bounded.listed i hi.2
  · intro hi
    refine ⟨bounded.published i hi, ?_⟩
    have hheld := bounded.sourced i
    rw [h i hi] at hheld
    match hsource : source i with
    | none => simp [hsource] at hheld
    | some .batch => exact absurd hsource (bounded.reread i hi)
    | some .file => rfl

/-- A chunk with records from the file then makes room for another one only when there are as many
of them as may be. -/
theorem ListHolds.full {i : Nat} (h : s.ListHolds) (bounded : Bounded s source loads)
    (hi : source i = some .file) (hgone : (s.act a).detail? i = none) (hrelease : a ≠ .release i)
    (hreleaseChunk : a ≠ .releaseChunk i) :
    (List.range s.chunks.size).countP (fun index => source index = some .file) = s.hydratedLimit ∧
      ∃ index, s.loaded a = [index] := by
  have hheld : s.detail? i ≠ none := by
    rw [← Option.isSome_iff_ne_none, ← bounded.sourced, hi]
    rfl
  have turn := turn_act bounded.numbered a
  generalize hact : s.act a = t at turn
  rw [hact] at hgone
  cases turn with
  | append c =>
    have := bounded.published i (bounded.listed i hi)
    rw [detail?_append, if_neg (Nat.ne_of_lt this)] at hgone
    exact absurd hgone hheld
  | idle => exact absurd hgone hheld
  | @load _ index records hload =>
    have hkeeps := bounded.keeps hload
    refine ⟨?_, index, hload.loaded_eq hact⟩
    have hne : i ≠ index := by
      rintro rfl
      rw [hkeeps.held] at hgone
      contradiction
    have hevicted : s.evicted index ≠ [] := by
      intro hevicted
      rw [hkeeps.others i hne, hevicted] at hgone
      exact hheld (by simpa using hgone)
    rw [h.countP_file bounded, (hkeeps.full hevicted).2.2]
  | release index =>
    change (s.setChunk index Chunk.release).detail? i = _ at hgone
    rw [detail?_setChunk_release, if_neg (by rintro rfl; exact hrelease rfl)] at hgone
    exact absurd hgone hheld
  | releaseChunk index =>
    rw [detail?_setChunk_release, if_neg (by rintro rfl; exact hreleaseChunk rfl)] at hgone
    exact absurd hgone hheld

theorem listHolds_iff_of_actions (regions : Region.Table) (rereads : Bool) (limit : Nat)
    (past : List Action) (horder : Action.InOrder 0 past) :
    let start := start regions rereads limit
    let s := start.actAll past
    let source index := start.sourceAfter index past
    ((∀ front, front <+: past → (start.actAll front).ListHolds) ↔
      ∀ front index rest, past = front ++ .releaseChunk index :: rest →
        index ∉ (start.actAll front).hydrated) ∧
    (s.ListHolds → ∀ a index, source index = some .file → (s.act a).detail? index = none →
      a ≠ .release index → a ≠ .releaseChunk index →
        (List.range s.chunks.size).countP (fun index => source index = some .file) = limit ∧
          ∃ other, s.loaded a = [other]) := by
  intro start s source
  have bounded : Bounded s source (start.loads past) :=
    (Bounded.start regions rereads limit).actAll horder
  have hlimit : s.hydratedLimit = limit := hydratedLimit_actAll past start
  refine ⟨⟨?_, ?_⟩, ?_⟩
  · rintro h front index rest rfl hindex
    -- The name stays in the list although the records are gone.
    have hheld := h (front ++ [.releaseChunk index])
      ⟨rest, by rw [List.append_assoc, List.singleton_append]⟩ index
    rw [actAll_append, actAll_cons, actAll_nil] at hheld
    have := hheld hindex
    rw [act, releaseChunk, detail?_setChunk_release, if_pos rfl] at this
    contradiction
  · rintro h front ⟨rest, rfl⟩
    refine ListHolds.actAll (by simp [ListHolds, start, Store.start])
      (Bounded.start regions rereads limit) (Action.InOrder.front horder) ?_
    rintro front' index rest' rfl
    exact h front' index (rest' ++ rest) (by rw [List.append_assoc, List.cons_append])
  · intro h a index hsource hgone hrelease hreleaseChunk
    rw [← hlimit]
    exact h.full bounded hsource hgone hrelease hreleaseChunk

/-- Both chunks that may keep their records do, and the one loaded first makes room for the
third. -/
theorem listHolds_iff_of_actions_full :
    let file : FileContent := .ok (TraceFile.encode [] [[.enter 1], [.exit 1], [.enter 2]])
    let batches : List Batch := [⟨9, [.enter 1]⟩, ⟨77, [.exit 1]⟩, ⟨145, [.enter 2]⟩]
    let chunks := ((Processor.start {} false .empty).feed batches).1
    let past := chunks.map Action.append ++ [.hydrate file 0, .hydrate file 1]
    let start := start .empty true 2
    let s := start.actAll past
    Action.InOrder 0 past ∧ s.ListHolds ∧ start.sourceAfter 0 past = some .file ∧
      (s.act (.hydrate file 2)).detail? 0 = none ∧
      ∃ other, s.loaded (.hydrate file 2) = [other] := by
  intro file batches chunks past start s
  have hrun : s.ListHolds ∧ start.sourceAfter 0 past = some .file ∧
      (s.act (.hydrate file 2)).detail? 0 = none := by
    decide +kernel +revert
  obtain ⟨hholds, hsource, hgone⟩ := hrun
  have horder : Action.InOrder 0 past :=
    Action.inOrder_feed_append (.start {} false .empty) batches (by simp [Action.chunk?])
  refine ⟨horder, hholds, hsource, hgone, ?_⟩
  exact ((listHolds_iff_of_actions .empty true 2 past horder).2 hholds _ 0 hsource hgone
    (by simp) (by simp)).2

/-- The second of two chunks lets go by itself and stays in the list; the first one then has to make
room for the third, although no other chunk holds records. -/
theorem not_listHolds_of_releaseChunk :
    let file : FileContent := .ok (TraceFile.encode [] [[.enter 1], [.exit 1], [.enter 2]])
    let batches : List Batch := [⟨9, [.enter 1]⟩, ⟨77, [.exit 1]⟩, ⟨145, [.enter 2]⟩]
    let chunks := ((Processor.start {} false .empty).feed batches).1
    let s := (start .empty true 2).actAll
      (chunks.map .append ++ [.hydrate file 0, .hydrate file 1, .releaseChunk 1])
    s.hydrated = [0, 1] ∧ s.holding = [0] ∧ ¬s.ListHolds ∧
      (s.hydrate file 2).2.hydrated = [1, 2] ∧ (s.hydrate file 2).2.holding = [2] := by
  decide +kernel

end AccessTrace.Store
