import Mathlib.Data.List.Dedup
import Mathlib.Data.List.Perm.Subperm
import AccessTrace.Chunk.Processor
import AccessTrace.Proofs.Store.Turn
import AccessTrace.TraceFile.Writer

/-!
Only so many chunks hold records that were read again. Whatever is asked and whatever the trace file
holds by then, such a chunk stands in the list of chunks read again, the list is short enough, and
it is in the order of the last loads; records that came with a chunk stay until they are let go.
-/

namespace AccessTrace.Store

theorem dedup_concat (indices : List Nat) (index : Nat) :
    (indices ++ [index]).dedup = indices.dedup.filter (· ≠ index) ++ [index] := by
  induction indices with
  | nil => rfl
  | cons i rest ih =>
    rw [List.cons_append, List.dedup_cons, List.dedup_cons, ih]
    by_cases hrest : i ∈ rest
    · simp [hrest]
    · by_cases hi : i = index
      · subst hi
        simp [hrest]
      · simp [hrest, hi]

variable {s : Store} {a : Action} {index i : Nat} {records : List Record} {source : Option Source}

theorem nodup_loaded : (s.loaded a).Nodup :=
  List.nodup_range.filter _

theorem mem_loaded :
    i ∈ s.loaded a ↔
      i < s.chunks.size ∧ s.detail? i = none ∧ ((s.act a).detail? i).isSome := by
  simp [loaded]

theorem isSome_sourceBehind (h : source.isSome = (s.detail? i).isSome) :
    (s.sourceBehind a i source).isSome = ((s.act a).detail? i).isSome := by
  unfold sourceBehind
  cases (s.act a).detail? i with
  | none => rfl
  | some records =>
    cases hdetail : s.detail? i with
    | none =>
      by_cases hi : i < s.chunks.size <;> simp [hi]
    | some held => simpa [hdetail] using h

theorem sourceBehind_eq_file (h : s.sourceBehind a i source = some .file) :
    ((s.act a).detail? i).isSome ∧ (i ∈ s.loaded a ∨ source = some .file) := by
  unfold sourceBehind at h
  split at h
  · contradiction
  · rename_i hbehind
    rw [Option.isNone_iff_eq_none, ← ne_eq, ← Option.isSome_iff_ne_none] at hbehind
    refine ⟨hbehind, ?_⟩
    split at h
    · exact .inr h
    · rename_i hbefore
      split at h
      · rename_i hi
        exact .inl (mem_loaded.2 ⟨hi, by simpa using hbefore, hbehind⟩)
      · contradiction

theorem sourceBehind_eq_batch (h : s.sourceBehind a i source = some .batch) :
    source = some .batch ∧ (s.detail? i).isSome ∨ s.chunks.size ≤ i := by
  unfold sourceBehind at h
  split at h
  · contradiction
  · split at h
    · rename_i hbefore
      exact .inl ⟨h, hbefore⟩
    · split at h
      · contradiction
      · rename_i hi
        exact .inr (Nat.le_of_not_lt hi)

theorem mem_queued : i ∈ s.queued index ↔ i ∈ s.hydrated ∨ i = index := by
  by_cases hi : i = index <;> simp [queued, hi]

theorem evicted_isPrefix_filter (h : s.hydratedLimit ≠ 0) :
    s.evicted index <+: s.hydrated.filter (· ≠ index) := by
  rw [evicted, length_queued, queued, List.take_append_of_le_length (by omega)]
  exact List.take_prefix _ _

theorem not_mem_evicted (h : s.hydratedLimit ≠ 0) : index ∉ s.evicted index := by
  intro hmem
  have := (evicted_isPrefix_filter h).subset hmem
  simp at this

theorem mem_hydrated_of_evicted (h : s.hydratedLimit ≠ 0) (hi : i ∈ s.evicted index) :
    i ∈ s.hydrated :=
  List.mem_of_mem_filter ((evicted_isPrefix_filter h).subset hi)

/-- A chunk has records that were just read again, and those loaded longest ago made room for it:
one at most, and none unless the list was full without the chunk. -/
structure Keeps (s t : Store) (index : Nat) (records : List Record) (evicted : List Nat) :
    Prop where
  held : t.detail? index = some records
  order : s.hydrated.filter (· ≠ index) ++ [index] = evicted ++ t.hydrated
  others : ∀ i ≠ index, t.detail? i = if i ∈ evicted then none else s.detail? i
  full : evicted ≠ [] →
    evicted.length = 1 ∧ index ∉ s.hydrated ∧ s.hydrated.length = s.hydratedLimit

theorem order_load (s : Store) (index : Nat) (records : List Record) :
    s.evicted index ++ ((s.setChunk index fun c => c.hold records).track index).hydrated =
      s.queued index :=
  evicted_append_hydrated_track (s.setChunk index fun c => c.hold records) index

theorem Loads.loaded_eq (hload : s.Loads a index records)
    (hact : s.act a = (s.setChunk index fun c => c.hold records).track index) :
    s.loaded a = [index] := by
  rw [← List.perm_singleton, List.perm_ext_iff_of_nodup nodup_loaded (by simp)]
  intro i
  rw [mem_loaded, List.mem_singleton, hact, hload.detail?_behind]
  constructor
  · rintro ⟨-, hbefore, hbehind⟩
    by_contra hi
    rw [if_neg hi, hbefore] at hbehind
    simp at hbehind
  · rintro rfl
    exact ⟨hload.lt_size, hload.detail?_eq_none, by simp [not_mem_evicted hload.room]⟩

/-- The list of chunks read again, beside the sources of what chunks hold and the loads so far. -/
structure Bounded (s : Store) (source : Nat → Option Source) (loads : List Nat) : Prop where
  numbered : s.Numbered
  nodup : s.hydrated.Nodup
  length_le : s.hydrated.length ≤ s.hydratedLimit
  published : ∀ index ∈ s.hydrated, index < s.chunks.size
  ordered : s.hydrated.Sublist loads.dedup
  sourced : ∀ index, (source index).isSome = (s.detail? index).isSome
  listed : ∀ index, source index = some .file → index ∈ s.hydrated
  reread : ∀ index ∈ s.hydrated, source index ≠ some .batch

namespace Bounded

variable {t : Store} {source : Nat → Option Source} {loads : List Nat}

theorem start (regions : Region.Table) (rereads : Bool) (limit : Nat) :
    Bounded (Store.start regions rereads limit) (fun _ => none) [] where
  numbered := Numbered.start regions rereads limit
  nodup := List.nodup_nil
  length_le := Nat.zero_le _
  published := by simp [Store.start]
  ordered := List.Sublist.refl _
  sourced := by simp [Store.start, detail?, chunk?]
  listed := by simp
  reread := by simp

theorem keeps (h : Bounded s source loads) (hload : s.Loads a index records) :
    s.Keeps ((s.setChunk index fun c => c.hold records).track index) index records
      (s.evicted index) := by
  refine ⟨?_, (order_load s index records).symm, ?_, ?_⟩
  · rw [hload.detail?_behind, if_neg (not_mem_evicted hload.room), if_pos rfl]
  · intro i hi
    rw [hload.detail?_behind, if_neg hi]
  · intro hevicted
    have hlength := length_queued s index
    have hfilter := List.length_filter_le (· ≠ index) s.hydrated
    have hsize := h.length_le
    have hexcess : 0 < (s.queued index).length - s.hydratedLimit := by
      apply Nat.pos_of_ne_zero
      intro hzero
      exact hevicted (by rw [evicted, hzero, List.take_zero])
    refine ⟨by rw [evicted, List.length_take]; omega, ?_, by omega⟩
    intro hindex
    have := List.length_filter_lt_length_iff_exists (p := fun i => decide (i ≠ index)) |>.2
      ⟨index, hindex, by simp⟩
    omega

theorem unloaded (h : Bounded s source loads) (hact : s.act a = t) (numbered : t.Numbered)
    (hlimit : t.hydratedLimit = s.hydratedLimit) (hsize : s.chunks.size ≤ t.chunks.size)
    (hsub : t.hydrated.Sublist s.hydrated)
    (hheld : ∀ i < s.chunks.size, (t.detail? i).isSome → (s.detail? i).isSome)
    (hkept : ∀ i ∈ s.hydrated, (t.detail? i).isSome → i ∈ t.hydrated) :
    Bounded t (fun i => s.sourceBehind a i (source i)) (loads ++ s.loaded a) := by
  subst hact
  have hloaded : s.loaded a = [] := by
    rw [List.eq_nil_iff_forall_not_mem]
    intro i hi
    obtain ⟨hlt, hnone, hsome⟩ := mem_loaded.1 hi
    have := hheld i hlt hsome
    rw [hnone] at this
    contradiction
  refine {
    numbered := numbered
    nodup := h.nodup.sublist hsub
    length_le := hlimit ▸ Nat.le_trans hsub.length_le h.length_le
    published := fun i hi => Nat.lt_of_lt_of_le (h.published i (hsub.subset hi)) hsize
    ordered := by rw [hloaded, List.append_nil]; exact hsub.trans h.ordered
    sourced := fun i => isSome_sourceBehind (h.sourced i)
    listed := ?_
    reread := ?_ }
  · intro i hi
    obtain ⟨hbehind, hi | hi⟩ := sourceBehind_eq_file hi
    · rw [hloaded] at hi
      contradiction
    · exact hkept i (h.listed i hi) hbehind
  · intro i hi hbatch
    have hi := hsub.subset hi
    rcases sourceBehind_eq_batch hbatch with ⟨hbatch, -⟩ | hle
    · exact h.reread i hi hbatch
    · exact absurd (h.published i hi) (Nat.not_lt_of_le hle)

theorem load (h : Bounded s source loads) (hload : s.Loads a index records)
    (numbered : (s.act a).Numbered)
    (hact : s.act a = (s.setChunk index fun c => c.hold records).track index) :
    Bounded (s.act a) (fun i => s.sourceBehind a i (source i)) (loads ++ s.loaded a) := by
  have hloaded := hload.loaded_eq hact
  have hkeeps := h.keeps hload
  rw [← hact] at hkeeps
  have hqueue : s.queued index = s.evicted index ++ (s.act a).hydrated := hkeeps.order
  have hsub : ((s.act a).hydrated).Sublist (s.queued index) :=
    hqueue ▸ List.sublist_append_right _ _
  have hstays : ∀ i ∈ s.queued index, i ∉ s.evicted index → i ∈ (s.act a).hydrated := by
    intro i hi hout
    rw [hqueue] at hi
    exact (List.mem_append.1 hi).resolve_left hout
  have hnodup : (s.queued index).Nodup := by
    rw [queued, List.nodup_append]
    refine ⟨h.nodup.filter _, by simp, ?_⟩
    simp
  have hsize : (s.act a).chunks.size = s.chunks.size := by
    rw [hact, track_eq, size_releaseAll]
    exact size_setChunk s index _
  refine {
    numbered := numbered
    nodup := hnodup.sublist hsub
    length_le := ?_
    published := ?_
    ordered := ?_
    sourced := fun i => isSome_sourceBehind (h.sourced i)
    listed := ?_
    reread := ?_ }
  · rw [hact, track_eq, hydrated_releaseAll, hydratedLimit_releaseAll, List.length_drop]
    change (s.queued index).length - ((s.queued index).length - s.hydratedLimit) ≤ s.hydratedLimit
    omega
  · intro i hi
    rw [hsize]
    rcases mem_queued.1 (hsub.subset hi) with hi | rfl
    · exact h.published i hi
    · exact hload.lt_size
  · rw [hloaded, dedup_concat]
    exact hsub.trans ((h.ordered.filter _).append_right _)
  · intro i hi
    obtain ⟨hbehind, hi | hi⟩ := sourceBehind_eq_file hi
    · rw [hloaded, List.mem_singleton] at hi
      subst hi
      exact hstays i (mem_queued.2 (.inr rfl)) (not_mem_evicted hload.room)
    · apply hstays i (mem_queued.2 (.inl (h.listed i hi)))
      intro hout
      rw [hact, hload.detail?_behind, if_pos hout] at hbehind
      contradiction
  · intro i hi hbatch
    rcases mem_queued.1 (hsub.subset hi) with hi | rfl
    · rcases sourceBehind_eq_batch hbatch with ⟨hbatch, -⟩ | hle
      · exact h.reread i hi hbatch
      · exact absurd (h.published i hi) (Nat.not_lt_of_le hle)
    · rcases sourceBehind_eq_batch hbatch with ⟨-, hheld⟩ | hle
      · rw [hload.detail?_eq_none] at hheld
        contradiction
      · exact absurd hload.lt_size (Nat.not_lt_of_le hle)

theorem act (h : Bounded s source loads) (ha : ∀ c, a.chunk? = some c → c.index = s.chunks.size) :
    Bounded (s.act a) (fun i => s.sourceBehind a i (source i)) (loads ++ s.loaded a) := by
  have turn := turn_act h.numbered a
  have numbered := h.numbered.act ha
  generalize hact : s.act a = t at turn numbered
  cases turn with
  | append c =>
    refine h.unloaded hact numbered rfl (by simp [append]) (.refl _) ?_ fun i hi _ => hi
    intro i hi hheld
    rwa [detail?_append, if_neg (Nat.ne_of_lt hi)] at hheld
  | idle =>
    exact h.unloaded hact numbered rfl (Nat.le_refl _) (.refl _) (fun _ _ hheld => hheld)
      fun i hi _ => hi
  | load hload => exact hact ▸ h.load hload (hact ▸ numbered) hact
  | release index =>
    have hdetail : ∀ i, detail? { s.setChunk index Chunk.release with
        hydrated := s.hydrated.filter (· ≠ index) } i = if i = index then none else s.detail? i :=
      detail?_setChunk_release s index
    have hsize := Nat.le_of_eq (size_setChunk s index Chunk.release).symm
    refine h.unloaded hact numbered rfl hsize List.filter_sublist ?_ ?_
    · intro i hi hheld
      rw [hdetail] at hheld
      split at hheld
      · contradiction
      · exact hheld
    · intro i hi hheld
      rw [hdetail] at hheld
      split at hheld
      · contradiction
      · rename_i hne
        simpa [hne] using hi
  | releaseChunk index =>
    refine h.unloaded hact numbered rfl (Nat.le_of_eq (size_setChunk s index _).symm) (.refl _) ?_
      fun i hi _ => hi
    intro i hi hheld
    rw [detail?_setChunk_release] at hheld
    split at hheld
    · contradiction
    · exact hheld

theorem actAll (h : Bounded s source loads) {actions : List Action}
    (hactions : Action.InOrder s.chunks.size actions) :
    Bounded (s.actAll actions) (fun i => s.sourceAfter i actions (source i))
      (loads ++ s.loads actions) := by
  induction actions generalizing s source loads with
  | nil => simpa [sourceAfter, Store.loads] using h
  | cons a rest ih =>
    obtain ⟨ha, hrest⟩ := hactions.of_cons
    rw [← size_act] at hrest
    rw [Store.loads, ← List.append_assoc]
    exact ih (h.act ha) hrest

end Bounded

section Answers

variable {file : FileContent}

theorem hydrate_of_unheld (hs : s.Numbered) (hdetail : s.detail? index = none)
    (hanswer : (s.hydrate file index).1 = .ok records) (hlimit : s.hydratedLimit ≠ 0) :
    s.Loads (.hydrate file index) index records ∧
      (s.hydrate file index).2 = (s.setChunk index fun c => c.hold records).track index := by
  have ending := s.hydration file index
  generalize s.hydrate file index = answer at hanswer ending ⊢
  cases ending with
  | failed => contradiction
  | held hc hheld => simp [detail?, hc, hheld] at hdetail
  | reread hc hnone hread =>
    obtain rfl := Except.ok.inj hanswer
    exact ⟨⟨⟨file, _, rfl, hc, hnone, hread⟩, hlimit⟩, hs.keep_eq hc hlimit _⟩

theorem recordAt_of_locate {position place : Nat} {r : Record}
    (hlocate : s.locate position = some (index, place))
    (hanswer : (s.recordAt file position).1 = .ok r) :
    (s.recordAt file position).2 = (s.hydrate file index).2 ∧
      ∃ records, (s.hydrate file index).1 = .ok records ∧ records[place]? = some r := by
  have hbehind : (s.recordAt file position).2 = (s.hydrate file index).2 := by
    simp only [recordAt, hlocate]
  simp only [recordAt, hlocate] at hanswer
  refine ⟨hbehind, ?_⟩
  cases hhydrate : (s.hydrate file index).1 with
  | error e => simp [hhydrate, Except.bind] at hanswer
  | ok records =>
    simp only [hhydrate, Except.bind] at hanswer
    cases hr : records[place]? with
    | none => simp [hr] at hanswer
    | some r' => simpa [hr] using hanswer

end Answers

theorem detail?_of_no_room (hs : s.Numbered) (hlimit : s.hydratedLimit = 0)
    (hi : i < s.chunks.size) (h : (s.act a).detail? i = some records) :
    s.detail? i = some records := by
  have turn := turn_act hs a
  generalize s.act a = t at h turn
  cases turn with
  | append c => rwa [detail?_append, if_neg (Nat.ne_of_lt hi)] at h
  | idle => exact h
  | load hload => exact absurd hlimit hload.room
  | release index | releaseChunk index =>
    change (s.setChunk index Chunk.release).detail? i = _ at h
    rw [detail?_setChunk_release] at h
    split at h
    · contradiction
    · exact h

namespace Bounded

variable {source : Nat → Option Source} {loads : List Nat}

/-- Records that came with a chunk do not give way to any that are read again. -/
theorem detail?_of_batch (h : Bounded s source loads) (hi : source i = some .batch) (a : Action) :
    (s.act a).detail? i = s.detail? i ∨ a = .release i ∨ a = .releaseChunk i := by
  have hheld : (s.detail? i).isSome := by rw [← h.sourced, hi]; rfl
  have turn := turn_act h.numbered a
  generalize s.act a = t at turn
  cases turn with
  | append c => exact .inl (by rw [detail?_append, if_neg (Nat.ne_of_lt (detail?_isSome_lt hheld))])
  | idle => exact .inl rfl
  | @load _ index records hload =>
    have hne : i ≠ index := by
      rintro rfl
      rw [hload.detail?_eq_none] at hheld
      contradiction
    have hout : i ∉ s.evicted index := fun hout =>
      h.reread i (mem_hydrated_of_evicted hload.room hout) hi
    exact .inl (by rw [hload.detail?_behind, if_neg hout, if_neg hne])
  | release index | releaseChunk index =>
    change (s.setChunk index Chunk.release).detail? i = _ ∨ _
    rw [detail?_setChunk_release]
    split
    · subst i
      simp
    · exact .inl rfl

theorem countP_file_le (h : Bounded s source loads) :
    (List.range s.chunks.size).countP (fun index => source index = some .file) ≤
      s.hydrated.length := by
  rw [List.countP_eq_length_filter]
  refine ((List.nodup_range.filter _).subperm ?_).length_le
  intro index hindex
  exact h.listed index (by simpa using (List.mem_filter.1 hindex).2)

end Bounded

/-- What is kept of the records read again, whatever was asked in whatever order. Of several loads
of a chunk `dedup` leaves the last, so the list has those loaded longest ago in front. -/
theorem bounded_of_actions (regions : Region.Table) (rereads : Bool) (limit : Nat)
    (past : List Action) (hpast : Action.InOrder 0 past) :
    let start := start regions rereads limit
    let s := start.actAll past
    let source index := start.sourceAfter index past
    (s.hydrated.Nodup ∧ s.hydrated.length ≤ limit ∧
      s.hydrated.Sublist (start.loads past).dedup) ∧
    (∀ index, (source index).isSome = (s.detail? index).isSome) ∧
    (∀ index, source index = some .file → index ∈ s.hydrated) ∧
    (List.range s.chunks.size).countP (fun index => source index = some .file) ≤ limit ∧
    (0 < limit → ∀ file index records, s.detail? index = none →
      (s.hydrate file index).1 = .ok records →
        ∃ evicted, s.Keeps (s.hydrate file index).2 index records evicted) ∧
    (0 < limit → ∀ file position index place r, s.locate position = some (index, place) →
      s.detail? index = none → (s.recordAt file position).1 = .ok r →
        ∃ records evicted, records[place]? = some r ∧
          s.Keeps (s.recordAt file position).2 index records evicted) ∧
    (limit = 0 → ∀ a, ∀ index < s.chunks.size, ∀ records,
      (s.act a).detail? index = some records → s.detail? index = some records) ∧
    (∀ index, source index = some .batch → ∀ a,
      (s.act a).detail? index = s.detail? index ∨ a = .release index ∨ a = .releaseChunk index) := by
  intro start s source
  have bounded : Bounded s source (start.loads past) :=
    (Bounded.start regions rereads limit).actAll hpast
  have hlimit : s.hydratedLimit = limit := hydratedLimit_actAll past start
  have hkeeps : 0 < limit → ∀ file index records, s.detail? index = none →
      (s.hydrate file index).1 = .ok records →
        ∃ evicted, s.Keeps (s.hydrate file index).2 index records evicted := by
    intro hroom file index records hdetail hanswer
    obtain ⟨hload, hbehind⟩ := hydrate_of_unheld bounded.numbered hdetail hanswer (by omega)
    rw [hbehind]
    exact ⟨_, bounded.keeps hload⟩
  refine ⟨⟨bounded.nodup, hlimit ▸ bounded.length_le, bounded.ordered⟩, bounded.sourced,
    bounded.listed, ?_, hkeeps, ?_, ?_, fun index => bounded.detail?_of_batch⟩
  · exact Nat.le_trans bounded.countP_file_le (hlimit ▸ bounded.length_le)
  · intro hroom file position index place r hlocate hdetail hanswer
    obtain ⟨hbehind, records, hhydrate, hr⟩ := recordAt_of_locate hlocate hanswer
    obtain ⟨evicted, h⟩ := hkeeps hroom file index records hdetail hhydrate
    exact ⟨records, evicted, hr, hbehind ▸ h⟩
  · intro hnone a index hindex records
    exact detail?_of_no_room bounded.numbered (hlimit.trans hnone) hindex

/-- The list is full, and the third block has yet to be read again. -/
theorem bounded_of_actions_full :
    let file : FileContent := .ok (TraceFile.encode [] [[.enter 1], [.exit 1], [.enter 2]])
    let batches : List Batch := [⟨9, [.enter 1]⟩, ⟨77, [.exit 1]⟩, ⟨145, [.enter 2]⟩]
    let chunks := ((Processor.start {} false .empty).feed batches).1
    let past := chunks.map Action.append ++ [.hydrate file 0, .hydrate file 1]
    let s := (start .empty true 2).actAll past
    Action.InOrder 0 past ∧ s.hydrated = [0, 1] ∧ s.detail? 2 = none ∧
      (s.hydrate file 2).1.toOption = some [.enter 2] ∧
      ∃ evicted, s.Keeps (s.hydrate file 2).2 2 [.enter 2] evicted := by
  intro file batches chunks past s
  have hrun : s.hydrated = [0, 1] ∧ s.detail? 2 = none ∧
      (s.hydrate file 2).1.toOption = some [.enter 2] := by
    decide +kernel +revert
  obtain ⟨hlist, hdetail, hread⟩ := hrun
  have hanswer : (s.hydrate file 2).1 = .ok [.enter 2] := by
    cases hread' : (s.hydrate file 2).1 with
    | error e => simp [hread', Except.toOption] at hread
    | ok records => simpa [hread', Except.toOption] using hread
  have hpast : Action.InOrder 0 past :=
    Action.inOrder_feed_append (.start {} false .empty) batches (by simp [Action.chunk?])
  refine ⟨hpast, hlist, hdetail, hread, ?_⟩
  obtain ⟨-, -, -, -, hkeeps, -⟩ := bounded_of_actions .empty true 2 past hpast
  exact hkeeps (by decide) file 2 _ hdetail hanswer

end AccessTrace.Store
