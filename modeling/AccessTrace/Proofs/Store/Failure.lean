import AccessTrace.Proofs.Computation
import AccessTrace.Proofs.Store.Bound
import AccessTrace.Proofs.Store.Position

/-!
Requests for records that cannot be met. Whatever the trace file has become, a request either gives
as many records as the chunk was made of, or it gives an error and leaves the store as it was.
-/

namespace AccessTrace

/-- A chunk as processors make them. -/
def Chunk.Made (c : Chunk) : Prop :=
  ∃ (p : Processor) (batch : Batch) (next : Processor), p.process batch = .ok (c, next)

/-- The records that a chunk holds are all that it was made of. -/
def Chunk.Whole (c : Chunk) : Prop :=
  ∀ records, c.detail = some records → records.length = c.recordCount

theorem Chunk.Made.whole {c : Chunk} (h : c.Made) : c.Whole := by
  obtain ⟨p, batch, next, hprocess⟩ := h
  have step := Processor.step_of_process hprocess
  intro records hrecords
  rw [step.detail] at hrecords
  split at hrecords
  · rw [step.recordCount, ← Option.some.inj hrecords]
  · contradiction

theorem Chunk.Whole.release (c : Chunk) : c.release.Whole :=
  nofun

theorem Processor.made_of_mem_feed {p : Processor} {batches : List Batch} {c : Chunk}
    (h : c ∈ (p.feed batches).1) : c.Made := by
  fun_induction Processor.feed p batches with
  | case1 => contradiction
  | case2 p batch rest e hprocess ih => exact ih h
  | case3 p batch rest chunk next hprocess chunks last hfeed ih =>
    rcases List.mem_cons.1 h with rfl | h
    · exact ⟨p, batch, next, hprocess⟩
    · exact ih (by rwa [hfeed])

namespace Store

def Whole (s : Store) : Prop :=
  ∀ index c, s.chunk? index = some c → c.Whole

variable {s : Store} {index : Nat} {file : FileContent} {records : List Record} {c : Chunk}
  {e : TraceError}

theorem reread_of_load (hrereads : s.rereads = true)
    (hload : loadBlock file c.fileOffset = .ok records) :
    s.reread file c =
      if records.length = c.recordCount then .ok records
      else .error (.detailMismatch c.index c.recordCount records.length) := by
  simp only [reread, hrereads, hload, ok_bind, Bool.not_true, Bool.false_eq_true, if_false, ne_eq,
    ite_not]
  rfl

theorem reread_eq_ok_iff : s.reread file c = .ok records ↔
    s.rereads = true ∧ loadBlock file c.fileOffset = .ok records ∧
      records.length = c.recordCount := by
  constructor
  · intro h
    cases hrereads : s.rereads with
    | false =>
      simp only [reread, hrereads] at h
      contradiction
    | true =>
      simp only [reread, hrereads, Bool.not_true, Bool.false_eq_true, if_false] at h
      obtain ⟨loaded, hload, h⟩ := exists_of_bind_eq_ok h
      by_cases hlength : loaded.length = c.recordCount
      · rw [if_neg (not_not_intro hlength)] at h
        obtain rfl := Except.ok.inj h
        exact ⟨rfl, hload, hlength⟩
      · rw [if_pos hlength] at h
        contradiction
  · rintro ⟨hrereads, hload, hlength⟩
    rw [reread_of_load hrereads hload, if_pos hlength]

namespace Whole

theorem setChunk {change : Chunk → Chunk} (h : s.Whole)
    (hchange : ∀ c, s.chunk? index = some c → (change c).Whole) :
    (s.setChunk index change).Whole :=
  forall_chunk?_setChunk h hchange

theorem withHydrated (h : s.Whole) (hydrated : List Nat) : { s with hydrated }.Whole :=
  h

theorem releaseAll (h : s.Whole) (indices : List Nat) : (s.releaseAll indices).Whole := by
  induction indices generalizing s with
  | nil => exact h
  | cons index rest ih => exact ih (h.setChunk fun c _ => Chunk.Whole.release c)

/-- Records that were read again are counted before they are kept. -/
theorem hydrate (h : s.Whole) (file : FileContent) (index : Nat) :
    (s.hydrate file index).2.Whole := by
  have ending := s.hydration file index
  generalize s.hydrate file index = answer at ending
  cases ending with
  | failed | held => exact h
  | @reread c records hc hdetail hread =>
    have held : (s.setChunk index fun c => c.hold records).Whole := h.setChunk fun c' hc' => by
      obtain rfl := Option.some.inj (hc.symm.trans hc')
      exact fun held hheld => Option.some.inj hheld ▸ (reread_eq_ok_iff.1 hread).2.2
    rw [keep]
    split
    · exact h
    · rw [track_eq]
      exact (held.withHydrated _).releaseAll _

theorem act {a : Action} (h : s.Whole) (ha : ∀ c, a = .append c → c.Whole) : (s.act a).Whole := by
  cases a with
  | append c =>
    intro i d hd
    rw [chunk?, Store.act, append, Array.getElem?_push] at hd
    split at hd
    · exact Option.some.inj hd ▸ ha c rfl
    · exact h i d hd
  | recordAt file position =>
    simp only [Store.act, recordAt]
    split
    · exact h
    · exact h.hydrate file _
  | hydrate file index => exact h.hydrate file index
  | release index =>
    simp only [Store.act, release]
    split
    · exact h
    · exact (h.setChunk fun c _ => Chunk.Whole.release c).withHydrated _
  | releaseChunk index => exact h.setChunk fun c _ => Chunk.Whole.release c

theorem actAll {actions : List Action} (h : s.Whole)
    (hactions : ∀ c, .append c ∈ actions → c.Whole) : (s.actAll actions).Whole := by
  induction actions generalizing s with
  | nil => exact h
  | cons a rest ih =>
    exact ih (h.act fun c hc => hactions c (hc ▸ List.mem_cons_self))
      fun c hc => hactions c (.tail _ hc)

end Whole

theorem hydrate_eq_ok_iff : (s.hydrate file index).1 = .ok records ↔
    ∃ c, s.chunk? index = some c ∧ (c.detail = some records ∨
      c.detail = none ∧ s.reread file c = .ok records) := by
  constructor
  · intro h
    have ending := s.hydration file index
    generalize s.hydrate file index = answer at h ending
    cases ending with
    | failed => contradiction
    | held hc hdetail =>
      obtain rfl := Except.ok.inj h
      exact ⟨_, hc, .inl hdetail⟩
    | reread hc hdetail hread =>
      obtain rfl := Except.ok.inj h
      exact ⟨_, hc, .inr ⟨hdetail, hread⟩⟩
  · rintro ⟨c, hc, hdetail | ⟨hdetail, hread⟩⟩
    · simp only [hydrate, hc, hdetail]
    · simp only [hydrate, hc, hdetail, hread]

theorem hydrate_of_error (h : (s.hydrate file index).1 = .error e) :
    s.hydrate file index = (.error e, s) := by
  have ending := s.hydration file index
  generalize s.hydrate file index = answer at h ending
  cases ending with
  | failed e' => rw [Except.error.inj h]
  | held | reread => contradiction

theorem Whole.length_eq (h : s.Whole) (hc : s.chunk? index = some c)
    (hanswer : (s.hydrate file index).1 = .ok records) : records.length = c.recordCount := by
  obtain ⟨c', hc', hdetail⟩ := hydrate_eq_ok_iff.1 hanswer
  obtain rfl := Option.some.inj (hc.symm.trans hc')
  rcases hdetail with hdetail | ⟨-, hread⟩
  · exact h index c hc records hdetail
  · exact (reread_eq_ok_iff.1 hread).2.2

/-- What comes of the requests to a store for records, when the trace file is found in this way. -/
structure Withstands (s : Store) (file : FileContent) : Prop where
  answered : ∀ index records, (s.hydrate file index).1 = .ok records ↔
    ∃ c, s.chunk? index = some c ∧ (c.detail = some records ∨ c.detail = none ∧
      s.rereads = true ∧ loadBlock file c.fileOffset = .ok records ∧
        records.length = c.recordCount)
  whole : ∀ index c records, s.chunk? index = some c → (s.hydrate file index).1 = .ok records →
    records.length = c.recordCount
  attached : ∀ index records, (s.hydrate file index).1 = .ok records →
    s.detail? index ≠ none ∨ s.hydratedLimit ≠ 0 →
      (s.hydrate file index).2.detail? index = some records
  unattached : ∀ index records, (s.hydrate file index).1 = .ok records → s.detail? index = none →
    s.hydratedLimit = 0 → (s.hydrate file index).2 = s
  refused : ∀ index e, (s.hydrate file index).1 = .error e → (s.hydrate file index).2 = s
  mismatched : ∀ index c records, s.chunk? index = some c → c.detail = none → s.rereads = true →
    loadBlock file c.fileOffset = .ok records → records.length ≠ c.recordCount →
      s.hydrate file index =
        (.error (.detailMismatch index c.recordCount records.length), s)
  recordAnswered : ∀ position index place records, s.locate position = some (index, place) →
    (s.hydrate file index).1 = .ok records → ∃ r, records[place]? = some r ∧
      s.recordAt file position = (.ok r, (s.hydrate file index).2)
  recordRefused : ∀ position index place e, s.locate position = some (index, place) →
    (s.hydrate file index).1 = .error e → s.recordAt file position = (.error e, s)
  recordLost : ∀ position, s.locate position = none →
    s.recordAt file position = (.error (.noRecord position), s)

theorem detail?_of_hydrate (hs : s.Numbered) (h : (s.hydrate file index).1 = .ok records)
    (hkept : s.detail? index ≠ none ∨ s.hydratedLimit ≠ 0) :
    (s.hydrate file index).2.detail? index = some records := by
  cases hdetail : s.detail? index with
  | none =>
    have hlimit := hkept.resolve_left (not_not_intro hdetail)
    obtain ⟨hload, hbehind⟩ := hydrate_of_unheld hs hdetail h hlimit
    rw [hbehind, hload.detail?_behind, if_neg (not_mem_evicted hlimit), if_pos rfl]
  | some held =>
    have ending := s.hydration file index
    generalize s.hydrate file index = answer at h ending ⊢
    cases ending with
    | failed => contradiction
    | held hc hheld =>
      obtain rfl := Except.ok.inj h
      rw [detail?, hc, Option.bind_some, hheld]
    | reread hc hnone => simp [detail?, hc, hnone] at hdetail

theorem hydrate_of_no_room (h : (s.hydrate file index).1 = .ok records)
    (hlimit : s.hydratedLimit = 0) : (s.hydrate file index).2 = s := by
  have ending := s.hydration file index
  generalize s.hydrate file index = answer at h ending ⊢
  cases ending with
  | failed | held => rfl
  | reread => exact if_pos hlimit

theorem Whole.withstands (h : s.Whole) (hs : s.Numbered) (file : FileContent) :
    s.Withstands file := by
  constructor
  case answered =>
    intro index records
    simp only [hydrate_eq_ok_iff, reread_eq_ok_iff]
  case whole => exact fun index c records hc hanswer => h.length_eq hc hanswer
  case attached => exact fun index records hanswer hkept => detail?_of_hydrate hs hanswer hkept
  case unattached => exact fun index records hanswer _ hlimit => hydrate_of_no_room hanswer hlimit
  case refused =>
    intro index e herror
    rw [hydrate_of_error herror]
  case mismatched =>
    intro index c records hc hdetail hrereads hload hlength
    simp only [Store.hydrate, hc, hdetail, reread_of_load hrereads hload, if_neg hlength,
      hs index c hc]
  case recordAnswered =>
    intro position index place records hlocate hanswer
    obtain ⟨c, hc, -, hplace⟩ := eq_add_of_locate hlocate
    rw [← h.length_eq hc hanswer] at hplace
    have hr := List.getElem?_eq_getElem hplace
    refine ⟨records[place], hr, ?_⟩
    simp only [recordAt, hlocate, hanswer, Except.bind, hr]
  case recordRefused =>
    intro position index place e hlocate herror
    simp only [recordAt, hlocate, hydrate_of_error herror, Except.bind]
  case recordLost =>
    intro position hlocate
    simp only [recordAt, hlocate]

/-- Whatever was asked of a store before, and whatever became of the trace file, a request that
fails changes nothing. -/
theorem withstands_of_actions (regions : Region.Table) (rereads : Bool) (limit : Nat)
    (past : List Action) (hpast : Action.InOrder 0 past) (hmade : ∀ c, .append c ∈ past → c.Made)
    (file : FileContent) : ((start regions rereads limit).actAll past).Withstands file := by
  have hstart : (start regions rereads limit).Whole := by
    intro index c hc
    simp [start, chunk?] at hc
  have numbered := (Numbered.start regions rereads limit).actAll hpast
  exact (hstart.actAll fun c hc => (hmade c hc).whole).withstands numbered file

/-- The first block has got a record more since it was read, and the only chunk that may keep its
records is the second. -/
theorem withstands_of_actions_rewritten :
    let file : FileContent := .ok (TraceFile.encode [] [[.enter 1], [.exit 1]])
    let rewritten : FileContent := .ok (TraceFile.encode [] [[.enter 1, .enter 2], [.exit 1]])
    let batches : List Batch := [⟨9, [.enter 1]⟩, ⟨77, [.exit 1]⟩]
    let chunks := ((Processor.start {} false .empty).feed batches).1
    let past := chunks.map Action.append ++ [.hydrate file 1]
    let s := (start .empty true 1).actAll past
    Action.InOrder 0 past ∧ (∀ c, .append c ∈ past → c.Made) ∧ s.hydrated = [1] ∧
      s.hydrate rewritten 0 = (.error (.detailMismatch 0 1 2), s) := by
  intro file rewritten batches chunks past s
  have hrun : (s.hydrated = [1] ∧ s.rereads = true) ∧ (s.chunk? 0).any (fun c =>
      c.detail.isNone && c.fileOffset == 9 && c.recordCount == 1) = true := by
    decide +kernel +revert
  have hload : loadBlock rewritten 9 = .ok [.enter 1, .enter 2] := by decide +kernel +revert
  have hmade : ∀ c, .append c ∈ past → c.Made := by
    intro c hc
    simp only [past, List.mem_append, List.mem_map, Action.append.injEq, exists_eq_right,
      List.mem_singleton, reduceCtorEq, or_false] at hc
    exact Processor.made_of_mem_feed hc
  have hpast : Action.InOrder 0 past :=
    Action.inOrder_feed_append (.start {} false .empty) batches (by simp [Action.chunk?])
  refine ⟨hpast, hmade, hrun.1.1, ?_⟩
  obtain ⟨c, hc, hunheld⟩ := (Option.any_eq_true _ _).1 hrun.2
  simp only [Bool.and_eq_true, Option.isNone_iff_eq_none, beq_iff_eq] at hunheld
  obtain ⟨⟨hdetail, hoffset⟩, hcount⟩ := hunheld
  have hmismatch := (withstands_of_actions .empty true 1 past hpast hmade rewritten).mismatched 0 c
    _ hc hdetail hrun.1.2 (hoffset ▸ hload) (by rw [hcount]; decide)
  rw [hcount] at hmismatch
  exact hmismatch

end Store

end AccessTrace
