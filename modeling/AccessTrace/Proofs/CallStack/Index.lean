import Mathlib.Data.List.Forall2
import Mathlib.Data.List.Nodup
import Mathlib.Data.List.Permutation
import AccessTrace.CallStack.Discipline
import AccessTrace.Proofs.CallStack.Frames

/-!
What an index of calls tells, and when there is none. Main statement: at every position it tells the
frames that the discipline keeps open there, each with the place of its entry and with whether it is
left further behind, and the making of it fails at the first record that cannot be paired.
-/

namespace AccessTrace.CallStack

theorem inherited_eq_mapIdx (slot : Nat) (functions : List UInt64) :
    inherited slot functions =
      functions.mapIdx fun i function => { origin := .inherited (slot + i), function } := by
  induction functions generalizing slot with
  | nil => rfl
  | cons function rest ih =>
    rw [inherited, ih, List.mapIdx_cons]
    congr 1
    apply List.mapIdx_eq_mapIdx_iff.2
    intro i _
    rw [Nat.add_right_comm, Nat.add_assoc]

theorem carried_eq (functions : List UInt64) :
    carried functions = (inherited 0 functions).reverse := by
  simp only [carried, inherited_eq_mapIdx, Nat.zero_add]

theorem map_function_carried (functions : List UInt64) :
    (carried functions).map OpenFrame.function = functions.reverse := by
  rw [carried_eq, List.map_reverse, map_function_inherited]

section Tracking

variable {position : Nat} {stack now last : List OpenFrame} {records : List Record}
  {spans : List (Interval Frame)}

/-- Where a frame was entered makes no difference to what may follow. -/
theorem followAll_eq_map_track (position : Nat) (stack : List OpenFrame) (records : List Record) :
    followAll (stack.map OpenFrame.function) records =
      (track position stack records).map fun last => last.map OpenFrame.function := by
  induction records generalizing position stack with
  | nil => rfl
  | cons r rest ih =>
    have hone : follow (stack.map OpenFrame.function) r =
        (trackOne position stack r).map fun next => next.map OpenFrame.function := by
      cases r with
      | access a => rfl
      | enter function => rfl
      | exit function =>
        cases stack with
        | nil => rfl
        | cons top below =>
          simp only [follow, trackOne, List.map_cons]
          split <;> rfl
    rw [followAll_cons, hone, track]
    cases trackOne position stack r with
    | none => rfl
    | some next => exact ih (position + 1) next

theorem Paired.track_eq (h : Paired position stack records spans last) :
    track position stack records = some last := by
  induction h with
  | nil => rfl
  | access tail ih => rwa [track, trackOne, Option.bind_some]
  | enter tail ih => rwa [track, trackOne, Option.bind_some]
  | exit tail ih => rwa [track, trackOne, if_pos rfl, Option.bind_some]

theorem exists_paired_of_track (h : track position stack records = some last) :
    ∃ spans, Paired position stack records spans last := by
  have hfollow := followAll_eq_map_track position stack records
  rw [h, Option.map_some] at hfollow
  obtain ⟨spans, last', hpaired, -⟩ := exists_paired position stack hfollow
  obtain rfl := Option.some.inj (hpaired.track_eq.symm.trans h)
  exact ⟨spans, hpaired⟩

theorem Paired.not_mem_last_iff (h : Paired position stack records spans last)
    (hn : Nested position stack) {frame : OpenFrame} (hframe : frame ∈ stack) :
    frame ∉ last ↔ ∃ place, records[place]? = some (.exit frame.function) ∧
      ∃ below, track position stack (records.take place) = some (frame :: below) := by
  induction h with
  | nil position stack =>
    constructor
    · intro hlast
      exact absurd hframe hlast
    · rintro ⟨place, hexit, -⟩
      simp at hexit
  | @access position stack a rest spans last tail ih =>
    rw [ih (hn.mono (Nat.le_succ _)) hframe]
    constructor
    · rintro ⟨place, hexit, hopen⟩
      exact ⟨place + 1, hexit, hopen⟩
    · rintro ⟨place, hexit, hopen⟩
      cases place with
      | zero => simp at hexit
      | succ place => exact ⟨place, hexit, hopen⟩
  | @enter position stack function rest spans last tail ih =>
    rw [ih (hn.enter function) (List.mem_cons_of_mem _ hframe)]
    constructor
    · rintro ⟨place, hexit, hopen⟩
      exact ⟨place + 1, hexit, hopen⟩
    · rintro ⟨place, hexit, hopen⟩
      cases place with
      | zero => simp at hexit
      | succ place => exact ⟨place, hexit, hopen⟩
  | @exit position top below rest spans last tail ih =>
    have hbehind (place : Nat) :
        track position (top :: below) ((Record.exit top.function :: rest).take (place + 1)) =
          track (position + 1) below (rest.take place) := by
      rw [List.take_succ_cons, track, trackOne, if_pos rfl, Option.bind_some]
    rcases List.mem_cons.1 hframe with rfl | hbelow
    · -- The frame on top is left at once.
      constructor
      · intro _
        exact ⟨0, rfl, below, rfl⟩
      · intro _
        exact tail.not_mem_last_of_exit hn
    · rw [ih (hn.tail.mono (Nat.le_succ _)) hbelow]
      constructor
      · rintro ⟨place, hexit, below', hopen⟩
        exact ⟨place + 1, hexit, below', (hbehind place).trans hopen⟩
      · rintro ⟨place, hexit, below', hopen⟩
        cases place with
        | zero =>
          obtain ⟨rfl, -⟩ := List.cons.inj (Option.some.inj hopen)
          have := (List.pairwise_cons.1 hn.inside).1 _ hbelow
          rw [Origin.le_refl] at this
          contradiction
        | succ place => exact ⟨place, hexit, below', (hbehind place).symm.trans hopen⟩

theorem Paired.start_eq (h : Paired position stack records spans last) :
    ∀ span ∈ spans, span.start = span.value.origin.first := by
  induction h with
  | nil => simp
  | access tail ih => exact ih
  | enter tail ih => exact ih
  | exit tail ih =>
    intro span hspan
    rcases List.mem_append.1 hspan with hleft | hspan
    · unfold left at hleft
      split at hleft
      · rw [List.mem_singleton.1 hleft]
        rfl
      · exact absurd hleft List.not_mem_nil
    · exact ih span hspan

end Tracking

section CarriedIn

theorem entries_or_exists_not_entry (carryIn : List Record) :
    (∃ functions : List UInt64, carryIn = functions.map Record.enter) ∨
      ∃ (functions : List UInt64) (r : Record) (rest : List Record),
        carryIn = functions.map Record.enter ++ r :: rest ∧ ∀ function, r ≠ .enter function := by
  induction carryIn with
  | nil => exact .inl ⟨[], rfl⟩
  | cons first carryIn ih =>
    cases first with
    | access a => exact .inr ⟨[], .access a, carryIn, rfl, by simp⟩
    | exit function => exact .inr ⟨[], .exit function, carryIn, rfl, by simp⟩
    | enter function =>
      rcases ih with ⟨functions, rfl⟩ | ⟨functions, r, rest, rfl, hr⟩
      · exact .inl ⟨function :: functions, rfl⟩
      · exact .inr ⟨function :: functions, r, rest, rfl, hr⟩

theorem inherit_of_not_entry (slot : Nat) (stack : List OpenFrame) (functions : List UInt64)
    {r : Record} (hr : ∀ function, r ≠ .enter function) (rest : List Record) :
    inherit slot stack (functions.map Record.enter ++ r :: rest) =
      .error (.notAnEntry (slot + functions.length)) := by
  induction functions generalizing slot stack with
  | nil =>
    cases r with
    | access a => rfl
    | exit function => rfl
    | enter function => exact absurd rfl (hr function)
  | cons function functions ih =>
    rw [List.map_cons, List.cons_append, inherit, ih, List.length_cons, Nat.add_right_comm,
      Nat.add_assoc]

end CarriedIn

def Frame.opened (f : Frame) : OpenFrame where
  origin := f.origin
  function := f.function

@[simp] theorem opened_told (last : List OpenFrame) (frame : OpenFrame) :
    (frame.told last).opened = frame :=
  rfl

namespace Index

variable {carryIn records out : List Record} {functions : List UInt64} {index : Index}
  {spans : List (Interval Frame)} {last : List OpenFrame}

section Failure

theorem build_of_not_entry (functions : List UInt64) {r : Record}
    (hr : ∀ function, r ≠ .enter function) (rest records : List Record) :
    build (functions.map Record.enter ++ r :: rest) records =
      .error (.notAnEntry functions.length) := by
  simp only [build, inherit_of_not_entry 0 [] functions hr, Nat.zero_add, bind, Except.bind]

theorem build_of_unpaired {now : List OpenFrame} {place : Nat} {found : UInt64}
    (hopen : openBehind functions records place = some now)
    (hexit : records[place]? = some (.exit found))
    (hbreak : now.head?.map OpenFrame.function ≠ some found) :
    build (functions.map Record.enter) records =
      .error (.unbalanced place (now.head?.map OpenFrame.function) found) := by
  have hfront := followAll_eq_map_track 0 (carried functions) (records.take place)
  rw [map_function_carried] at hfront
  rw [openBehind] at hopen
  rw [hopen, Option.map_some] at hfront
  rw [← List.head?_map] at hbreak ⊢
  exact build_eq_error hfront hexit hbreak

theorem paired_or_unpaired (functions : List UInt64) (records : List Record) :
    (∃ spans last, Paired 0 (carried functions) records spans last) ∨
      ∃ place now found, openBehind functions records place = some now ∧
        records[place]? = some (.exit found) ∧ now.head?.map OpenFrame.function ≠ some found := by
  cases htrack : track 0 (carried functions) records with
  | some last =>
    obtain ⟨spans, hpaired⟩ := exists_paired_of_track htrack
    exact .inl ⟨spans, last, hpaired⟩
  | none =>
    have hfollow := followAll_eq_map_track 0 (carried functions) records
    rw [htrack, Option.map_none] at hfollow
    obtain ⟨place, top, hfront, hbreak⟩ := exists_break hfollow
    obtain ⟨found, hexit, htop⟩ := exists_exit_of_break hfront hbreak
    rw [followAll_eq_map_track 0 (carried functions), Option.map_eq_some_iff] at hfront
    obtain ⟨now, hopen, rfl⟩ := hfront
    rw [List.head?_map] at htop
    exact .inr ⟨place, now, found, hopen, hexit, htop⟩

theorem error_of_build {e : Error} (h : build (functions.map Record.enter) records = .error e) :
    ∃ place now found, openBehind functions records place = some now ∧
      records[place]? = some (.exit found) ∧ now.head?.map OpenFrame.function ≠ some found ∧
      e = .unbalanced place (now.head?.map OpenFrame.function) found := by
  rcases paired_or_unpaired functions records with
    ⟨spans, last, hpaired⟩ | ⟨place, now, found, hopen, hexit, hbreak⟩
  · rw [carried_eq] at hpaired
    rw [build_eq hpaired] at h
    contradiction
  · rw [build_of_unpaired hopen hexit hbreak, Except.error.injEq] at h
    exact ⟨place, now, found, hopen, hexit, hbreak, h.symm⟩

end Failure

theorem exists_paired_of_build (h : build carryIn records = .ok (index, out)) :
    ∃ functions spans last, carryIn = functions.map Record.enter ∧
      Paired 0 (carried functions) records spans last := by
  rcases entries_or_exists_not_entry carryIn with ⟨functions, rfl⟩ | ⟨functions, r, rest, rfl, hr⟩
  · rcases paired_or_unpaired functions records with
      ⟨spans, last, hpaired⟩ | ⟨place, now, found, hopen, hexit, hbreak⟩
    · exact ⟨functions, spans, last, rfl, hpaired⟩
    · rw [build_of_unpaired hopen hexit hbreak] at h
      contradiction
  · rw [build_of_not_entry functions hr] at h
    contradiction

section Built

variable (hpaired : Paired 0 (carried functions) records spans last)
  (hbuild : build (functions.map Record.enter) records = .ok (index, out))

include hpaired hbuild

theorem exists_open {place : Nat} (hplace : place < records.length) :
    ∃ now, openBehind functions records (place + 1) = some now ∧ Nested (place + 1) now ∧
      index.framesAt place = now.reverse.map (OpenFrame.told last) ∧
      ∀ frame ∈ now, frame ∉ last ↔
        ∃ later, place < later ∧ ExitsAt functions records frame later := by
  have hlength : (records.take (place + 1)).length = place + 1 := List.length_take_of_le hplace
  have htrack := hpaired.track_eq
  rw [← List.take_append_drop (place + 1) records, track_append, Option.bind_eq_some_iff] at htrack
  obtain ⟨now, hopen, hrest⟩ := htrack
  rw [hlength, Nat.zero_add] at hrest
  obtain ⟨spans₁, h₁⟩ := exists_paired_of_track hopen
  obtain ⟨spans₂, h₂⟩ := exists_paired_of_track hrest
  have hnested : Nested (place + 1) now := by
    have := h₁.nested (carried_eq functions ▸ nested_inherited functions)
    rwa [hlength, Nat.zero_add] at this
  refine ⟨now, hopen, hnested, ?_, ?_⟩
  · have hbehind : Paired (records.take (place + 1)).length now (records.drop (place + 1)) spans₂
        last := by rwa [hlength]
    rw [carried_eq] at h₁
    have hframes := framesAt_build h₁ hbehind (by omega) (by rwa [List.take_append_drop])
    rwa [hlength, Nat.add_sub_cancel] at hframes
  · intro frame hframe
    rw [h₂.not_mem_last_iff hnested hframe]
    have hbehind (k : Nat) : openBehind functions records (place + 1 + k) =
        track (place + 1) now ((records.drop (place + 1)).take k) := by
      rw [openBehind, List.take_add, track_append, hopen, Option.bind_some, hlength, Nat.zero_add]
    constructor
    · rintro ⟨k, hexit, below, hbelow⟩
      rw [List.getElem?_drop] at hexit
      exact ⟨place + 1 + k, by omega, hexit, below, (hbehind k).trans hbelow⟩
    · rintro ⟨later, hlater, hexit, below, hbelow⟩
      obtain ⟨k, rfl⟩ := Nat.exists_eq_add_of_le hlater
      rw [Nat.succ_eq_add_one] at hexit hbelow
      exact ⟨k, by rwa [List.getElem?_drop], below, (hbehind k).symm.trans hbelow⟩

theorem built_eq :
    index = ⟨.ofList (spans ++ if records.length = 0 then []
      else last.reverse.map fun frame => frame.span (records.length - 1) false), records.length⟩ ∧
    out = last.reverse.map OpenFrame.entry := by
  rw [carried_eq] at hpaired
  rw [build_eq hpaired, Except.ok.injEq, Prod.mk.injEq] at hbuild
  exact ⟨hbuild.1.symm, hbuild.2.symm⟩

theorem framesAt_eq_nil {place : Nat} (hplace : records.length ≤ place) :
    index.framesAt place = [] := by
  rw [(built_eq hpaired hbuild).1]
  exact if_neg (Nat.not_lt.2 hplace)

theorem mem_frames {span : Interval Frame} (hspan : span ∈ index.frames.toList) :
    span.start = span.value.origin.first ∧ span.start ≤ span.stop ∧ span.stop < records.length := by
  have hnested := hpaired.nested (carried_eq functions ▸ nested_inherited functions)
  have hstop := hpaired.stop_lt
  have hfirst := hpaired.start_eq
  rw [(built_eq hpaired hbuild).1, Interval.Tree.mem_toList_ofList] at hspan
  obtain ⟨hspan, hle⟩ := hspan
  rcases List.mem_append.1 hspan with hclosed | hunclosed
  · have := hstop span hclosed
    exact ⟨hfirst span hclosed, hle, by omega⟩
  · split at hunclosed
    · exact absurd hunclosed List.not_mem_nil
    · obtain ⟨frame, hframe, rfl⟩ := List.mem_map.1 hunclosed
      refine ⟨rfl, hle, ?_⟩
      simp only [OpenFrame.span]
      omega

theorem perm_framesAt {place : Nat} (hplace : place < records.length) :
    (index.framesAt place).Perm
      ((index.frames.toList.filter fun span => span.holds place).map Interval.value) := by
  rw [(built_eq hpaired hbuild).1, framesAt, if_pos hplace, Interval.Tree.query_ofList]
  exact List.mergeSort_perm _ _

theorem mem_framesAt {place : Nat} (hplace : place < records.length) {told : Frame} :
    told ∈ index.framesAt place ↔
      ∃ span ∈ index.frames.toList, span.holds place = true ∧ span.value = told := by
  rw [(perm_framesAt hpaired hbuild hplace).mem_iff, List.mem_map]
  simp only [List.mem_filter, and_assoc]

theorem nodup_framesAt (place : Nat) : ((index.framesAt place).map Frame.origin).Nodup := by
  by_cases hplace : place < records.length
  · obtain ⟨now, -, hnested, hframes, -⟩ := exists_open hpaired hbuild hplace
    rw [hframes, List.map_map, List.map_reverse, List.Nodup, List.pairwise_reverse, List.pairwise_map]
    apply hnested.inside.imp
    intro inner outer hin heq
    simp only [Function.comp_apply, OpenFrame.told] at heq
    rw [heq, Origin.le_refl] at hin
    contradiction
  · rw [framesAt_eq_nil hpaired hbuild (Nat.le_of_not_lt hplace)]
    exact List.nodup_nil

/-- No frame has two ranges in the tree, since both would hold the place where it begins. -/
theorem nodup_frames : (index.frames.toList.map fun span => span.value.origin).Nodup := by
  rw [List.Nodup, List.pairwise_map, List.pairwise_iff_forall_sublist]
  intro a b hsub heq
  obtain ⟨ha, hale, halt⟩ := mem_frames hpaired hbuild (hsub.subset List.mem_cons_self)
  obtain ⟨hb, hble, -⟩ :=
    mem_frames hpaired hbuild (hsub.subset (List.mem_cons_of_mem a List.mem_cons_self))
  have hstart : b.start = a.start := by rw [ha, hb, heq]
  have hboth := hsub.filter fun span => span.holds a.start
  rw [List.filter_eq_self.2] at hboth
  · have hnodup := nodup_framesAt hpaired hbuild a.start
    rw [((perm_framesAt hpaired hbuild (Nat.lt_of_le_of_lt hale halt)).map _).nodup_iff,
      List.map_map] at hnodup
    have := hnodup.sublist (hboth.map _)
    simp [heq] at this
  · intro span hspan
    rw [List.mem_cons, List.mem_singleton] at hspan
    rcases hspan with rfl | rfl
    · exact Interval.holds_iff.2 ⟨Nat.le_refl _, hale⟩
    · exact Interval.holds_iff.2 ⟨Nat.le_of_eq hstart, hstart ▸ hble⟩

theorem mem_opened {frame : OpenFrame} :
    frame ∈ index.frames.toList.map (fun span => span.value.opened) ↔
      ∃ place < records.length,
        ∃ now, openBehind functions records (place + 1) = some now ∧ frame ∈ now := by
  rw [List.mem_map]
  constructor
  · rintro ⟨span, hspan, rfl⟩
    obtain ⟨hfirst, hle, hlt⟩ := mem_frames hpaired hbuild hspan
    have hplace : span.start < records.length := Nat.lt_of_le_of_lt hle hlt
    obtain ⟨now, hopen, -, hframes, -⟩ := exists_open hpaired hbuild hplace
    have htold : span.value ∈ index.framesAt span.start :=
      (mem_framesAt hpaired hbuild hplace).2
        ⟨span, hspan, Interval.holds_iff.2 ⟨Nat.le_refl _, hle⟩, rfl⟩
    rw [hframes, List.mem_map] at htold
    obtain ⟨frame, hframe, heq⟩ := htold
    refine ⟨span.start, hplace, now, hopen, ?_⟩
    rw [← heq, opened_told]
    exact List.mem_reverse.1 hframe
  · rintro ⟨place, hplace, now, hopen, hframe⟩
    obtain ⟨now', hopen', -, hframes, -⟩ := exists_open hpaired hbuild hplace
    obtain rfl := Option.some.inj (hopen.symm.trans hopen')
    have htold : frame.told last ∈ index.framesAt place := by
      rw [hframes]
      exact List.mem_map_of_mem (List.mem_reverse.2 hframe)
    obtain ⟨span, hspan, -, hvalue⟩ := (mem_framesAt hpaired hbuild hplace).1 htold
    exact ⟨span, hspan, by rw [hvalue, opened_told]⟩

end Built

theorem entries_of_build (h : build carryIn records = .ok (index, out)) :
    ∃ functions : List UInt64, out = functions.map Record.enter := by
  obtain ⟨functions, spans, last, rfl, hpaired⟩ := exists_paired_of_build h
  refine ⟨last.reverse.map OpenFrame.function, ?_⟩
  rw [(built_eq hpaired h).2, List.map_map]
  rfl

/-- What is told of a frame that is open behind the record at a place. -/
structure Tells (functions : List UInt64) (records : List Record) (place : Nat) (frame : OpenFrame)
    (told : Frame) : Prop where
  origin_eq : told.origin = frame.origin
  function_eq : told.function = frame.function
  closed_iff : told.closed = true ↔ ∃ later, place < later ∧ ExitsAt functions records frame later

/-- An index tells at every position of a stretch the frames open there, outermost first, and no
frame twice; it counts the frames that are open at some position. -/
structure Exact (functions : List UInt64) (records : List Record) (index : Index) : Prop where
  within : ∀ place < records.length, ∃ now, openBehind functions records (place + 1) = some now ∧
    List.Forall₂ (Tells functions records place) now.reverse (index.framesAt place)
  apart : ∀ place, ((index.framesAt place).map Frame.origin).Nodup
  beyond : ∀ place, records.length ≤ place → index.framesAt place = []
  counted : ∃ frames : List OpenFrame, frames.Nodup ∧ frames.length = index.frameCount ∧
    ∀ frame, frame ∈ frames ↔ ∃ place < records.length,
      ∃ now, openBehind functions records (place + 1) = some now ∧ frame ∈ now

theorem exact_of_paired (hpaired : Paired 0 (carried functions) records spans last)
    (hbuild : build (functions.map Record.enter) records = .ok (index, out)) :
    Exact functions records index where
  within := by
    intro place hplace
    obtain ⟨now, hopen, -, hframes, hleft⟩ := exists_open hpaired hbuild hplace
    refine ⟨now, hopen, ?_⟩
    rw [hframes, List.forall₂_map_right_iff, List.forall₂_same]
    intro frame hframe
    constructor
    · rfl
    · rfl
    · rw [← hleft frame (List.mem_reverse.1 hframe)]
      simp only [OpenFrame.told, decide_eq_true_iff]
  apart := nodup_framesAt hpaired hbuild
  beyond := fun _ => framesAt_eq_nil hpaired hbuild
  counted := by
    refine ⟨index.frames.toList.map fun span => span.value.opened, ?_, ?_, ?_⟩
    · apply List.Nodup.of_map OpenFrame.origin
      rw [List.map_map]
      exact nodup_frames hpaired hbuild
    · rw [List.length_map, Interval.Tree.length_toList, frameCount]
    · intro frame
      exact mem_opened hpaired hbuild

theorem build_eq_notAnEntry_iff {slot : Nat} :
    build carryIn records = .error (.notAnEntry slot) ↔
      ∃ (functions : List UInt64) (r : Record) (rest : List Record),
        carryIn = functions.map Record.enter ++ r :: rest ∧ functions.length = slot ∧
          ∀ function, r ≠ .enter function := by
  constructor
  · intro h
    rcases entries_or_exists_not_entry carryIn with ⟨functions, rfl⟩ | ⟨functions, r, rest, rfl, hr⟩
    · obtain ⟨place, now, found, -, -, -, he⟩ := error_of_build h
      contradiction
    · rw [build_of_not_entry functions hr, Except.error.injEq, Error.notAnEntry.injEq] at h
      exact ⟨functions, r, rest, rfl, h, hr⟩
  · rintro ⟨functions, r, rest, rfl, rfl, hr⟩
    exact build_of_not_entry functions hr rest records

theorem build_eq_unbalanced_iff {place : Nat} {expected : Option UInt64} {found : UInt64} :
    build carryIn records = .error (.unbalanced place expected found) ↔
      ∃ functions now, carryIn = functions.map Record.enter ∧
        openBehind functions records place = some now ∧
        records[place]? = some (.exit found) ∧
        now.head?.map OpenFrame.function = expected ∧ expected ≠ some found := by
  constructor
  · intro h
    rcases entries_or_exists_not_entry carryIn with ⟨functions, rfl⟩ | ⟨functions, r, rest, rfl, hr⟩
    · obtain ⟨place', now, found', hopen, hexit, hbreak, he⟩ := error_of_build h
      obtain ⟨rfl, rfl, rfl⟩ := Error.unbalanced.inj he
      exact ⟨functions, now, rfl, hopen, hexit, rfl, hbreak⟩
    · rw [build_of_not_entry functions hr] at h
      cases h
  · rintro ⟨functions, now, rfl, hopen, hexit, rfl, hbreak⟩
    exact build_of_unpaired hopen hexit hbreak

/-- An index is exact, and what is carried out is the stack left at the end. There is none exactly
when something other than an entry is carried in, or else when an exit does not name the innermost
open frame; the first such slot or position is reported. -/
theorem exact_of_build (carryIn records : List Record) :
    (∀ index carryOut, build carryIn records = .ok (index, carryOut) →
      ∃ functions last, carryIn = functions.map Record.enter ∧ Exact functions records index ∧
        openBehind functions records records.length = some last ∧
        carryOut = last.reverse.map OpenFrame.entry) ∧
      (∀ slot, build carryIn records = .error (.notAnEntry slot) ↔
        ∃ (functions : List UInt64) (r : Record) (rest : List Record),
          carryIn = functions.map Record.enter ++ r :: rest ∧ functions.length = slot ∧
            ∀ function, r ≠ .enter function) ∧
      ∀ place expected found, build carryIn records = .error (.unbalanced place expected found) ↔
        ∃ functions now, carryIn = functions.map Record.enter ∧
          openBehind functions records place = some now ∧
          records[place]? = some (.exit found) ∧
          now.head?.map OpenFrame.function = expected ∧ expected ≠ some found := by
  refine ⟨fun index carryOut hbuild => ?_, fun slot => build_eq_notAnEntry_iff,
    fun place expected found => build_eq_unbalanced_iff⟩
  obtain ⟨functions, spans, last, rfl, hpaired⟩ := exists_paired_of_build hbuild
  refine ⟨functions, last, rfl, exact_of_paired hpaired hbuild, ?_, (built_eq hpaired hbuild).2⟩
  rw [openBehind, List.take_length, hpaired.track_eq]

/-- Of two frames carried in, the inner one is left at once and covers nothing. -/
theorem exact_of_build_inherited :
    ∃ index, build [.enter 7, .enter 8] [.exit 8, .enter 9, .exit 9, .enter 5] =
        .ok (index, [.enter 7, .enter 5]) ∧
      Exact [7, 8] [.exit 8, .enter 9, .exit 9, .enter 5] index ∧
      index.framesAt 1 = [⟨.inherited 0, 7, false⟩, ⟨.entered 1, 9, true⟩] := by
  have hbuilds : (build [.enter 7, .enter 8] [.exit 8, .enter 9, .exit 9, .enter 5]).map
      (fun built => (built.1.framesAt 1, built.2)) =
        .ok ([⟨.inherited 0, 7, false⟩, ⟨.entered 1, 9, true⟩], [.enter 7, .enter 5]) := by
    cbv
  cases hbuild : build [.enter 7, .enter 8] [.exit 8, .enter 9, .exit 9, .enter 5] with
  | error e =>
    rw [hbuild] at hbuilds
    contradiction
  | ok built =>
    obtain ⟨index, carryOut⟩ := built
    rw [hbuild] at hbuilds
    obtain ⟨hframes, rfl⟩ := Prod.mk.inj (Except.ok.inj hbuilds)
    obtain ⟨functions, last, hcarry, hexact, -⟩ := (exact_of_build _ _).1 index _ hbuild
    have hfunctions : functions = [7, 8] := by
      apply List.map_injective_iff.2 (fun a b h => Record.enter.inj h)
      exact hcarry.symm
    exact ⟨index, rfl, hfunctions ▸ hexact, hframes⟩

end Index

end AccessTrace.CallStack
