import AccessTrace.Proofs.CallStack.Frames
import AccessTrace.Proofs.Store.Position

/-!
Stacks of a trace that was taken in batch by batch. As long as its records obey the discipline of
calls, every position has the stack that the discipline leaves there, wherever the cuts between the
batches are; the first record that breaks the discipline ends the run in its batch.
-/

namespace AccessTrace

open CallStack

theorem Batch.take_records (front rest : List Batch) (batch : Batch) {place : Nat}
    (h : place ≤ batch.records.length) :
    ((front ++ batch :: rest).flatMap Batch.records).take
        ((front.flatMap Batch.records).length + place) =
      front.flatMap Batch.records ++ batch.records.take place := by
  rw [List.flatMap_append, List.take_length_add_append, List.flatMap_cons,
    List.take_append_of_le_length h]

namespace Processor

variable {p : Processor} {stack : List UInt64} {batch : Batch} {batches : List Batch}

theorem process_of_followAll {functions : List UInt64}
    (hcarry : p.carry = functions.map Record.enter)
    (h : followAll functions.reverse batch.records = some stack) :
    ∃ chunk next, p.process batch = .ok (chunk, next) ∧
      next.carry = stack.reverse.map Record.enter ∧
      ∀ place < batch.records.length, ∃ opened,
        followAll functions.reverse (batch.records.take (place + 1)) = some opened ∧
        chunk.stackAt place = opened.reverse.map Record.enter := by
  obtain ⟨index, hbuild, -, hstack⟩ := Index.exists_build h
  rw [← hcarry] at hbuild
  obtain ⟨chunk, next, hprocess, hstep, hindex, hout⟩ := exists_step hbuild
  refine ⟨chunk, next, hprocess, ?_, ?_⟩
  · rw [hstep.behind, hout]
  · intro place hplace
    rw [Chunk.stackAt, hindex]
    exact hstack place hplace

theorem exists_run (functions : List UInt64) (hcarry : p.carry = functions.map Record.enter)
    (h : followAll functions.reverse (batches.flatMap Batch.records) = some stack) :
    ∃ chunks last, p.Run batches chunks last ∧ last.carry = stack.reverse.map Record.enter := by
  induction batches generalizing p functions with
  | nil =>
    rw [List.flatMap_nil, followAll_nil, Option.some.injEq] at h
    refine ⟨[], p, .nil p, ?_⟩
    rw [hcarry, ← h, List.reverse_reverse]
  | cons batch rest ih =>
    rw [List.flatMap_cons, followAll_append, Option.bind_eq_some_iff] at h
    obtain ⟨middle, hbatch, hrest⟩ := h
    obtain ⟨chunk, next, hprocess, hnext, -⟩ := process_of_followAll hcarry hbatch
    obtain ⟨chunks, last, hrun, hlast⟩ :=
      ih middle.reverse hnext (by rwa [List.reverse_reverse])
    exact ⟨chunk :: chunks, last, .cons hprocess hrun, hlast⟩

theorem Run.carry_of_followAll {last : Processor} {chunks : List Chunk} (functions : List UInt64)
    (hrun : p.Run batches chunks last) (hcarry : p.carry = functions.map Record.enter)
    (h : followAll functions.reverse (batches.flatMap Batch.records) = some stack) :
    last.carry = stack.reverse.map Record.enter := by
  obtain ⟨chunks', last', hrun', hlast⟩ := exists_run functions hcarry h
  have := hrun.feed_eq.symm.trans hrun'.feed_eq
  rw [(Prod.mk.inj this).2]
  exact hlast

theorem exists_followAll {functions : List UInt64} {chunk : Chunk} {next : Processor}
    (hcarry : p.carry = functions.map Record.enter) (h : p.process batch = .ok (chunk, next)) :
    ∃ stack, followAll functions.reverse batch.records = some stack := by
  cases hfollow : followAll functions.reverse batch.records with
  | some stack => exact ⟨stack, rfl⟩
  | none =>
    obtain ⟨position, top, hfront, hbreak⟩ := exists_break hfollow
    obtain ⟨function, hexit, htop⟩ := exists_exit_of_break hfront hbreak
    have hbuild := Index.build_eq_error hfront hexit htop
    rw [← hcarry] at hbuild
    simp [process_of_build_error hbuild] at h

theorem Run.exists_followAll {last : Processor} {chunks : List Chunk} (functions : List UInt64)
    (hrun : p.Run batches chunks last) (hcarry : p.carry = functions.map Record.enter) :
    ∃ stack, followAll functions.reverse (batches.flatMap Batch.records) = some stack := by
  induction hrun generalizing functions with
  | nil => exact ⟨_, rfl⟩
  | cons head tail ih =>
    obtain ⟨middle, hbatch⟩ := Processor.exists_followAll hcarry head
    obtain ⟨chunk, next, hprocess, hnext, -⟩ := process_of_followAll hcarry hbatch
    obtain ⟨rfl, rfl⟩ := Prod.mk.inj (Except.ok.inj (head.symm.trans hprocess))
    obtain ⟨stack, hstack⟩ := ih middle.reverse hnext
    refine ⟨stack, ?_⟩
    rw [List.flatMap_cons, followAll_append, hbatch, Option.bind_some]
    rwa [List.reverse_reverse] at hstack

end Processor

namespace Store

variable {s : Store} {p last : Processor} {batches : List Batch} {chunks : List Chunk}
  {stack : List UInt64}

theorem stackAt_of_run (hrun : p.Run batches chunks last) (hcarry : p.carry = [])
    (hrecord : p.nextRecord = 0) (hchunks : s.chunks.toList = chunks)
    (h : followAll [] (batches.flatMap Batch.records) = some stack) {position : Nat}
    (hposition : position < (batches.flatMap Batch.records).length) :
    ∃ opened, openAt (batches.flatMap Batch.records) position = some opened ∧
      s.stackAt position = some (opened.reverse.map Record.enter) := by
  obtain ⟨front, batch, rest, place, rfl, rfl, hplace⟩ := Batch.exists_split_of_lt hposition
  obtain ⟨chunks₁, chunk, middle, next, hfront, hprocess, hchunk, hlocate⟩ :=
    chunk_of_run hrun hrecord hchunks
  rw [List.flatMap_append, List.flatMap_cons, followAll_append, Option.bind_eq_some_iff] at h
  obtain ⟨functions, hfunctions, h⟩ := h
  rw [followAll_append, Option.bind_eq_some_iff] at h
  obtain ⟨behind, hbatch, -⟩ := h
  have hmiddle : middle.carry = functions.reverse.map Record.enter :=
    hfront.carry_of_followAll [] hcarry hfunctions
  obtain ⟨chunk', next', hprocess', -, hstack⟩ :=
    Processor.process_of_followAll hmiddle (by rwa [List.reverse_reverse])
  obtain ⟨rfl, rfl⟩ := Prod.mk.inj (Except.ok.inj (hprocess.symm.trans hprocess'))
  obtain ⟨opened, hopened, hanswer⟩ := hstack place hplace
  rw [List.reverse_reverse] at hopened
  refine ⟨opened, ?_, ?_⟩
  · rw [openAt, Nat.add_assoc, Batch.take_records _ _ _ (by omega), followAll_append, hfunctions]
    exact hopened
  · rw [stackAt, hlocate place hplace]
    simp only [Option.bind_eq_bind, Option.bind_some, hchunk, hanswer, Option.pure_def]

theorem openFrames_of_run (hrun : p.Run batches chunks last) (hcarry : p.carry = [])
    (hchunks : s.chunks.toList = chunks) : s.openFrames = last.carry := by
  rw [hrun.carry, openFrames_eq, hchunks, hcarry]

theorem stackAt_eq_none_of_run (hrun : p.Run batches chunks last) (hrecord : p.nextRecord = 0)
    (hchunks : s.chunks.toList = chunks) {position : Nat}
    (h : (batches.flatMap Batch.records).length ≤ position) : s.stackAt position = none := by
  have hnone : s.locate position = none := by
    apply locate_eq_none_of_run hrun hchunks
    rwa [totalRecords_eq_length hrun hrecord hchunks]
  simp [stackAt, hnone]

end Store

namespace Processor

variable {p : Processor} {batches : List Batch}

theorem refused_of_break {position : Nat} {top : List UInt64} (hcarry : p.carry = [])
    (hfront : followAll [] ((batches.flatMap Batch.records).take position) = some top)
    (hbreak : followAll [] ((batches.flatMap Batch.records).take (position + 1)) = none) :
    ∃ front batch rest place function chunks middle, batches = front ++ batch :: rest ∧
      position = (front.flatMap Batch.records).length + place ∧ place < batch.records.length ∧
      (batches.flatMap Batch.records)[position]? = some (.exit function) ∧
      p.Run front chunks middle ∧
      middle.process batch = .error (.unbalanced place top.head? function) := by
  obtain ⟨function, hexit, htop⟩ := exists_exit_of_break hfront hbreak
  obtain ⟨front, batch, rest, place, rfl, rfl, hplace⟩ :=
    Batch.exists_split_of_lt (List.getElem?_eq_some_iff.1 hexit).1
  rw [Batch.take_records _ _ _ (Nat.le_of_lt hplace), followAll_append,
    Option.bind_eq_some_iff] at hfront
  obtain ⟨functions, hfunctions, hbatch⟩ := hfront
  obtain ⟨chunks, middle, hrun, hmiddle⟩ := exists_run [] hcarry hfunctions
  have hat : batch.records[place]? = some (.exit function) := by
    rw [List.flatMap_append, List.getElem?_append_right (by omega), Nat.add_sub_cancel_left,
      List.flatMap_cons, List.getElem?_append_left hplace] at hexit
    exact hexit
  refine ⟨front, batch, rest, place, function, chunks, middle, rfl, rfl, hplace, hexit, hrun, ?_⟩
  apply process_of_build_error
  rw [hmiddle]
  exact Index.build_eq_error (by rwa [List.reverse_reverse]) hat htop

theorem answers_of_break {position : Nat} {top : List UInt64} (hcarry : p.carry = [])
    (hfront : followAll [] ((batches.flatMap Batch.records).take position) = some top)
    (hbreak : followAll [] ((batches.flatMap Batch.records).take (position + 1)) = none) :
    ∃ front batch rest place function, ∃ (chunks : List Chunk),
      ∃ (later : List (Except CallStack.Error Chunk)), batches = front ++ batch :: rest ∧
      position = (front.flatMap Batch.records).length + place ∧ place < batch.records.length ∧
      (batches.flatMap Batch.records)[position]? = some (.exit function) ∧
      chunks.length = front.length ∧
      p.answers batches =
        chunks.map .ok ++ .error (.unbalanced place top.head? function) :: later := by
  obtain ⟨front, batch, rest, place, function, chunks, middle, rfl, hposition, hplace, hexit, hrun,
    herror⟩ := refused_of_break hcarry hfront hbreak
  refine ⟨front, batch, rest, place, function, chunks, middle.answers rest, rfl, hposition, hplace,
    hexit, hrun.length_eq, ?_⟩
  rw [hrun.answers_append]
  simp only [answers, herror]

end Processor

/-- However a trace is cut into batches, a store that takes them in tells the stacks of the plain
discipline of calls; a record that breaks the discipline is refused together with its batch. -/
theorem Store.stackAt_appendAll_feed (pages : PageConfig) (retainDetail rereads : Bool)
    (regions storeRegions : Region.Table) (hydratedLimit : Nat) (batches : List Batch) :
    let p := Processor.start pages retainDetail regions
    let storeOf := fun bs : List Batch =>
      (Store.start storeRegions rereads hydratedLimit).appendAll (p.feed bs).1
    let records := batches.flatMap Batch.records
    (∀ stack, followAll [] records = some stack →
      p.answers batches = (p.feed batches).1.map .ok ∧
      (∀ position < records.length, ∃ opened, openAt records position = some opened ∧
        (storeOf batches).stackAt position = some (opened.reverse.map Record.enter)) ∧
      (∀ position, records.length ≤ position → (storeOf batches).stackAt position = none) ∧
      (storeOf batches).openFrames = stack.reverse.map Record.enter ∧
      ∀ others : List Batch, others.flatMap Batch.records = records →
        (∀ position, (storeOf others).stackAt position = (storeOf batches).stackAt position) ∧
        (storeOf others).openFrames = (storeOf batches).openFrames) ∧
    ∀ position top, followAll [] (records.take position) = some top →
      followAll [] (records.take (position + 1)) = none →
      ∃ front batch rest place function, ∃ (chunks : List Chunk),
        ∃ (later : List (Except CallStack.Error Chunk)), batches = front ++ batch :: rest ∧
        position = (front.flatMap Batch.records).length + place ∧ place < batch.records.length ∧
        records[position]? = some (.exit function) ∧ chunks.length = front.length ∧
        p.answers batches =
          chunks.map .ok ++ .error (.unbalanced place top.head? function) :: later := by
  intro p storeOf records
  refine ⟨fun stack hstack => ?_, fun position top => Processor.answers_of_break rfl⟩
  have tells : ∀ bs : List Batch, bs.flatMap Batch.records = records →
      p.answers bs = (p.feed bs).1.map .ok ∧
      (∀ position < records.length, ∃ opened, openAt records position = some opened ∧
        (storeOf bs).stackAt position = some (opened.reverse.map Record.enter)) ∧
      (∀ position, records.length ≤ position → (storeOf bs).stackAt position = none) ∧
      (storeOf bs).openFrames = stack.reverse.map Record.enter := by
    intro bs hbs
    rw [← hbs] at hstack ⊢
    obtain ⟨chunks, last, hrun, hlast⟩ := Processor.exists_run (p := p) [] rfl hstack
    have hchunks : (storeOf bs).chunks.toList = chunks := by
      simp [storeOf, hrun.feed_eq, Store.start]
    refine ⟨?_, fun position => Store.stackAt_of_run hrun rfl rfl hchunks hstack,
      fun position => Store.stackAt_eq_none_of_run hrun rfl hchunks, ?_⟩
    · rw [hrun.feed_eq, hrun.answers_eq]
    · rw [Store.openFrames_of_run hrun rfl hchunks, hlast]
  obtain ⟨hanswers, hinside, hpast, hend⟩ := tells batches rfl
  refine ⟨hanswers, hinside, hpast, hend, fun others hothers => ?_⟩
  obtain ⟨-, hinside', hpast', hend'⟩ := tells others hothers
  refine ⟨fun position => ?_, by rw [hend, hend']⟩
  rcases Nat.lt_or_ge position records.length with hlt | hge
  · obtain ⟨opened, hopened, hanswer⟩ := hinside position hlt
    obtain ⟨opened', hopened', hanswer'⟩ := hinside' position hlt
    rw [hanswer, hanswer', Option.some.inj (hopened.symm.trans hopened')]
  · rw [hpast position hge, hpast' position hge]

/-- A frame that an empty batch does not close, and an exit that closes no frame. -/
theorem Store.stackAt_behind_empty_batch :
    ((Store.start .empty true 4).appendAll
        ((Processor.start {} false .empty).feed
          [⟨0, [.enter 7]⟩, ⟨9, []⟩, ⟨17, [.enter 8, .exit 8]⟩]).1).stackAt 1 =
      some [.enter 7, .enter 8] ∧
    ∃ (chunks : List Chunk) (later : List (Except CallStack.Error Chunk)),
      (Processor.start {} false .empty).answers [⟨0, []⟩, ⟨8, [.exit 7]⟩] =
        chunks.map .ok ++ .error (.unbalanced 0 none 7) :: later := by
  constructor
  · obtain ⟨opened, hopened, hstack⟩ := ((stackAt_appendAll_feed {} false true .empty .empty 4
      [⟨0, [.enter 7]⟩, ⟨9, []⟩, ⟨17, [.enter 8, .exit 8]⟩]).1 [7] (by decide)).2.1 1 (by decide)
    obtain rfl : [8, 7] = opened := Option.some.inj hopened
    exact hstack
  · obtain ⟨front, batch, rest, place, function, chunks, later, -, hposition, -, hexit, -, hanswers⟩ :=
      (stackAt_appendAll_feed {} false true .empty .empty 4
        [⟨0, []⟩, ⟨8, [.exit 7]⟩]).2 0 [] (by decide) (by decide)
    obtain rfl : place = 0 := by omega
    have hfunction : some (Record.exit 7) = some (.exit function) := hexit
    obtain rfl : 7 = function := by simpa using hfunction
    exact ⟨chunks, later, hanswers⟩

end AccessTrace
