import AccessTrace.Chunk.Session
import AccessTrace.Proofs.CallStack.Index
import AccessTrace.Proofs.Chunk.Run

/-!
The chain of chunks that a processor makes of the batches it is offered. Each chunk goes on where
the one in front of it ended, and a batch that is refused leaves nothing behind.
-/

namespace AccessTrace

namespace Processor

variable {p q next last : Processor} {batch : Batch} {batches front rest : List Batch}
  {chunk : Chunk} {chunks : List Chunk} {e : CallStack.Error}

/-- In place or not, it is the same step, and a refused batch has changed nothing by then. -/
theorem run_offer (p : Processor) (batch : Batch) :
    (offer batch).run.run p =
      match p.process batch with
      | .error e => (.error e, p)
      | .ok (chunk, next) => (.ok chunk, next) := by
  have hrun : (offer batch).run.run p =
      ((liftExcept (CallStack.Index.build p.carry batch.records) :
          ExceptT CallStack.Error (StateM Processor) _) >>= fun built =>
        takeIn batch built.1 built.2).run.run p := rfl
  rw [hrun]
  cases hbuild : CallStack.Index.build p.carry batch.records with
  | error e =>
    rw [process_of_build_error hbuild]
    rfl
  | ok built =>
    simp only [process, hbuild, bind, Except.bind, pure, Except.pure]
    rfl

theorem run_offerAll (p : Processor) (batches : List Batch) :
    (offerAll batches).run p = (p.answers batches, (p.feed batches).2) := by
  induction batches generalizing p with
  | nil => rfl
  | cons batch rest ih =>
    have hcons : (offerAll (batch :: rest)).run p =
        let (answer, next) := (offer batch).run.run p
        let (answers, last) := (offerAll rest).run next
        (answer :: answers, last) := by
      rw [offerAll, List.mapM_cons]
      rfl
    rw [hcons, run_offer, answers, feed]
    cases hprocess : p.process batch with
    | error e => simp only [ih]
    | ok made => simp only [ih]

theorem answers_of_error (h : (p.feed front).2.process batch = .error e) (rest : List Batch) :
    p.answers (front ++ batch :: rest) =
        (p.answers (front ++ rest)).insertIdx front.length (.error e) ∧
      p.feed (front ++ batch :: rest) = p.feed (front ++ rest) := by
  induction front generalizing p with
  | nil =>
    simp only [feed] at h
    simp [answers, feed, h]
  | cons first front ih =>
    rw [feed] at h
    simp only [List.cons_append, answers, feed, List.length_cons]
    cases hprocess : p.process first with
    | error e' =>
      rw [hprocess] at h
      obtain ⟨hanswers, hfeed⟩ := ih h
      simp only [hanswers, hfeed, List.insertIdx_succ_cons, and_self]
    | ok made =>
      rw [hprocess] at h
      obtain ⟨hanswers, hfeed⟩ := ih h
      simp only [hanswers, hfeed, List.insertIdx_succ_cons, and_self]

theorem error_of_answers
    (h : (p.answers (front ++ batch :: rest))[front.length]? = some (.error e)) :
    (p.feed front).2.process batch = .error e := by
  induction front generalizing p with
  | nil =>
    simp only [List.nil_append, answers, feed, List.length_nil] at h ⊢
    cases hprocess : p.process batch with
    | error e' => simpa [hprocess] using h
    | ok made => simp [hprocess] at h
  | cons first front ih =>
    simp only [List.cons_append, answers, feed, List.length_cons] at h ⊢
    cases hprocess : p.process first with
    | error e' => exact ih (by simpa [hprocess] using h)
    | ok made => exact ih (by simpa [hprocess] using h)

theorem filterMap_answers (p : Processor) (batches : List Batch) :
    (p.answers batches).filterMap Except.toOption = (p.feed batches).1 := by
  induction batches generalizing p with
  | nil => rfl
  | cons batch rest ih =>
    rw [answers, feed]
    cases hprocess : p.process batch with
    | error e => exact ih p
    | ok made => simp [ih, Except.toOption]

theorem run_of_offerAll (p : Processor) (batches : List Batch) :
    p.Run (p.taken batches) (((offerAll batches).run p).1.filterMap Except.toOption)
      ((offerAll batches).run p).2 := by
  rw [run_offerAll, filterMap_answers]
  exact run_taken p batches

theorem error_of_process {functions : List UInt64} (hcarry : p.carry = functions.map Record.enter)
    (h : p.process batch = .error e) :
    ∃ place expected found, e = .unbalanced place expected found := by
  cases hbuild : CallStack.Index.build p.carry batch.records with
  | error e' =>
    rw [process_of_build_error hbuild, Except.error.injEq] at h
    rw [hcarry] at hbuild
    obtain ⟨place, now, found, -, -, -, he⟩ := CallStack.Index.error_of_build hbuild
    exact ⟨place, _, found, h.symm.trans he⟩
  | ok built =>
    obtain ⟨chunk, next, hprocess, -⟩ := exists_step hbuild
    simp [hprocess] at h

theorem carry_of_process (h : p.process batch = .ok (chunk, next)) :
    next.carry = chunk.carryOut :=
  congrArg Processor.carry (step_of_process h).behind

theorem entries_of_process (h : p.process batch = .ok (chunk, next)) :
    ∃ functions : List UInt64, chunk.carryOut = functions.map Record.enter :=
  CallStack.Index.entries_of_build (step_of_process h).built

theorem error_of_mem_answers {functions : List UInt64}
    (hcarry : p.carry = functions.map Record.enter) (h : .error e ∈ p.answers batches) :
    ∃ place expected found, e = .unbalanced place expected found := by
  induction batches generalizing p functions with
  | nil => simp [answers] at h
  | cons batch rest ih =>
    rw [answers] at h
    cases hprocess : p.process batch with
    | error e' =>
      rw [hprocess] at h
      rcases List.mem_cons.1 h with h | h
      · rw [Except.error.injEq] at h
        exact error_of_process hcarry (h ▸ hprocess)
      · exact ih hcarry h
    | ok made =>
      rw [hprocess] at h
      obtain ⟨out, hout⟩ := entries_of_process hprocess
      exact ih ((carry_of_process hprocess).trans hout) (List.mem_of_ne_of_mem (by simp) h)

namespace Run

theorem nextIndex (h : p.Run batches chunks last) :
    last.nextIndex = p.nextIndex + chunks.length := by
  induction h with
  | nil => rfl
  | cons head tail ih =>
    rw [ih, (step_of_process head).behind, List.length_cons]
    dsimp only
    omega

theorem exists_process {k : Nat} (h : p.Run batches chunks last) (hk : chunks[k]? = some chunk) :
    ∃ front batch middle next, p.Run front (chunks.take k) middle ∧
      middle.process batch = .ok (chunk, next) := by
  induction h generalizing k with
  | nil => contradiction
  | @cons p _ _ batch _ _ _ head tail ih =>
    cases k with
    | zero =>
      obtain rfl := Option.some.inj hk
      exact ⟨[], batch, p, _, .nil p, head⟩
    | succ k =>
      obtain ⟨front, last, middle, next, hfront, hprocess⟩ := ih hk
      exact ⟨batch :: front, last, middle, next, .cons head hfront, hprocess⟩

theorem entries_of_carry {functions : List UInt64} (h : p.Run batches chunks last)
    (hcarry : p.carry = functions.map Record.enter) :
    ∃ functions : List UInt64, last.carry = functions.map Record.enter := by
  induction h generalizing functions with
  | nil => exact ⟨functions, hcarry⟩
  | cons head tail ih =>
    obtain ⟨out, hout⟩ := entries_of_process head
    exact ih ((carry_of_process head).trans hout)

end Run

/-- The chain of chunks, whichever batches are refused on the way. -/
theorem chain_of_offerAll (pages : PageConfig) (retainDetail : Bool) (regions : Region.Table)
    (batches : List Batch) :
    let start := start pages retainDetail regions
    let answers := ((offerAll batches).run start).1
    let last := ((offerAll batches).run start).2
    let chunks := answers.filterMap Except.toOption
    (∀ k chunk, chunks[k]? = some chunk →
      chunk.index = k ∧
      chunk.firstRecord = ((chunks.take k).map Chunk.recordCount).sum ∧
      chunk.carryIn = ((chunks.take k).getLast?.map Chunk.carryOut).getD [] ∧
      (∃ functions : List UInt64, chunk.carryIn = functions.map Record.enter) ∧
      ∃ functions : List UInt64, chunk.carryOut = functions.map Record.enter) ∧
    last.carry = (chunks.getLast?.map Chunk.carryOut).getD [] ∧
    (∀ e, .error e ∈ answers → ∃ place expected found, e = .unbalanced place expected found) ∧
    ∀ front batch rest e, batches = front ++ batch :: rest →
      answers[front.length]? = some (.error e) →
        let before := ((offerAll front).run start).2
        let others := (offerAll (front ++ rest)).run start
        (offer batch).run.run before = (.error e, before) ∧
          answers = others.1.insertIdx front.length (.error e) ∧ last = others.2 := by
  intro start answers last chunks
  have hanswers : answers = start.answers batches := congrArg Prod.fst (run_offerAll start batches)
  have hlast : last = (start.feed batches).2 := congrArg Prod.snd (run_offerAll start batches)
  have hrun : start.Run (start.taken batches) chunks last := run_of_offerAll start batches
  have hcarry : start.carry = ([] : List UInt64).map Record.enter := rfl
  refine ⟨?_, hrun.carry, ?_, ?_⟩
  · intro k chunk hk
    obtain ⟨front, batch, middle, next, hfront, hprocess⟩ := hrun.exists_process hk
    have step := step_of_process hprocess
    have hlength : (chunks.take k).length = k := by
      rw [List.length_take]
      have := (List.getElem?_eq_some_iff.1 hk).1
      omega
    refine ⟨?_, ?_, ?_, ?_, entries_of_process hprocess⟩
    · rw [step.index, hfront.nextIndex, hlength]
      exact Nat.zero_add k
    · rw [step.firstRecord, hfront.nextRecord, hfront.sum_recordCount]
      exact Nat.zero_add _
    · rw [step.carryIn]
      exact hfront.carry
    · rw [step.carryIn]
      exact hfront.entries_of_carry hcarry
  · intro e he
    rw [hanswers] at he
    exact error_of_mem_answers hcarry he
  · rintro front batch rest e rfl he
    rw [hanswers] at he
    have hprocess := error_of_answers he
    obtain ⟨hothers, hfeed⟩ := answers_of_error hprocess rest
    simp only [run_offerAll, run_offer, hprocess, hanswers, hlast, hothers, hfeed, and_self]

/-- An exit out of place is refused between two batches, and the second chunk follows the first. -/
theorem chain_of_offerAll_refused :
    let start := start {} false .empty
    let refused : Batch := ⟨77, [.exit 2]⟩
    let answers := ((offerAll [⟨9, [.enter 1]⟩, refused, ⟨145, [.exit 1]⟩]).run start).1
    let before := ((offerAll [⟨9, [.enter 1]⟩]).run start).2
    let e := CallStack.Error.unbalanced 0 (some 1) 2
    answers[1]? = some (.error e) ∧ (offer refused).run.run before = (.error e, before) ∧
      ∃ chunk, (answers.filterMap Except.toOption)[1]? = some chunk ∧ chunk.index = 1 ∧
        chunk.firstRecord = 1 ∧ chunk.carryIn = [.enter 1] := by
  intro start refused answers before e
  obtain ⟨hchain, -, -, hrefused⟩ := chain_of_offerAll {} false .empty
    [⟨9, [.enter 1]⟩, refused, ⟨145, [.exit 1]⟩]
  have hanswer : answers[1]? = some (.error e) := by rfl
  have hsome : (answers.filterMap Except.toOption)[1]?.isSome := by decide +kernel
  obtain ⟨chunk, hchunk⟩ := Option.isSome_iff_exists.1 hsome
  obtain ⟨hindex, hrecord, hcarry, -, -⟩ := hchain 1 chunk hchunk
  exact ⟨hanswer, (hrefused [⟨9, [.enter 1]⟩] refused [⟨145, [.exit 1]⟩] e rfl hanswer).1,
    chunk, hchunk, hindex, hrecord, hcarry⟩

end Processor

end AccessTrace
