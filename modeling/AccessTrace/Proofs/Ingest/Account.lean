import AccessTrace.Proofs.Ingest.Admission
import AccessTrace.Proofs.Ingest.Faults
import AccessTrace.Proofs.Ingest.Schedule

/-!
The account of a load of a sound trace over answers about memory that never end. At every moment it
is settled by the number of answers heard, and the load comes to its end after a number of them that
the answers and the number of blocks settle. Two workers and one thread give the same account.
-/

namespace AccessTrace.Pipeline

noncomputable def account (c : Config) (opened : TraceFile.Opened) (answers : Stream' Poll) :
    Ingest.Stats where
  blocks := opened.blocks.remaining.1.length
  compressedBytes := (opened.blocks.remaining.1.map fun raw => raw.payload.length).sum
  records := ((loop c opened).1.map Chunk.recordCount).sum
  unknownBudget := c.budget.failures answers opened.blocks.remaining.1.length
  cancelled := false

/-- The answers that a load of a whole trace hears: the last of them lets the reader through to the
end of the trace. -/
noncomputable def heardAll (c : Config) (opened : TraceFile.Opened) (answers : Stream' Poll) : Nat :=
  c.budget.admission answers opened.blocks.remaining.1.length + 1

/-- A state in which the reader has heard the first `n` answers. While it waits for no block, it has
read one for each answer that let it through; behind such an answer it hears no other until it has
read the next block or found the end. A wait in front of the end counts for nothing. -/
structure Accounted (c : Config) (opened : TraceFile.Opened) (answers : Stream' Poll) (n : Nat)
    (s : Pipeline) : Prop where
  unread : s.blocks.remaining.1 = opened.blocks.remaining.1.drop s.stats.blocks
  unknown : s.stats.unknownBudget = c.budget.failures answers s.stats.blocks
  between : s.reader.admitted = false → s.stats.blocks = c.budget.admissions answers n
  admitted : s.reader.admitted = true → n = c.budget.admission answers s.stats.blocks + 1
  reads : ∀ move t, s.step move = some t → t.stats.blocks ≠ s.stats.blocks →
    t.stats.blocks = s.stats.blocks + 1 ∧ n = c.budget.admission answers s.stats.blocks + 1
  blocks_le : s.stats.blocks ≤ opened.blocks.remaining.1.length
  heard_le : n ≤ heardAll c opened answers
  readerEnd : s.readerGone = true →
    s.stats.blocks = opened.blocks.remaining.1.length ∧ n = heardAll c opened answers
  loadEnd : s.readerGone = true → s.processorGone = true →
    s.result? = some (.ok (account c opened answers))

variable {c : Config} {opened : TraceFile.Opened} {rereads : Bool} {answers : Stream' Poll} {n : Nat}
  {done read : List Batch} {s t : Pipeline} {move : Move} {moves : List Move}

theorem Sound.down_of_clean (h : Sound c opened rereads done read s) (fault : RaisedByFault s)
    (clean : (loop c opened).2 = none) : s.raised = false := by
  refine Bool.eq_false_iff.2 fun hraised => ?_
  obtain ⟨e, hworker⟩ := fault hraised
  cases h.progress with
  | working holds accounted =>
    rcases hworker with hworker | hworker <;> rw [hworker] at holds <;> cases holds
  | failed worker raised refused within =>
    have hloop : loop c opened = _ := h.sequence_of_refused refused within
    simp [hloop] at clean
  | stopped worker | finished worker =>
    rcases hworker with hworker | hworker <;> simp [hworker] at worker

theorem Sound.unfaulted_of_clean (h : Sound c opened rereads done read s)
    (clean : (loop c opened).2 = none) : s.Unfaulted := by
  intro e reader
  have hfault := Ingest.fault_of_batches_of_sequence clean
  rw [h.batches, ahead, reader] at hfault
  contradiction

theorem Books.unread {heard : List Poll} {raws : List TraceFile.RawBlock}
    {passed : List Gate.Outcome} (h : Books c opened heard raws passed s) :
    s.blocks.remaining.1 = opened.blocks.remaining.1.drop s.stats.blocks := by
  rw [h.remaining, h.blocks, List.drop_left]

theorem Books.blocks_le {heard : List Poll} {raws : List TraceFile.RawBlock}
    {passed : List Gate.Outcome} (h : Books c opened heard raws passed s) :
    s.stats.blocks ≤ opened.blocks.remaining.1.length := by
  rw [h.remaining, h.blocks, List.length_append]
  exact Nat.le_add_right _ _

theorem Books.unknown_eq {raws : List TraceFile.RawBlock} {passed : List Gate.Outcome}
    (h : Books c opened (answers.take n) raws passed s) :
    s.stats.unknownBudget = c.budget.failures answers s.stats.blocks := by
  have hpassed := List.prefix_iff_eq_take.1 h.within
  have hblocks : passed.length = s.stats.blocks := h.length.trans h.blocks.symm
  have hle := h.within.length_le
  rw [hblocks, Ingest.length_outcomes_take] at hle
  rw [h.unknown, hpassed, hblocks, Ingest.count_unknown_outcomes_take hle]

theorem length_eq_countP_isStep_add (unraised : .raise ∉ moves) :
    moves.length = moves.countP Move.isStep + (moves.filterMap Move.answer?).length := by
  induction moves with
  | nil => rfl
  | cons move rest ih =>
    rw [List.mem_cons, not_or] at unraised
    have hrest := ih unraised.2
    cases move with
    | read | process =>
      rw [List.countP_cons_of_pos rfl, List.filterMap_cons_none rfl, List.length_cons]
      omega
    | poll answer =>
      have hheard : (Move.poll answer).answer? = some answer := rfl
      rw [List.countP_cons_of_neg (by simp [Move.isStep]), List.filterMap_cons_some hheard,
        List.length_cons, List.length_cons]
      omega
    | raise => exact absurd rfl unraised.1

/-- Where a worker can go on, one can with any answer that the reader may hear. -/
theorem exists_turn_hearing (capacity : 0 < s.capacity)
    (here : s.readerGone = false ∨ s.processorGone = false) (answer : Poll) :
    (∃ move t, move.isStep = true ∧ Turn s move t) ∨ ∃ t, Turn s (.poll answer) t := by
  obtain ⟨move, t, quiet, turn, -⟩ := exists_quiet_turn capacity here
  cases move with
  | read | process => exact .inl ⟨_, t, rfl, turn⟩
  | raise => contradiction
  | poll other =>
    have hwaits : s.reader = .atGate ∧ s.gate.cancelled = false := by
      cases turn with
      | wait reader waiting | pass reader waiting => exact ⟨reader, waiting⟩
    cases judged : s.gate.judge s.gate.budget.minSpareMb answer with
    | none => exact .inr ⟨_, .wait hwaits.1 hwaits.2 judged⟩
    | some outcome => exact .inr ⟨_, .pass hwaits.1 hwaits.2 judged⟩

/-- A run that hears the first `n` answers of a stream, in which no one but the workers raises the
flag. -/
structure Follows (c : Config) (opened : TraceFile.Opened) (rereads : Bool) (answers : Stream' Poll)
    (n : Nat) (moves : List Move) (s : Pipeline) : Prop where
  run : (start c opened rereads).run moves = some s
  unraised : .raise ∉ moves
  heard : moves.filterMap Move.answer? = answers.take n

namespace Follows

theorem quiet (h : Follows c opened rereads answers n moves s) (serves : c.budget.Serves answers) :
    ∀ move ∈ moves, move.quiet = true := by
  intro move hmove
  cases move with
  | read | process => rfl
  | raise => exact absurd hmove h.unraised
  | poll answer =>
    have hheard : answer ∈ answers.take n :=
      h.heard ▸ List.mem_filterMap.2 ⟨.poll answer, hmove, rfl⟩
    obtain ⟨k, hk, rfl⟩ := List.getElem_of_mem hheard
    simp [Move.quiet, serves.quiet k]

theorem exists_books (h : Follows c opened rereads answers n moves s)
    (clean : (loop c opened).2 = none) :
    ∃ raws passed, Books c opened (answers.take n) raws passed s := by
  obtain ⟨done, read, sound⟩ := (sound_start c opened rereads).run h.run
  have hbooks := (books_start c opened rereads).run h.run (sound.unfaulted_of_clean clean)
  rwa [List.nil_append, h.heard] at hbooks

/-- A run has a move for each answer, and at most one for each piece of the work. -/
theorem length_le (h : Follows c opened rereads answers n moves s) :
    moves.length ≤ (start c opened rereads).work + n := by
  have hwork := countP_isStep_add_work_le h.run
  rw [length_eq_countP_isStep_add h.unraised, h.heard, Stream'.length_take]
  omega

theorem snoc {n' : Nat} (h : Follows c opened rereads answers n moves s) (turn : Turn s move t)
    (hne : .raise ≠ move) (hheard : answers.take n ++ move.answer?.toList = answers.take n') :
    Follows c opened rereads answers n' (moves ++ [move]) t where
  run := by
    rw [run_append, h.run, Option.bind_some, run_cons, step_eq_some_iff.2 turn]
    rfl
  unraised := by simp [h.unraised, hne]
  heard := by
    rw [List.filterMap_append, h.heard, ← hheard]
    cases move <;> rfl

theorem exists_next (h : Follows c opened rereads answers n moves s) (positive : 0 < c.channelCapacity)
    (here : s.readerGone = false ∨ s.processorGone = false) :
    ∃ n move t, Follows c opened rereads answers n (moves ++ [move]) t := by
  have capacity : 0 < s.capacity := by rwa [capacity_of_run h.run]
  obtain ⟨move, t, hstep, turn⟩ | ⟨t, turn⟩ := exists_turn_hearing capacity here (answers.get n)
  · obtain ⟨hsilent, hne⟩ := Move.silent_of_isStep hstep
    exact ⟨n, move, t, h.snoc turn hne (by rw [hsilent, Option.toList_none, List.append_nil])⟩
  · exact ⟨n + 1, _, t, h.snoc turn (by simp) Stream'.concat_take_get⟩

end Follows

/-- One thread that goes on with some answers does what two workers can do with the first of
these. -/
theorem exists_follows_of_advance (c : Config) (opened : TraceFile.Opened) (rereads : Bool)
    (answers : Stream' Poll) (n : Nat) :
    let status := (Ingest.start c opened rereads).advance (answers.take n)
    ∃ k moves t, k ≤ n ∧ (∀ i, status = .waiting i → k = n) ∧ status.polls = k ∧
      Follows { c with channelCapacity := 1 } opened rereads answers k moves t ∧
      status.Reflected 1 t := by
  obtain ⟨heard, t, hheard, hall, hpolls, ⟨moves, hrun, unraised, rfl⟩, reflected⟩ :=
    Ingest.hears_start { c with channelCapacity := 1 } opened rereads Nat.one_pos (answers.take n)
  have hlength := hheard.length_le
  have hfirst := List.prefix_iff_eq_take.1 hheard
  rw [Stream'.length_take] at hlength
  rw [Stream'.take_take, Nat.min_eq_right hlength] at hfirst
  refine ⟨_, moves, t, hlength, fun i hi => ?_, hpolls, ⟨hrun, unraised, hfirst⟩, reflected⟩
  rw [hall i hi, Stream'.length_take]

section Clean

variable (clean : (loop c opened).2 = none) (serves : c.budget.Serves answers)
include clean serves

namespace Follows

variable (h : Follows c opened rereads answers n moves s)
include h

theorem down : s.raised = false := by
  obtain ⟨done, read, sound⟩ := (sound_start c opened rereads).run h.run
  exact sound.down_of_clean (raisedByFault_of_quiet (h.quiet serves) h.run) clean

theorem paced : Paced c.budget (answers.take n) s :=
  h.heard ▸ paced_of_run h.run (h.down clean serves)

theorem blocks_of_readerGone (gone : s.readerGone = true) :
    s.stats.blocks = opened.blocks.remaining.1.length := by
  obtain ⟨done, read, sound⟩ := (sound_start c opened rereads).run h.run
  obtain ⟨raws, passed, books⟩ := h.exists_books clean
  obtain ⟨outcome, reader⟩ := exists_ended_of_readerGone gone
  cases outcome with
  | error e => exact absurd reader (sound.unfaulted_of_clean clean e)
  | ok stopped =>
    obtain ⟨-, hend⟩ := (sound.stops stopped reader).resolve_left (by simp [h.down clean serves])
    rw [books.remaining, Ingest.remaining_of_batches_eq_nil hend, List.append_nil, books.blocks]

theorem result?_eq (reader : s.readerGone = true) (processor : s.processorGone = true) :
    s.result? = some (.ok (account c opened answers)) := by
  have complete : CompleteRun c opened rereads (answers.take n) moves s :=
    ⟨h.run, h.quiet serves, h.heard ▸ List.prefix_rfl, reader, processor⟩
  obtain hresult := complete.result?_eq.resolve_right fun ⟨f, e, overtaken, _⟩ => by
    simp [overtaken.refused] at clean
  have hheard := ((h.paced clean serves).heard_eq (admitted_of_readerGone reader)).2
  rw [h.blocks_of_readerGone clean serves reader] at hheard
  rw [hresult, loopResult, clean, figures, account,
    Ingest.count_unknown_outcomes_take (Nat.le_of_succ_le hheard.ge)]

theorem accounted : Accounted c opened answers n s := by
  obtain ⟨raws, passed, books⟩ := h.exists_books clean
  have paced := h.paced clean serves
  refine ⟨books.unread, books.unknown_eq, paced.blocks_eq, fun reader => (paced.heard_eq reader).1,
    fun move t hstep hblock => ?_, books.blocks_le, ?_, fun gone => ?_, h.result?_eq clean serves⟩
  · obtain ⟨reader, hmore⟩ := admitted_of_turn (step_eq_some_iff.1 hstep) hblock
    exact ⟨hmore, (paced.heard_eq reader).1⟩
  · cases reader : s.reader.admitted with
    | false =>
      have hblocks := books.blocks_le
      rw [paced.blocks_eq reader, serves.admissions_le_iff] at hblocks
      exact Nat.le_succ_of_le hblocks
    | true =>
      rw [(paced.heard_eq reader).1]
      exact Nat.succ_le_succ (serves.admission_mono books.blocks_le)
  · have hblocks := h.blocks_of_readerGone clean serves gone
    rw [heardAll, ← hblocks]
    exact ⟨rfl, (paced.heard_eq (admitted_of_readerGone gone)).1⟩

theorem exists_end (positive : 0 < c.channelCapacity) :
    ∃ more t, Follows c opened rereads answers (heardAll c opened answers) (moves ++ more) t ∧
      t.readerGone = true ∧ t.processorGone = true := by
  induction hleft : (start c opened rereads).work + heardAll c opened answers - moves.length
      using Nat.strongRecOn generalizing n moves s with
  | ind left ih =>
    have accounted := h.accounted clean serves
    by_cases here : s.readerGone = false ∨ s.processorGone = false
    · obtain ⟨n', move, u, next⟩ := h.exists_next positive here
      have hle := next.length_le
      have hheard := (next.accounted clean serves).heard_le
      rw [List.length_append, List.length_singleton] at hle
      have hless : (start c opened rereads).work + heardAll c opened answers -
          (moves ++ [move]).length < left := by
        rw [List.length_append, List.length_singleton]
        omega
      obtain ⟨more, t, ends⟩ := ih _ hless next rfl
      rw [List.append_assoc] at ends
      exact ⟨_, t, ends⟩
    · simp only [not_or, Bool.not_eq_false] at here
      obtain ⟨-, rfl⟩ := accounted.readerEnd here.1
      exact ⟨[], s, by rwa [List.append_nil], here⟩

end Follows

theorem advance_waiting {i : Ingest}
    (h : (Ingest.start c opened rereads).advance (answers.take n) = .waiting i) :
    n < heardAll c opened answers ∧ i.polls = n ∧
      i.stats.blocks = c.budget.admissions answers n := by
  obtain ⟨k, moves, t, -, hall, hpolls, follows, reflected⟩ :=
    exists_follows_of_advance c opened rereads answers n
  have accounted := Follows.accounted (c := { c with channelCapacity := 1 }) clean serves follows
  rw [h] at hpolls reflected
  obtain rfl := hall i h
  obtain rfl : t = i.atGate 1 := reflected
  have hblocks := accounted.between (by rw [Ingest.reader_atGate]; rfl)
  have hle := accounted.blocks_le
  rw [hblocks, serves.admissions_le_iff] at hle
  rw [Ingest.stats_atGate] at hblocks
  exact ⟨Nat.lt_succ_of_le hle, hpolls, hblocks⟩

theorem advance_ended {i : Ingest} {result : Except TraceError Ingest.Stats}
    (h : (Ingest.start c opened rereads).advance (answers.take n) = .ended i result) :
    heardAll c opened answers ≤ n ∧ i.polls = heardAll c opened answers ∧
      result = .ok (account c opened answers) := by
  obtain ⟨k, moves, t, hle, -, hpolls, follows, reflected⟩ :=
    exists_follows_of_advance c opened rereads answers n
  have accounted := Follows.accounted (c := { c with channelCapacity := 1 }) clean serves follows
  rw [h] at hpolls reflected
  obtain ⟨reader, processor, -, -, hresult⟩ := reflected
  obtain ⟨-, rfl⟩ := accounted.readerEnd reader
  refine ⟨hle, hpolls, ?_⟩
  rw [accounted.loadEnd reader processor] at hresult
  exact (Option.some.inj hresult).symm

end Clean

/-- A load of a trace without a fault, over answers that never end and do not touch the flag.
Whichever turns the workers take, they have read a block right behind each answer that let the
reader through, and they end with the figures of the trace behind the one for its end. They can
always come to this end, and do so at the latest when the work is done. One thread does the same. -/
theorem accounts_of_answers (c : Config) (opened : TraceFile.Opened) (rereads : Bool)
    {answers : Stream' Poll} (clean : (loop c opened).2 = none) (serves : c.budget.Serves answers) :
    (∀ n moves s, Follows c opened rereads answers n moves s →
      Accounted c opened answers n s ∧ moves.length ≤ (start c opened rereads).work + n ∧
      (c.validate = .ok () → ∃ more t,
        Follows c opened rereads answers (heardAll c opened answers) (moves ++ more) t ∧
          t.readerGone = true ∧ t.processorGone = true)) ∧
    ∀ n,
      let status := (Ingest.start c opened rereads).advance (answers.take n)
      (n < heardAll c opened answers → ∃ i, status = .waiting i ∧ i.polls = n ∧
        i.stats.blocks = c.budget.admissions answers n) ∧
      (heardAll c opened answers ≤ n → ∃ i, status = .ended i (.ok (account c opened answers)) ∧
        i.polls = heardAll c opened answers) := by
  refine ⟨fun n moves s follows => ?_, fun n => ?_⟩
  · refine ⟨follows.accounted clean serves, follows.length_le, fun valid => ?_⟩
    exact follows.exists_end clean serves (Config.channelCapacity_pos_of_validate valid)
  · intro status
    cases hstatus : status with
    | waiting i =>
      obtain ⟨hless, hpolls, hblocks⟩ := advance_waiting clean serves hstatus
      exact ⟨fun _ => ⟨i, rfl, hpolls, hblocks⟩, fun hle => absurd hless (Nat.not_lt.2 hle)⟩
    | ended i result =>
      obtain ⟨hle, hpolls, rfl⟩ := advance_ended clean serves hstatus
      exact ⟨fun hless => absurd hless (Nat.not_lt.2 hle), fun _ => ⟨i, rfl, hpolls⟩⟩

/-- The first block is read without knowing the memory, at the second answer, the next one behind
the fourth, and the end of the trace is found behind the sixth, which has failed again. -/
theorem accounts_of_failures_in_turn :
    let opened : TraceFile.Opened := ⟨0, .empty, ⟨9, TraceFile.encodeBlock Lz4.encode [.enter 7] ++
      TraceFile.encodeBlock Lz4.encode [.exit 7]⟩⟩
    let short : Poll := ⟨some ⟨0, 0, 0, 0⟩, false⟩
    let enough : Poll := ⟨some ⟨0, 1073741824, 0, 0⟩, false⟩
    let answers : Stream' Poll := fun n =>
      if n % 4 = 1 then ⟨none, false⟩ else if n % 4 = 3 then enough else short
    (loop {} opened).2 = none ∧ Budget.Serves {} answers ∧
      (∃ moves t, Follows {} opened true answers 6 moves t ∧
        t.result? = some (.ok ⟨2, 120, 2, 1, false⟩)) ∧
      (∃ i, (Ingest.start {} opened true).advance (answers.take 3) = .waiting i ∧
        i.stats.blocks = 1) ∧
      ∃ i, (Ingest.start {} opened true).advance (answers.take 9) =
        .ended i (.ok ⟨2, 120, 2, 1, false⟩) ∧ i.polls = 6 := by
  intro opened short enough answers
  have hloop : (loop {} opened).2 = none ∧
      ((loop {} opened).1.map Chunk.recordCount).sum = 2 := by decide +kernel +revert
  have hraws : opened.blocks.remaining.1.map (fun raw => raw.payload.length) = [60, 60] := by
    decide +kernel +revert
  have hcounts : Budget.admissions {} answers 1 = 0 ∧ Budget.admissions {} answers 3 = 1 ∧
      Budget.admissions {} answers 5 = 2 := by decide +kernel +revert
  have hadmits : Budget.Admits {} (answers.get 1) ∧ Budget.Admits {} (answers.get 3) ∧
      Budget.Admits {} (answers.get 5) := by decide +kernel +revert
  have hplaces : Budget.admission {} answers 0 = 1 ∧ Budget.admission {} answers 1 = 3 ∧
      Budget.admission {} answers 2 = 5 := by
    refine ⟨?_, ?_, ?_⟩
    · exact hcounts.1 ▸ Budget.admission_admissions hadmits.1
    · exact hcounts.2.1 ▸ Budget.admission_admissions hadmits.2.1
    · exact hcounts.2.2 ▸ Budget.admission_admissions hadmits.2.2
  have serves : Budget.Serves {} answers := by
    refine ⟨fun n => ?_, fun n => ⟨4 * n + 1, by omega, .inl ?_⟩⟩
    · show (if n % 4 = 1 then (⟨none, false⟩ : Poll)
        else if n % 4 = 3 then enough else short).2 = false
      split
      · rfl
      · split <;> rfl
    · show (if (4 * n + 1) % 4 = 1 then (⟨none, false⟩ : Poll)
        else if (4 * n + 1) % 4 = 3 then enough else short).1 = none
      rw [if_pos (by omega)]
  have hlength : opened.blocks.remaining.1.length = 2 := by simpa using congrArg List.length hraws
  have haccount : account {} opened answers = ⟨2, 120, 2, 1, false⟩ := by
    have hfailures : Budget.failures {} answers 2 = 1 := by
      rw [Budget.failures, show List.range 2 = [0, 1] from rfl]
      simp only [List.countP_cons, List.countP_nil, hplaces]
      rfl
    rw [account, hraws, hlength, hloop.2, hfailures]
    rfl
  obtain ⟨hruns, honce⟩ := accounts_of_answers {} opened true hloop.1 serves
  have hheard : heardAll {} opened answers = 6 := by rw [heardAll, hlength, hplaces.2.2]
  rw [hheard] at hruns honce
  have hnone : Follows {} opened true answers 0 [] (start {} opened true) := ⟨rfl, by simp, rfl⟩
  obtain ⟨more, t, follows, reader, processor⟩ := (hruns 0 [] _ hnone).2.2 (by decide)
  have hresult := (hruns _ _ t follows).1.loadEnd reader processor
  rw [haccount] at hresult
  obtain ⟨i, hwaiting, -, hblocks⟩ := (honce 3).1 (by decide)
  obtain ⟨j, hended, hpolls⟩ := (honce 9).2 (by decide)
  rw [hcounts.2.1] at hblocks
  rw [haccount] at hended
  exact ⟨hloop.1, serves, ⟨_, t, follows, hresult⟩, ⟨i, hwaiting, hblocks⟩, j, hended, hpolls⟩

end AccessTrace.Pipeline
