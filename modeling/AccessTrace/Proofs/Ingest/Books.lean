import AccessTrace.Proofs.Ingest.Ending

/-!
The figures of a load, accounted for. The reader counts the blocks that it has read and their bytes;
of the waits that let it through, it counts those in front of a block that ended without knowing the
state of memory. So the figures in the end tell of the trace and the answers, not of the turns
taken.
-/

namespace AccessTrace

namespace Ingest

def outcomes (budget : Budget) (heard : List Poll) : List Gate.Outcome :=
  heard.filterMap ({ budget, listens := true, raised := false : Gate }.judge budget.minSpareMb)

theorem outcomes_append (budget : Budget) (heard later : List Poll) :
    outcomes budget (heard ++ later) = outcomes budget heard ++ outcomes budget later :=
  List.filterMap_append

theorem outcomes_singleton {g : Gate} (answer : Poll) :
    outcomes g.budget [answer] = (g.judge g.budget.minSpareMb answer).toList := by
  have hjudge : g.judge g.budget.minSpareMb answer =
      Gate.judge ⟨g.budget, true, false⟩ g.budget.minSpareMb answer := rfl
  rw [hjudge, outcomes, List.filterMap_cons, List.filterMap_nil]
  cases Gate.judge ⟨g.budget, true, false⟩ g.budget.minSpareMb answer <;> rfl

theorem remaining_of_batches_eq_nil {blocks : TraceFile.Blocks} (h : batches blocks = ([], none)) :
    blocks.remaining = ([], none) := by
  match hnext : blocks.next with
  | (.error e, rest) => simp [batches_of_error hnext] at h
  | (.ok none, rest) => exact TraceFile.Blocks.remaining_of_none hnext
  | (.ok (some raw), rest) =>
    rw [batches_of_some hnext] at h
    split at h <;> simp at h

end Ingest

namespace Pipeline

def ReaderPhase.outcome : ReaderPhase → List Gate.Outcome
  | .atBlock outcome => [outcome]
  | _ => []

/-- The books of a reader that has met no fault: it has read `raws`, and `passed` are the waits in
front of these. -/
structure Books (c : Config) (opened : TraceFile.Opened) (heard : List Poll)
    (raws : List TraceFile.RawBlock) (passed : List Gate.Outcome) (s : Pipeline) : Prop where
  budget : s.gate.budget = c.budget
  remaining : opened.blocks.remaining.1 = raws ++ s.blocks.remaining.1
  blocks : s.stats.blocks = raws.length
  bytes : s.stats.compressedBytes = (raws.map fun raw => raw.payload.length).sum
  unknown : s.stats.unknownBudget = passed.count .unknown
  length : passed.length = raws.length
  within : passed <+: Ingest.outcomes c.budget heard
  waits : s.readerGone = false → Ingest.outcomes c.budget heard = passed ++ s.reader.outcome

def Unfaulted (s : Pipeline) : Prop :=
  ∀ e, s.reader ≠ .ended (.error e)

variable {c : Config} {opened : TraceFile.Opened} {rereads : Bool} {heard : List Poll}
  {raws : List TraceFile.RawBlock} {passed : List Gate.Outcome} {s t : Pipeline} {move : Move}
  {moves : List Move}

theorem books_start (c : Config) (opened : TraceFile.Opened) (rereads : Bool) :
    Books c opened [] [] [] (start c opened rereads) where
  budget := rfl
  remaining := rfl
  blocks := rfl
  bytes := rfl
  unknown := rfl
  length := rfl
  within := List.nil_prefix
  waits := fun _ => rfl

theorem Books.goOn (h : Books c opened heard raws passed s) {reader : ReaderPhase} {queue : List Batch}
    (here : s.readerGone = false) (waits : reader.outcome = s.reader.outcome) :
    Books c opened heard raws passed { s with queue, reader } :=
  { h with waits := fun _ => by rw [h.waits here, waits] }

theorem Books.stop (h : Books c opened heard raws passed s) {outcome : Except TraceError Bool} :
    Books c opened heard raws passed { s with reader := .ended outcome } :=
  { h with waits := nofun }

theorem Books.silent (h : Books c opened heard raws passed t) (silent : move.answer? = none) :
    Books c opened (heard ++ move.answer?.toList) raws passed t := by
  rwa [silent, Option.toList_none, List.append_nil]

theorem Books.hear (h : Books c opened heard raws passed s) {answer : Poll} {reader : ReaderPhase}
    (atGate : s.reader = .atGate)
    (judged : (s.gate.judge s.gate.budget.minSpareMb answer).toList = reader.outcome) :
    Books c opened (heard ++ [answer]) raws passed { s with gate := s.gate.hear answer, reader } := by
  have hheard : Ingest.outcomes c.budget (heard ++ [answer]) = passed ++ reader.outcome := by
    have hwaits := h.waits (by simp [readerGone, atGate])
    rw [atGate] at hwaits
    rw [Ingest.outcomes_append, hwaits, ← h.budget, Ingest.outcomes_singleton, judged]
    exact congrArg (· ++ reader.outcome) (List.append_nil passed)
  exact { h with within := ⟨_, hheard.symm⟩, waits := fun _ => hheard }

theorem Books.block (h : Books c opened heard raws passed s) {outcome : Gate.Outcome}
    {raw : TraceFile.RawBlock} {blocks : TraceFile.Blocks} {batch : Batch}
    (reader : s.reader = .atBlock outcome) (next : s.blocks.next = (.ok (some raw), blocks)) :
    Books c opened heard (raws ++ [raw]) (passed ++ [outcome])
      { s with
        blocks, stats := (s.stats.addWait outcome).addBlock raw.payload
        reader := .sending batch } := by
  have hwaits := h.waits (by simp [readerGone, reader])
  rw [reader, ReaderPhase.outcome] at hwaits
  refine ⟨h.budget, ?_, ?_, ?_, ?_, ?_, ?_, ?_⟩
  · rw [h.remaining, TraceFile.Blocks.remaining_of_some next, List.append_assoc]
    rfl
  · simp [Ingest.Stats.addBlock, blocks_addWait, h.blocks]
  · have hbytes : (s.stats.addWait outcome).compressedBytes = s.stats.compressedBytes := by
      unfold Ingest.Stats.addWait
      split <;> rfl
    simp [Ingest.Stats.addBlock, hbytes, h.bytes]
  · simp only [Ingest.Stats.addBlock, Ingest.Stats.addWait, List.count_append, ← h.unknown]
    split <;> simp [*]
  · simp [h.length]
  · exact hwaits ▸ List.prefix_rfl
  · exact fun _ => hwaits.trans (List.append_nil _).symm

theorem Books.step (h : Books c opened heard raws passed s) (turn : Turn s move t)
    (unfaulted : t.Unfaulted) :
    ∃ raws passed, Books c opened (heard ++ move.answer?.toList) raws passed t := by
  cases turn with
  | wait reader waiting refused =>
    exact ⟨raws, passed, h.hear reader (by rw [refused]; rfl)⟩
  | pass reader waiting granted =>
    exact ⟨raws, passed, h.hear reader (by rw [granted]; rfl)⟩
  | badBlock | badPayload => exact absurd rfl (unfaulted _)
  | block reader next decoded => exact ⟨_, _, (h.block reader next).silent rfl⟩
  | noBlock reader next =>
    obtain ⟨-, rfl⟩ := TraceFile.Blocks.next_eq_none_iff.1 next
    exact ⟨raws, passed, h.stop.silent rfl⟩
  | goToGate reader | send reader =>
    exact ⟨raws, passed, (h.goOn (by simp [readerGone, reader]) (by rw [reader]; rfl)).silent rfl⟩
  | giveUp | cancel | sendToNobody => exact ⟨raws, passed, h.stop.silent rfl⟩
  | receive | runDry | drop | check | refuse | accept | publish | fail | leave | raise =>
    exact ⟨raws, passed, Books.silent { h with } rfl⟩

theorem reader_of_turn {e : TraceError} (turn : Turn s move t) (h : s.reader = .ended (.error e)) :
    t.reader = .ended (.error e) := by
  cases turn <;> simp_all [raiseFlag]

theorem Books.run (h : Books c opened heard raws passed s) (hrun : s.run moves = some t)
    (unfaulted : t.Unfaulted) :
    ∃ raws passed, Books c opened (heard ++ moves.filterMap Move.answer?) raws passed t := by
  refine keeps_of_hearing_run (P := fun heard u => u.Unfaulted → ∃ raws passed,
    Books c opened heard raws passed u) (fun turn books unfaulted => ?_) heard hrun
    (fun _ => ⟨raws, passed, h⟩) unfaulted
  obtain ⟨raws, passed, h⟩ := books fun e hreader => unfaulted e (reader_of_turn turn hreader)
  exact h.step turn unfaulted

def figures (raws : List TraceFile.RawBlock) (records : Nat) (outcomes : List Gate.Outcome) :
    Ingest.Stats where
  blocks := raws.length
  compressedBytes := (raws.map fun raw => raw.payload.length).sum
  records
  unknownBudget := (outcomes.take raws.length).count .unknown
  cancelled := false

theorem result?_of_clean {answers : List Poll} (hrun : (start c opened rereads).run moves = some s)
    (hheard : moves.filterMap Move.answer? <+: answers) (reader : s.reader = .ended (.ok false))
    (worker : s.worker = .ended (.ok ())) (down : s.raised = false) :
    s.result? = some (.ok (figures opened.blocks.remaining.1 s.store.totalRecords
      (Ingest.outcomes c.budget answers))) := by
  obtain ⟨done, read, sound⟩ := (sound_start c opened rereads).run hrun
  obtain ⟨raws, passed, books⟩ :=
    (books_start c opened rereads).run hrun (by simp [Unfaulted, reader])
  rw [List.nil_append] at books
  obtain ⟨-, hend⟩ := (sound.stops false reader).resolve_left (by simp [down])
  have hraws : opened.blocks.remaining.1 = raws := by
    rw [books.remaining, Ingest.remaining_of_batches_eq_nil hend, List.append_nil]
  have hpassed : passed = (Ingest.outcomes c.budget answers).take raws.length := by
    rw [← books.length]
    exact List.prefix_iff_eq_take.1 (books.within.trans (hheard.filterMap _))
  rw [result?, reader, worker, hraws, figures, ← hpassed, ← books.blocks, ← books.bytes,
    ← books.unknown, ← sound.records_eq, down]
  rfl

end Pipeline

end AccessTrace
