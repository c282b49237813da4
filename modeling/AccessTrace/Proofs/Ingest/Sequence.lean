import AccessTrace.Ingest
import AccessTrace.Proofs.Chunk.Run

/-!
The batches of a trace, without a processor. The loop that makes chunks takes them in one after
another; it ends at the first that the processor refuses, and otherwise where they end.
-/

namespace AccessTrace.Ingest

def batches (blocks : TraceFile.Blocks) : List Batch × Option TraceError :=
  match h : blocks.next with
  | (.error e, _) => ([], some (.file e))
  | (.ok none, _) => ([], none)
  | (.ok (some raw), rest) =>
    have := TraceFile.Blocks.length_lt_of_next h
    match batchOf raw with
    | .error e => ([], some e)
    | .ok batch => (batch :: (batches rest).1, (batches rest).2)
termination_by blocks.rest.length

variable {blocks rest : TraceFile.Blocks} {raw : TraceFile.RawBlock} {batch : Batch}
  {p last : Processor} {chunks : List Chunk} {front behind : List Batch}

theorem batches_of_error {e : TraceFile.Error} (h : blocks.next = (.error e, rest)) :
    batches blocks = ([], some (.file e)) := by
  rw [batches]
  split <;> simp_all

theorem batches_of_none (h : blocks.next = (.ok none, rest)) : batches blocks = ([], none) := by
  rw [batches]
  split <;> simp_all

theorem batches_of_some (h : blocks.next = (.ok (some raw), rest)) :
    batches blocks =
      match batchOf raw with
      | .error e => ([], some e)
      | .ok batch => (batch :: (batches rest).1, (batches rest).2) := by
  rw [batches]
  split <;> simp_all

theorem sequence_of_some (h : blocks.next = (.ok (some raw), rest)) :
    sequence p blocks =
      match batchOf raw with
      | .error e => ([], some e)
      | .ok batch =>
        match p.process batch with
        | .error e => ([], some (.stack e))
        | .ok (chunk, p) => (chunk :: (sequence p rest).1, (sequence p rest).2) := by
  rw [sequence]
  split
  · simp_all
  · simp_all
  · rename_i hnext
    rw [h, Prod.mk.injEq, Except.ok.injEq, Option.some.injEq] at hnext
    obtain ⟨rfl, rfl⟩ := hnext
    rfl

theorem next_of_batches_eq_cons (h : (batches blocks).1 = batch :: behind) :
    ∃ raw rest, blocks.next = (.ok (some raw), rest) ∧ batchOf raw = .ok batch ∧
      batches rest = (behind, (batches blocks).2) := by
  match hnext : blocks.next with
  | (.error e, rest) => simp [batches_of_error hnext] at h
  | (.ok none, rest) => simp [batches_of_none hnext] at h
  | (.ok (some raw), rest) =>
    rw [batches_of_some hnext] at h ⊢
    cases hbatch : batchOf raw with
    | error e => simp [hbatch] at h
    | ok first =>
      simp only [hbatch, List.cons.injEq] at h
      exact ⟨raw, rest, rfl, by rw [hbatch, h.1], Prod.ext h.2 rfl⟩

theorem sequence_of_batches_eq_nil (h : (batches blocks).1 = []) :
    sequence p blocks = ([], (batches blocks).2) := by
  match hnext : blocks.next with
  | (.error e, rest) => rw [batches_of_error hnext, sequence]; split <;> simp_all
  | (.ok none, rest) => rw [batches_of_none hnext, sequence]; split <;> simp_all
  | (.ok (some raw), rest) =>
    rw [batches_of_some hnext] at h ⊢
    rw [sequence_of_some hnext]
    cases hbatch : batchOf raw with
    | error e => rfl
    | ok first => simp [hbatch] at h

theorem sequence_of_unreadable {e : TraceFile.Error} (h : blocks.next.1 = .error e) :
    sequence p blocks = ([], some (.file e)) := by
  have hbatches := batches_of_error (Prod.ext h rfl : blocks.next = (.error e, blocks.next.2))
  rw [sequence_of_batches_eq_nil (by rw [hbatches]), hbatches]

theorem sequence_of_end (h : blocks.next.1 = .ok none) : sequence p blocks = ([], none) := by
  have hbatches := batches_of_none (Prod.ext h rfl : blocks.next = (.ok none, blocks.next.2))
  rw [sequence_of_batches_eq_nil (by rw [hbatches]), hbatches]

theorem exists_of_sequence (hnext : blocks.next = (.ok (some raw), rest))
    (h : sequence p blocks = (chunks, none)) :
    ∃ batch chunk q tail, batchOf raw = .ok batch ∧ p.process batch = .ok (chunk, q) ∧
      chunks = chunk :: tail ∧ sequence q rest = (tail, none) := by
  rw [sequence_of_some hnext] at h
  cases hbatch : batchOf raw with
  | error e => simp [hbatch] at h
  | ok batch =>
    simp only [hbatch] at h
    cases hprocess : p.process batch with
    | error e => simp [hprocess] at h
    | ok made =>
      obtain ⟨chunk, q⟩ := made
      simp only [hprocess, Prod.mk.injEq] at h
      exact ⟨batch, chunk, q, _, rfl, hprocess, h.1.symm, Prod.ext rfl h.2⟩

theorem fault_of_batches_of_sequence (h : (sequence p blocks).2 = none) :
    (batches blocks).2 = none := by
  induction hlength : blocks.rest.length using Nat.strongRecOn generalizing p blocks with
  | ind length ih =>
    match hnext : blocks.next with
    | (.error e, rest) => simp [sequence_of_unreadable (by rw [hnext])] at h
    | (.ok none, rest) => rw [batches_of_none hnext]
    | (.ok (some raw), rest) =>
      obtain ⟨batch, chunk, q, tail, hbatch, -, -, hrest⟩ := exists_of_sequence hnext (Prod.ext rfl h)
      rw [batches_of_some hnext, hbatch]
      exact ih _ (hlength ▸ TraceFile.Blocks.length_lt_of_next hnext) (by rw [hrest]) rfl

theorem sequence_of_run (hrun : p.Run front chunks last)
    (h : (batches blocks).1 = front ++ behind) :
    ∃ rest, batches rest = (behind, (batches blocks).2) ∧
      sequence p blocks = (chunks ++ (sequence last rest).1, (sequence last rest).2) := by
  induction hrun generalizing blocks with
  | nil => exact ⟨blocks, Prod.ext h rfl, rfl⟩
  | cons head tail ih =>
    obtain ⟨raw, next, hnext, hbatch, hbehind⟩ := next_of_batches_eq_cons h
    obtain ⟨rest, hrest, htail⟩ := ih (congrArg Prod.fst hbehind)
    refine ⟨rest, by rw [hrest, hbehind], ?_⟩
    rw [sequence_of_some hnext, hbatch]
    simp only [head, htail, List.cons_append]

theorem sequence_eq_of_run (hrun : p.Run (batches blocks).1 chunks last) :
    sequence p blocks = (chunks, (batches blocks).2) := by
  obtain ⟨rest, hrest, hsequence⟩ := sequence_of_run hrun (List.append_nil _).symm
  rw [hsequence, sequence_of_batches_eq_nil (by rw [hrest]), hrest, List.append_nil]

theorem sequence_eq_of_refused {e : CallStack.Error} (hrun : p.Run front chunks last)
    (h : (batches blocks).1 = front ++ batch :: behind) (hrefused : last.process batch = .error e) :
    sequence p blocks = (chunks, some (.stack e)) := by
  obtain ⟨rest, hrest, hsequence⟩ := sequence_of_run hrun h
  obtain ⟨raw, next, hnext, hbatch, -⟩ := next_of_batches_eq_cons (congrArg Prod.fst hrest)
  rw [hsequence, sequence_of_some hnext, hbatch]
  simp only [hrefused, List.append_nil]

end AccessTrace.Ingest
