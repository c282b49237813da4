import AccessTrace.Proofs.Chunk.Run
import AccessTrace.Store

/-!
Where a position of the whole trace lies. In a store of consecutive chunks the binary search ends at
the chunk that holds the position, however many empty chunks start there as well.
-/

namespace AccessTrace

theorem Batch.exists_split_of_lt {batches : List Batch} {position : Nat}
    (h : position < (batches.flatMap Batch.records).length) :
    ∃ front batch rest place, batches = front ++ batch :: rest ∧
      position = (front.flatMap Batch.records).length + place ∧ place < batch.records.length := by
  induction batches generalizing position with
  | nil => simp at h
  | cons first rest ih =>
    rw [List.flatMap_cons, List.length_append] at h
    by_cases hfirst : position < first.records.length
    · exact ⟨[], first, rest, position, rfl, by simp, hfirst⟩
    · obtain ⟨front, batch, back, place, rfl, hposition, hplace⟩ :=
        @ih (position - first.records.length) (by omega)
      refine ⟨first :: front, batch, back, place, rfl, ?_, hplace⟩
      rw [List.flatMap_cons, List.length_append]
      omega

theorem Search.partitionPoint_of_append {α : Type} {p : α → Bool} {xs : Array α}
    {front rest : List α} (hxs : xs.toList = front ++ rest) (hfront : ∀ x ∈ front, p x = true)
    (hrest : ∀ x ∈ rest, p x = false) : partitionPoint p xs = front.length := by
  have hsize : xs.size = front.length + rest.length := by
    rw [← Array.length_toList, hxs, List.length_append]
  apply partitionPoint_eq (by omega)
  · intro i hi hlow
    apply hfront
    rw [← Array.getElem_toList, List.getElem_of_eq hxs, List.getElem_append_left hlow]
    exact List.getElem_mem _
  · intro i hi hhigh
    apply hrest
    rw [← Array.getElem_toList, List.getElem_of_eq hxs, List.getElem_append_right hhigh]
    exact List.getElem_mem _

namespace Store

def appendAll (s : Store) (chunks : List Chunk) : Store :=
  chunks.foldl append s

theorem appendAll_eq (s : Store) (chunks : List Chunk) :
    s.appendAll chunks = { s with chunks := s.chunks ++ chunks.toArray } := by
  induction chunks generalizing s with
  | nil => simp [appendAll]
  | cons c rest ih =>
    rw [appendAll, List.foldl_cons, ← appendAll, ih]
    simp [append]

@[simp] theorem toList_chunks_appendAll (s : Store) (chunks : List Chunk) :
    (s.appendAll chunks).chunks.toList = s.chunks.toList ++ chunks := by
  simp [appendAll_eq]

variable {s : Store} {front rest : List Chunk} {c : Chunk} {first place position : Nat}

theorem chunk?_eq (s : Store) (index : Nat) : s.chunk? index = s.chunks.toList[index]? :=
  Array.getElem?_toList.symm

theorem chunk?_length_of_split (hchunks : s.chunks.toList = front ++ c :: rest) :
    s.chunk? front.length = some c := by
  rw [chunk?_eq, hchunks]
  simp

theorem locate_of_split (hchunks : s.chunks.toList = front ++ c :: rest)
    (consecutive : Chunk.Consecutive first s.chunks.toList) (hplace : place < c.recordCount) :
    s.locate (c.firstRecord + place) = some (front.length, place) := by
  rw [hchunks] at consecutive
  obtain ⟨hfront, hrest⟩ := consecutive.split
  have hpoint : Search.partitionPoint
      (fun d : Chunk => decide (d.firstRecord ≤ c.firstRecord + place)) s.chunks =
        (front ++ [c]).length := by
    apply Search.partitionPoint_of_append (by rw [hchunks, List.append_assoc]; rfl)
    · intro d hd
      rw [decide_eq_true_eq]
      rcases List.mem_append.1 hd with hd | hd
      · have := hfront d hd
        omega
      · rw [List.mem_singleton.1 hd]
        omega
    · intro d hd
      have := hrest d hd
      rw [decide_eq_false_iff_not]
      omega
  have hcontains : c.contains (c.firstRecord + place) = true := by
    simp only [Chunk.contains, Bool.and_eq_true, decide_eq_true_eq]
    omega
  simp only [locate, hpoint, List.length_append, List.length_singleton, Nat.add_sub_cancel,
    chunk?_length_of_split hchunks, hcontains, if_true, Nat.add_sub_cancel_left]

/-- Whatever the search ends at, an answer is a place of the chunk that it names. -/
theorem eq_add_of_locate {index : Nat} (h : s.locate position = some (index, place)) :
    ∃ c, s.chunk? index = some c ∧ position = c.firstRecord + place ∧ place < c.recordCount := by
  simp only [locate] at h
  split at h
  · rename_i c hc
    split at h
    · rename_i hcontains
      simp only [Option.some.injEq, Prod.mk.injEq] at h
      simp only [Chunk.contains, Bool.and_eq_true, decide_eq_true_eq] at hcontains
      refine ⟨c, h.1 ▸ hc, ?_, ?_⟩ <;> omega
    · simp at h
  · simp at h

theorem totalRecords_eq (s : Store) :
    s.totalRecords = (s.chunks.toList.getLast?.map fun c => c.firstRecord + c.recordCount).getD 0 := by
  rw [totalRecords, ← Array.getLast?_toList]
  cases s.chunks.toList.getLast? <;> rfl

theorem openFrames_eq (s : Store) :
    s.openFrames = (s.chunks.toList.getLast?.map Chunk.carryOut).getD [] := by
  rw [openFrames, ← Array.getLast?_toList]
  cases s.chunks.toList.getLast? <;> rfl

theorem le_totalRecords (consecutive : Chunk.Consecutive first s.chunks.toList) :
    ∀ c ∈ s.chunks.toList, c.firstRecord + c.recordCount ≤ s.totalRecords := by
  intro c hc
  rw [totalRecords_eq]
  obtain ⟨front, last, hlast⟩ : ∃ front last, s.chunks.toList = front ++ [last] :=
    ⟨_, _, (List.dropLast_concat_getLast (List.ne_nil_of_mem hc)).symm⟩
  rw [hlast] at hc consecutive ⊢
  rw [List.getLast?_concat]
  rcases List.mem_append.1 hc with hc | hc
  · exact Nat.le_trans (consecutive.split.1 c hc) (Nat.le_add_right _ _)
  · rw [List.mem_singleton.1 hc]
    exact Nat.le_refl _

theorem locate_eq_none (consecutive : Chunk.Consecutive first s.chunks.toList)
    (h : s.totalRecords ≤ position) : s.locate position = none := by
  cases hlocate : s.locate position with
  | none => rfl
  | some answer =>
    obtain ⟨index, place⟩ := answer
    obtain ⟨c, hc, hposition, hplace⟩ := eq_add_of_locate hlocate
    rw [chunk?_eq] at hc
    have := le_totalRecords consecutive c (List.mem_of_getElem? hc)
    omega

section Run

variable {p last : Processor} {batches front rest : List Batch} {batch : Batch}
  {chunks : List Chunk}

theorem chunk_of_run (hrun : p.Run (front ++ batch :: rest) chunks last)
    (hrecord : p.nextRecord = 0) (hchunks : s.chunks.toList = chunks) :
    ∃ chunks₁ chunk middle next, p.Run front chunks₁ middle ∧
      middle.process batch = .ok (chunk, next) ∧ s.chunk? front.length = some chunk ∧
      ∀ place < batch.records.length,
        s.locate ((front.flatMap Batch.records).length + place) = some (front.length, place) := by
  obtain ⟨chunks₁, chunk, chunks₂, middle, next, rfl, hfront, hprocess, -⟩ := hrun.split
  have hstep := Processor.step_of_process hprocess
  have hfirst : chunk.firstRecord = (front.flatMap Batch.records).length := by
    rw [hstep.firstRecord, hfront.nextRecord, hrecord, Nat.zero_add]
  have hconsecutive : Chunk.Consecutive p.nextRecord s.chunks.toList :=
    hchunks ▸ Chunk.consecutive_of_run hrun
  rw [← hfront.length_eq]
  refine ⟨chunks₁, chunk, middle, next, hfront, hprocess, chunk?_length_of_split hchunks, ?_⟩
  intro place hplace
  rw [← hfirst]
  exact locate_of_split hchunks hconsecutive (by rwa [hstep.recordCount])

theorem totalRecords_of_run (hrun : p.Run batches chunks last) (hrecord : p.nextRecord = 0)
    (hchunks : s.chunks.toList = chunks) : s.totalRecords = last.nextRecord := by
  rw [hrun.nextRecord_eq, totalRecords_eq, hchunks, hrecord]

theorem totalRecords_eq_length (hrun : p.Run batches chunks last) (hrecord : p.nextRecord = 0)
    (hchunks : s.chunks.toList = chunks) :
    s.totalRecords = (batches.flatMap Batch.records).length := by
  rw [totalRecords_of_run hrun hrecord hchunks, hrun.nextRecord, hrecord, Nat.zero_add]

theorem locate_eq_none_of_run (hrun : p.Run batches chunks last)
    (hchunks : s.chunks.toList = chunks) {position : Nat} (h : s.totalRecords ≤ position) :
    s.locate position = none := by
  have hconsecutive : Chunk.Consecutive p.nextRecord s.chunks.toList :=
    hchunks ▸ Chunk.consecutive_of_run hrun
  exact locate_eq_none hconsecutive h

end Run

end Store

end AccessTrace
