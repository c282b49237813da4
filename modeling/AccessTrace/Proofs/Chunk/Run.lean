import Mathlib.Algebra.GroupWithZero.Nat
import AccessTrace.Chunk.Processor

/-!
Runs of a processor: batches that it takes in one after another, the chunks it makes of them, and
the processor behind the last. The chunks of a run follow on one another without a gap.
-/

namespace AccessTrace.Processor

structure Step (p : Processor) (batch : Batch) (chunk : Chunk) (next : Processor) : Prop where
  built : CallStack.Index.build p.carry batch.records = .ok (chunk.callStack, chunk.carryOut)
  index : chunk.index = p.nextIndex
  firstRecord : chunk.firstRecord = p.nextRecord
  recordCount : chunk.recordCount = batch.records.length
  fileOffset : chunk.fileOffset = batch.fileOffset
  carryIn : chunk.carryIn = p.carry
  pages : chunk.pages = PageActivity.ofRecords batch.records p.pages p.recentActive
  touchedRegions : chunk.touchedRegions = AccessTrace.touchedRegions p.regions batch.records
  counts : chunk.counts = Counts.ofRecords p.regions batch.records
  detail : chunk.detail = if p.retainDetail then some batch.records else none
  behind : next =
    { p with
      carry := chunk.carryOut
      recentActive := slide p.pages.lookback p.recentActive chunk.pages.active
      nextIndex := p.nextIndex + 1
      nextRecord := p.nextRecord + batch.records.length }

variable {p next last : Processor} {batch : Batch} {chunk : Chunk}

theorem process_of_build_error {e : CallStack.Error}
    (h : CallStack.Index.build p.carry batch.records = .error e) : p.process batch = .error e := by
  simp only [process, h, bind, Except.bind]

theorem exists_step {index : CallStack.Index} {out : List Record}
    (h : CallStack.Index.build p.carry batch.records = .ok (index, out)) :
    ∃ chunk next, p.process batch = .ok (chunk, next) ∧ Step p batch chunk next ∧
      chunk.callStack = index ∧ chunk.carryOut = out := by
  simp only [process, h, bind, Except.bind, pure, Except.pure, Except.ok.injEq, Prod.mk.injEq]
  exact ⟨_, _, ⟨rfl, rfl⟩, ⟨h, rfl, rfl, rfl, rfl, rfl, rfl, rfl, rfl, rfl, rfl⟩, rfl, rfl⟩

theorem step_of_process (h : p.process batch = .ok (chunk, next)) : Step p batch chunk next := by
  cases hbuild : CallStack.Index.build p.carry batch.records with
  | error e => simp [process_of_build_error hbuild] at h
  | ok built =>
    obtain ⟨chunk', next', hprocess, hstep, -⟩ := exists_step hbuild
    rw [hprocess, Except.ok.injEq, Prod.mk.injEq] at h
    obtain ⟨rfl, rfl⟩ := h
    exact hstep

inductive Run : Processor → List Batch → List Chunk → Processor → Prop
  | nil (p : Processor) : Run p [] [] p
  | cons {p next last : Processor} {batch : Batch} {chunk : Chunk} {batches : List Batch}
      {chunks : List Chunk} (head : p.process batch = .ok (chunk, next))
      (tail : Run next batches chunks last) : Run p (batch :: batches) (chunk :: chunks) last

namespace Run

variable {batches front rest : List Batch} {chunks : List Chunk}

theorem append {middle : Processor} {chunks₁ chunks₂ : List Chunk}
    (h₁ : Run p front chunks₁ middle) (h₂ : Run middle rest chunks₂ last) :
    Run p (front ++ rest) (chunks₁ ++ chunks₂) last := by
  induction h₁ with
  | nil => exact h₂
  | cons head tail ih => exact .cons head (ih h₂)

theorem snoc (h : Run p batches chunks last) (hprocess : last.process batch = .ok (chunk, next)) :
    Run p (batches ++ [batch]) (chunks ++ [chunk]) next :=
  h.append (.cons hprocess (.nil next))

theorem split (h : Run p (front ++ batch :: rest) chunks last) :
    ∃ chunks₁ chunk chunks₂ middle next, chunks = chunks₁ ++ chunk :: chunks₂ ∧
      Run p front chunks₁ middle ∧ middle.process batch = .ok (chunk, next) ∧
      Run next rest chunks₂ last := by
  induction front generalizing p chunks with
  | nil =>
    cases h with
    | cons head tail => exact ⟨[], _, _, _, _, rfl, .nil p, head, tail⟩
  | cons first front ih =>
    cases h with
    | cons head tail =>
      obtain ⟨chunks₁, chunk, chunks₂, middle, next, rfl, hfront, hprocess, hrest⟩ := ih tail
      exact ⟨_ :: chunks₁, chunk, chunks₂, middle, next, rfl, .cons head hfront, hprocess, hrest⟩

theorem length_eq (h : Run p batches chunks last) : chunks.length = batches.length := by
  induction h with
  | nil => rfl
  | cons head tail ih => simp [ih]

theorem map_index (h : Run p batches chunks last) :
    chunks.map Chunk.index = List.range' p.nextIndex chunks.length := by
  induction h with
  | nil => rfl
  | cons head tail ih =>
    have step := step_of_process head
    rw [List.map_cons, List.length_cons, List.range'_succ, ih, step.index, step.behind]

theorem nextRecord (h : Run p batches chunks last) :
    last.nextRecord = p.nextRecord + (batches.flatMap Batch.records).length := by
  induction h with
  | nil => simp
  | cons head tail ih =>
    rw [ih, (step_of_process head).behind, List.flatMap_cons, List.length_append, Nat.add_assoc]

theorem carry (h : Run p batches chunks last) :
    last.carry = (chunks.getLast?.map Chunk.carryOut).getD p.carry := by
  induction h with
  | nil => rfl
  | cons head tail ih =>
    rw [ih, List.getLast?_cons, (step_of_process head).behind]
    cases h : List.getLast? _ <;> rfl

theorem nextRecord_eq (h : Run p batches chunks last) :
    last.nextRecord =
      (chunks.getLast?.map fun c => c.firstRecord + c.recordCount).getD p.nextRecord := by
  induction h with
  | nil => rfl
  | cons head tail ih =>
    have step := step_of_process head
    rw [ih, List.getLast?_cons, step.behind, ← step.recordCount, ← step.firstRecord]
    cases h : List.getLast? _ <;> rfl

theorem sum_recordCount (h : Run p batches chunks last) :
    (chunks.map Chunk.recordCount).sum = (batches.flatMap Batch.records).length := by
  induction h with
  | nil => rfl
  | cons head tail ih =>
    rw [List.map_cons, List.sum_cons, ih, (step_of_process head).recordCount, List.flatMap_cons,
      List.length_append]

theorem feed_append (h : Run p front chunks last) (rest : List Batch) :
    p.feed (front ++ rest) = (chunks ++ (last.feed rest).1, (last.feed rest).2) := by
  induction h with
  | nil => rfl
  | cons head tail ih => simp only [List.cons_append, feed, head, ih]

theorem feed_eq (h : Run p batches chunks last) : p.feed batches = (chunks, last) := by
  simpa [feed] using h.feed_append []

theorem answers_append (h : Run p front chunks last) (rest : List Batch) :
    p.answers (front ++ rest) = chunks.map .ok ++ last.answers rest := by
  induction h with
  | nil => rfl
  | cons head tail ih => simp only [List.cons_append, answers, head, ih, List.map_cons]

theorem answers_eq (h : Run p batches chunks last) : p.answers batches = chunks.map .ok := by
  simpa [answers] using h.answers_append []

theorem regions (h : Run p batches chunks last) : last.regions = p.regions := by
  induction h with
  | nil => rfl
  | cons head tail ih => rw [ih, (step_of_process head).behind]

end Run

def taken (p : Processor) : List Batch → List Batch
  | [] => []
  | batch :: rest =>
    match p.process batch with
    | .error _ => p.taken rest
    | .ok (_, next) => batch :: next.taken rest

/-- Batches that are refused might as well not have been offered. -/
theorem run_taken (p : Processor) (batches : List Batch) :
    p.Run (p.taken batches) (p.feed batches).1 (p.feed batches).2 := by
  induction batches generalizing p with
  | nil => exact .nil p
  | cons batch rest ih =>
    rw [taken, feed]
    cases hprocess : p.process batch with
    | error e => exact ih p
    | ok made => exact .cons hprocess (ih made.2)

end AccessTrace.Processor

namespace AccessTrace.Chunk

def Consecutive : Nat → List Chunk → Prop
  | _, [] => True
  | first, c :: rest => c.firstRecord = first ∧ Consecutive (first + c.recordCount) rest

theorem consecutive_of_run {p last : Processor} {batches : List Batch} {chunks : List Chunk}
    (h : p.Run batches chunks last) : Consecutive p.nextRecord chunks := by
  induction h with
  | nil => trivial
  | cons head tail ih =>
    have step := Processor.step_of_process head
    refine ⟨step.firstRecord, ?_⟩
    rwa [step.behind, ← step.recordCount] at ih

theorem Consecutive.le_firstRecord {first : Nat} {chunks : List Chunk}
    (h : Consecutive first chunks) : ∀ c ∈ chunks, first ≤ c.firstRecord := by
  induction chunks generalizing first with
  | nil => simp
  | cons d rest ih =>
    intro c hc
    rcases List.mem_cons.1 hc with rfl | hc
    · exact Nat.le_of_eq h.1.symm
    · have := ih h.2 c hc
      omega

theorem Consecutive.split {first : Nat} {front rest : List Chunk} {c : Chunk}
    (h : Consecutive first (front ++ c :: rest)) :
    (∀ d ∈ front, d.firstRecord + d.recordCount ≤ c.firstRecord) ∧
      ∀ d ∈ rest, c.firstRecord + c.recordCount ≤ d.firstRecord := by
  induction front generalizing first with
  | nil =>
    refine ⟨by simp, fun d hd => ?_⟩
    rw [h.1]
    exact h.2.le_firstRecord d hd
  | cons e front ih =>
    obtain ⟨hfront, hrest⟩ := ih h.2
    refine ⟨fun d hd => ?_, hrest⟩
    rcases List.mem_cons.1 hd with rfl | hd
    · have := h.2.le_firstRecord c (by simp)
      rw [h.1]
      exact this
    · exact hfront d hd

end AccessTrace.Chunk
