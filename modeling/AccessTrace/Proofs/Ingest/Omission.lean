import AccessTrace.Proofs.Ingest.Cancellation

/-!
What a load that calls itself cancelled has left out. It does so whenever the flag is up in the end.
Nothing is missing when the flag went up only after every chunk was published or past the last look
that the processor takes at the flag, and in every other case something is.
-/

namespace AccessTrace.Pipeline

def ProcessorPhase.fails : ProcessorPhase → Bool
  | .failing _ | .leaving (.error _) | .ended (.error _) => true
  | _ => false

/-- The chunks in the store, and the one that is published whatever the flag does. -/
def settled (s : Pipeline) : Nat :=
  s.store.chunks.size + s.worker.chunksLeft

variable {c : Config} {opened : TraceFile.Opened} {rereads : Bool} {done read : List Batch}
  {s t : Pipeline} {move : Move} {moves : List Move} {stats : Ingest.Stats}

theorem fails_of_turn (turn : Turn s move t) (h : s.worker.fails = true) :
    t.worker.fails = true := by
  cases turn with
  | receive worker | runDry worker | drop worker | check worker | refuse worker | accept worker
  | publish worker => simp [worker, ProcessorPhase.fails] at h
  | fail => rfl
  | @leave result worker =>
    rw [worker] at h
    cases result with
    | ok => contradiction
    | error e => rfl
  | _ => exact h

/-- Once the flag is up, the processor adds to what is settled only by failing. -/
theorem Halting.settled_of_turn (h : Halting s) (turn : Turn s move t) :
    t.worker.fails = true ∨ t.settled = s.settled := by
  have hraised := h.raised
  cases turn with
  | check worker down => simp [hraised] at down
  | refuse => exact .inl rfl
  | receive worker | runDry worker | drop worker | accept worker | publish worker | fail worker
  | leave worker =>
    right
    simp [settled, worker, ProcessorPhase.chunksLeft, Store.append, raiseFlag]
  | _ => exact .inr rfl

theorem Halting.settled_of_run (h : Halting s) (hrun : s.run moves = some t) :
    t.worker.fails = true ∨ t.settled = s.settled := by
  have hkept := keeps_of_run
    (P := fun u => Halting u ∧ (u.worker.fails = true ∨ u.settled = s.settled)) ?_ hrun
    ⟨h, .inr rfl⟩
  · exact hkept.2
  · rintro u v move turn ⟨halting, hfails | hsettled⟩
    · exact ⟨halting.step turn, .inl (fails_of_turn turn hfails)⟩
    · rw [← hsettled]
      exact ⟨halting.step turn, halting.settled_of_turn turn⟩

theorem exists_of_result?_eq_ok (h : s.result? = some (.ok stats)) :
    ∃ stopped, s.reader = .ended (.ok stopped) ∧ s.worker = .ended (.ok ()) ∧
      stats = { s.stats with cancelled := stopped || s.raised } := by
  unfold result? at h
  split at h
  · simp at h
  · simp at h
  · rename_i stopped reader worker
    exact ⟨stopped, reader, worker, (Except.ok.inj (Option.some.inj h)).symm⟩
  · contradiction

theorem Sound.cancelled_eq_raised (h : Sound c opened rereads done read s)
    (hresult : s.result? = some (.ok stats)) : stats.cancelled = s.raised := by
  obtain ⟨stopped, reader, -, rfl⟩ := exists_of_result?_eq_ok hresult
  rcases h.stops stopped reader with hraised | ⟨rfl, -⟩
  · simp [hraised]
  · exact Bool.false_or _

theorem Sound.loop_eq_iff (h : Sound c opened rereads done read s) :
    loop c opened = (s.store.chunks.toList, none) ↔
      (loop c opened).2 = none ∧ s.store.chunks.size = (loop c opened).1.length := by
  rw [Prod.ext_iff, and_comm, ← Array.length_toList]
  refine and_congr_right fun _ => ⟨fun hall => by rw [hall], fun hlength => ?_⟩
  exact (h.chunks_prefix.eq_of_length hlength).symm

/-- A load that ends without a fault calls itself cancelled exactly when the flag is up in the end,
and if it does not, it has everything. If the flag is up at some moment, the load has everything in
the end exactly when every chunk of the trace is settled at that moment. -/
theorem complete_iff_settled (c : Config) (opened : TraceFile.Opened) (rereads : Bool)
    {before after : List Move} (hbefore : (start c opened rereads).run before = some s)
    (hafter : s.run after = some t) (hresult : t.result? = some (.ok stats)) :
    let complete := loop c opened = (t.store.chunks.toList, none)
    (stats.cancelled = true ↔ t.raised = true) ∧
    (stats.cancelled = false → complete) ∧
    (s.raised = true → stats.cancelled = true ∧
      (complete ↔ (loop c opened).2 = none ∧ s.settled = (loop c opened).1.length)) := by
  intro complete
  have hrun : (start c opened rereads).run (before ++ after) = some t := by
    rw [run_append, hbefore]
    exact hafter
  obtain ⟨done, read, sound⟩ := (sound_start c opened rereads).run hrun
  obtain ⟨stopped, reader, worker, -⟩ := exists_of_result?_eq_ok hresult
  have hcancelled := sound.cancelled_eq_raised hresult
  refine ⟨by rw [hcancelled], fun hdown => ?_, fun hraised => ?_⟩
  · obtain ⟨hreader, hprocessor⟩ := gone_of_result?_eq_some hresult
    cases sound.ending hreader hprocessor with
    | clean _ _ _ loops => exact loops
    | unreadable reader' => simp [reader] at reader'
    | refused _ worker' => simp [worker] at worker'
    | stopped _ _ raised => simp [← hcancelled, hdown] at raised
  · have halting : Halting s := ⟨hraised, (gate_of_run hbefore).1⟩
    have hsettled : t.settled = s.settled :=
      (halting.settled_of_run hafter).resolve_left (by simp [worker, ProcessorPhase.fails])
    have hsize : t.store.chunks.size = s.settled := by
      rw [← hsettled, settled, worker]
      rfl
    refine ⟨?_, by rw [← hsize]; exact sound.loop_eq_iff⟩
    rw [hcancelled]
    exact keeps_of_run (P := fun u => u.raised = true) raised_of_turn hafter hraised

/-- The flag goes up when the reader is about to read the second block and the processor is at the
first, which is the one chunk that is settled then. -/
theorem incomplete_of_flag_between_blocks :
    let opened : TraceFile.Opened := ⟨0, .empty, ⟨9, TraceFile.encodeBlock Lz4.encode [.enter 7] ++
      TraceFile.encodeBlock Lz4.encode [.exit 7]⟩⟩
    let quietPoll : Move := .poll ⟨none, false⟩
    let before : List Move :=
      [.read, quietPoll, .read, .read, .process, .process, .read, quietPoll, .raise]
    let after : List Move :=
      [.process, .process, .read, .read, .process, .process, .process, .read]
    ∃ s t stats, (start {} opened true).run before = some s ∧ s.run after = some t ∧
      t.result? = some (.ok stats) ∧ s.raised = true ∧ s.settled = 1 ∧ stats.cancelled = true ∧
      loop {} opened ≠ (t.store.chunks.toList, none) := by
  intro opened quietPoll before after
  have hany : ((start {} opened true).run before).any (fun s => s.raised && s.settled == 1 &&
      (s.run after).any fun t => t.result? = some (.ok ⟨2, 120, 1, 2, true⟩)) = true := by
    decide +kernel +revert
  have hlength : (loop {} opened).1.length = 2 := by
    clear hany
    decide +kernel +revert
  simp only [Option.any_eq_true, Bool.and_eq_true, beq_iff_eq, decide_eq_true_eq] at hany
  obtain ⟨s, hbefore, ⟨hraised, hsettled⟩, t, hafter, hresult⟩ := hany
  obtain ⟨-, -, hmoment⟩ := complete_iff_settled {} opened true hbefore hafter hresult
  refine ⟨s, t, _, hbefore, hafter, hresult, hraised, hsettled, (hmoment hraised).1, fun h => ?_⟩
  have hall := ((hmoment hraised).2.1 h).2
  rw [hsettled, hlength] at hall
  contradiction

/-- The flag goes up when both chunks are published and the reader is about to see that no block is
left. -/
theorem complete_of_late_flag :
    let opened : TraceFile.Opened := ⟨0, .empty, ⟨9, TraceFile.encodeBlock Lz4.encode [.enter 7] ++
      TraceFile.encodeBlock Lz4.encode [.exit 7]⟩⟩
    let quietPoll : Move := .poll ⟨none, false⟩
    let block : List Move :=
      [.read, quietPoll, .read, .read, .process, .process, .process, .process]
    let moves : List Move :=
      block ++ block ++ [.read, .poll ⟨none, true⟩, .read, .process, .process]
    ∃ s, (start {} opened true).run moves = some s ∧
      s.result? = some (.ok ⟨2, 120, 2, 2, true⟩) ∧
      loop {} opened = (s.store.chunks.toList, none) := by
  intro opened quietPoll block moves
  have hany : ((start {} opened true).run moves).any (fun s => s.store.chunks.size == 2 &&
      s.result? = some (.ok ⟨2, 120, 2, 2, true⟩)) = true := by
    decide +kernel +revert
  have hloop : (loop {} opened).2 = none ∧ (loop {} opened).1.length = 2 := by
    clear hany
    decide +kernel +revert
  simp only [Option.any_eq_true, Bool.and_eq_true, beq_iff_eq, decide_eq_true_eq] at hany
  obtain ⟨s, hrun, hsize, hresult⟩ := hany
  obtain ⟨done, read, sound⟩ := (sound_start {} opened true).run hrun
  exact ⟨s, hrun, hresult, sound.loop_eq_iff.2 ⟨hloop.1, hsize.trans hloop.2.symm⟩⟩

end AccessTrace.Pipeline
