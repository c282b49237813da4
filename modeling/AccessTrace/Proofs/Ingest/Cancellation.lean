import AccessTrace.Proofs.Ingest.Ending

/-!
Stopping two workers from outside. Whenever the flag goes up, each of them finishes at most what it
is at: the reader one block, the processor one chunk. What is in the store then is still a first
part of what the loop makes, and a load that does not call itself cancelled has all of it.
-/

namespace AccessTrace.Pipeline

def asksForBlock (s : Pipeline) : Move → Bool
  | .read =>
    match s.reader with
    | .atBlock _ => true
    | _ => false
  | _ => false

def blockRequests (s : Pipeline) : List Move → Nat
  | [] => 0
  | move :: rest =>
    (s.asksForBlock move).toNat + (s.step move).elim 0 fun t => t.blockRequests rest

/-- The requests that a reader makes before it looks at the flag again. -/
def ReaderPhase.requestsLeft : ReaderPhase → Nat
  | .atBlock _ => 1
  | _ => 0

def ProcessorPhase.chunksLeft : ProcessorPhase → Nat
  | .processing _ | .publishing _ _ => 1
  | _ => 0

theorem ReaderPhase.requestsLeft_le_one (reader : ReaderPhase) : reader.requestsLeft ≤ 1 := by
  unfold requestsLeft
  split <;> decide

theorem ProcessorPhase.chunksLeft_le_one (worker : ProcessorPhase) : worker.chunksLeft ≤ 1 := by
  unfold chunksLeft
  split <;> decide

/-- The flag is up, and the reader's waits give way to it. -/
structure Halting (s : Pipeline) : Prop where
  raised : s.raised = true
  listens : s.gate.listens = true

variable {s t : Pipeline} {move : Move} {moves : List Move}

theorem Halting.cancelled (h : Halting s) : s.gate.cancelled = true :=
  Bool.and_eq_true_iff.2 ⟨h.listens, h.raised⟩

theorem raised_of_turn (turn : Turn s move t) (h : s.raised = true) : t.raised = true := by
  cases turn with
  | wait | pass => simpa [raised, Gate.hear] using .inl h
  | fail | raise => rfl
  | _ => exact h

theorem Halting.step (h : Halting s) (turn : Turn s move t) : Halting t :=
  ⟨raised_of_turn turn h.raised, (gate_of_turn turn).1.trans h.listens⟩

/-- A request for a block uses up the one that was left; the gate lets the reader to no other. -/
theorem Halting.requests_of_turn (h : Halting s) (turn : Turn s move t) :
    (s.asksForBlock move).toNat + t.reader.requestsLeft ≤ s.reader.requestsLeft := by
  have hcancelled := h.cancelled
  cases turn with
  | wait reader waiting | pass reader waiting => simp [hcancelled] at waiting
  | giveUp reader | goToGate reader | cancel reader | badBlock reader | noBlock reader
  | badPayload reader | block reader | sendToNobody reader | send reader =>
    simp [asksForBlock, reader, ReaderPhase.requestsLeft]
  | _ => exact Nat.le_of_eq (Nat.zero_add _)

theorem Halting.blockRequests_add_le (h : Halting s) (hrun : s.run moves = some t) :
    s.blockRequests moves + t.reader.requestsLeft ≤ s.reader.requestsLeft := by
  induction moves generalizing s with
  | nil =>
    obtain rfl := Option.some.inj hrun
    exact Nat.le_of_eq (Nat.zero_add _)
  | cons move rest ih =>
    rw [run_cons, Option.bind_eq_some_iff] at hrun
    obtain ⟨middle, hstep, hrest⟩ := hrun
    have turn := step_eq_some_iff.1 hstep
    have hhere := h.requests_of_turn turn
    have hbehind := ih (h.step turn) hrest
    rw [blockRequests, hstep, Option.elim_some]
    omega

theorem Halting.chunks_of_turn (h : Halting s) (turn : Turn s move t) :
    ∃ more, t.store.chunks.toList = s.store.chunks.toList ++ more ∧
      more.length + t.worker.chunksLeft ≤ s.worker.chunksLeft := by
  have hraised := h.raised
  cases turn with
  | check worker down => simp [hraised] at down
  | publish worker =>
    refine ⟨_, Array.toList_push .., ?_⟩
    simp [worker, ProcessorPhase.chunksLeft]
  | receive worker | runDry worker | drop worker | refuse worker | accept worker | fail worker
  | leave worker =>
    refine ⟨[], (List.append_nil _).symm, ?_⟩
    simp [worker, ProcessorPhase.chunksLeft]
  | _ => exact ⟨[], (List.append_nil _).symm, Nat.le_of_eq (Nat.zero_add _)⟩

theorem Halting.chunks_of_run (h : Halting s) (hrun : s.run moves = some t) :
    ∃ more, t.store.chunks.toList = s.store.chunks.toList ++ more ∧
      more.length + t.worker.chunksLeft ≤ s.worker.chunksLeft := by
  have hkept := keeps_of_run (P := fun u => Halting u ∧ ∃ more,
    u.store.chunks.toList = s.store.chunks.toList ++ more ∧
      more.length + u.worker.chunksLeft ≤ s.worker.chunksLeft) ?_ hrun
    ⟨h, [], (List.append_nil _).symm, Nat.le_of_eq (Nat.zero_add _)⟩
  · exact hkept.2
  · rintro u v move turn ⟨halting, more, hmore, hleft⟩
    obtain ⟨later, hlater, hless⟩ := halting.chunks_of_turn turn
    refine ⟨halting.step turn, more ++ later, by rw [hlater, hmore, List.append_assoc], ?_⟩
    rw [List.length_append]
    omega

/-- However the flag and the two workers take turns, the store holds a first part of the chunks that
the loop makes, little more comes in once the flag is up, and a load that ends without a fault and
uncancelled has everything. -/
theorem chunks_of_cancelled_run (c : Config) (opened : TraceFile.Opened) (rereads : Bool)
    {before after : List Move} (hbefore : (start c opened rereads).run before = some s)
    (hafter : s.run after = some t) :
    let loop := Ingest.sequence (Processor.start c.pages c.retainDetail opened.regions) opened.blocks
    s.store.chunks.toList <+: loop.1 ∧
      (s.raised = true → s.blockRequests after ≤ 1 ∧
        ∃ more, t.store.chunks.toList = s.store.chunks.toList ++ more ∧ more.length ≤ 1) ∧
      ∀ stats, s.result? = some (.ok stats) → stats.cancelled = false →
        loop = (s.store.chunks.toList, none) ∧ stats.blocks = s.store.chunks.size ∧
          stats.records = s.store.totalRecords := by
  intro loop
  obtain ⟨done, read, sound⟩ := (sound_start c opened rereads).run hbefore
  refine ⟨sound.chunks_prefix, fun hraised => ?_, fun stats hresult hcancelled => ?_⟩
  · have halting : Halting s := ⟨hraised, (gate_of_run hbefore).1⟩
    constructor
    · have := halting.blockRequests_add_le hafter
      have := s.reader.requestsLeft_le_one
      omega
    · obtain ⟨more, hmore, hleft⟩ := halting.chunks_of_run hafter
      have := s.worker.chunksLeft_le_one
      exact ⟨more, hmore, by omega⟩
  · obtain ⟨hreader, hprocessor⟩ := gone_of_result?_eq_some hresult
    cases sound.ending hreader hprocessor with
    | clean reader worker down loops blocks =>
      rw [result?, reader, worker, Option.some.injEq, Except.ok.injEq] at hresult
      subst hresult
      exact ⟨loops, blocks, sound.records_eq⟩
    | unreadable reader worker => simp [result?, reader, worker] at hresult
    | @refused outcome f reader worker => cases outcome <;> simp [result?, reader, worker] at hresult
    | @stopped outcome reader worker hraised =>
      cases outcome with
      | error e => simp [result?, reader, worker] at hresult
      | ok stopped =>
        rw [result?, reader, worker, Option.some.injEq, Except.ok.injEq] at hresult
        subst hresult
        simp [hraised] at hcancelled

/-- The flag goes up when the reader is about to read the second block and the processor is at the
first. Both finish, and the second batch is dropped. -/
theorem chunks_of_flag_between_blocks :
    let opened : TraceFile.Opened := ⟨0, .empty, ⟨9, TraceFile.encodeBlock Lz4.encode [.enter 7] ++
      TraceFile.encodeBlock Lz4.encode [.exit 7]⟩⟩
    let quietPoll : Move := .poll ⟨none, false⟩
    let before : List Move :=
      [.read, quietPoll, .read, .read, .process, .process, .read, quietPoll, .raise]
    let after : List Move :=
      [.process, .process, .read, .read, .process, .process, .process, .read]
    ∃ s t, (start {} opened true).run before = some s ∧ s.run after = some t ∧ s.raised = true ∧
      s.blockRequests after = 1 ∧ t.store.chunks.size = 1 ∧
      (∃ more, t.store.chunks.toList = s.store.chunks.toList ++ more ∧ more.length ≤ 1) := by
  intro opened quietPoll before after
  have hany : ((start {} opened true).run before).any (fun s => s.raised &&
      s.blockRequests after == 1 && (s.run after).any fun t => t.store.chunks.size == 1) = true := by
    decide +kernel +revert
  rw [Option.any_eq_true] at hany
  obtain ⟨s, hbefore, hs⟩ := hany
  rw [Bool.and_eq_true, Bool.and_eq_true, Option.any_eq_true] at hs
  obtain ⟨⟨hraised, hrequests⟩, t, hafter, hsize⟩ := hs
  exact ⟨s, t, hbefore, hafter, hraised, beq_iff_eq.1 hrequests, beq_iff_eq.1 hsize,
    ((chunks_of_cancelled_run {} opened true hbefore hafter).2.1 hraised).2⟩

end AccessTrace.Pipeline
