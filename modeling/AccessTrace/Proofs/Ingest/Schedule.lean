import AccessTrace.Ingest
import AccessTrace.Proofs.Budget.Gate
import AccessTrace.Proofs.Ingest.Turn

/-!
A load by one thread is a load by two workers that take turns: the reader reads a block and sends
it, and the processor is done with it before the reader goes on. Only the flag that a refused batch
raises comes late, when the reader has heard about memory once more. Both loads hear the same
answers and come to the same end.
-/

namespace AccessTrace

namespace Pipeline

/-- A run in which the reader hears the given answers, and no one but the workers raises the
flag. -/
def Hears (s : Pipeline) (answers : List Poll) (t : Pipeline) : Prop :=
  ∃ moves, s.run moves = some t ∧ .raise ∉ moves ∧ moves.filterMap Move.answer? = answers

variable {s t u : Pipeline} {answers answers' : List Poll}

theorem Hears.refl (s : Pipeline) : s.Hears [] s :=
  ⟨[], rfl, by simp, rfl⟩

theorem Hears.trans (h : s.Hears answers t) (h' : t.Hears answers' u) :
    s.Hears (answers ++ answers') u := by
  obtain ⟨moves, hrun, hraise, rfl⟩ := h
  obtain ⟨moves', hrun', hraise', rfl⟩ := h'
  refine ⟨moves ++ moves', ?_, by simp [hraise, hraise'], List.filterMap_append⟩
  rw [run_append, hrun, Option.bind_some, hrun']

theorem Hears.step {move : Move} (turn : Turn s move t) (hstep : move.isStep = true)
    (h : t.Hears answers u) : s.Hears answers u := by
  obtain ⟨moves, hrun, hraise, hanswers⟩ := h
  obtain ⟨hsilent, hne⟩ := Move.silent_of_isStep hstep
  refine ⟨move :: moves, ?_, by simp [hraise, hne], ?_⟩
  · rw [run_cons, step_eq_some_iff.2 turn, Option.bind_some, hrun]
  · rwa [List.filterMap_cons_none hsilent]

theorem Hears.read (turn : Turn s .read t) (h : t.Hears answers u) : s.Hears answers u :=
  .step turn rfl h

theorem Hears.process (turn : Turn s .process t) (h : t.Hears answers u) : s.Hears answers u :=
  .step turn rfl h

theorem Hears.poll {answer : Poll} (turn : Turn s (.poll answer) t) (h : t.Hears answers u) :
    s.Hears (answer :: answers) u := by
  obtain ⟨moves, hrun, hraise, hanswers⟩ := h
  refine ⟨.poll answer :: moves, ?_, by simp [hraise], by simp [Move.answer?, hanswers]⟩
  rw [run_cons, step_eq_some_iff.2 turn, Option.bind_some, hrun]

theorem Hears.gate_listens (h : s.Hears answers t) : t.gate.listens = s.gate.listens := by
  obtain ⟨moves, hrun, -, -⟩ := h
  exact (gate_of_run hrun).1

def ReaderPhase.behindWait : Option Gate.Outcome → ReaderPhase
  | none => .atGate
  | some .cancelled => .ended (.ok true)
  | some outcome => .atBlock outcome

theorem behindWait_of_ne {outcome : Gate.Outcome} (h : outcome ≠ .cancelled) :
    ReaderPhase.behindWait (some outcome) = .atBlock outcome := by
  cases outcome with
  | satisfied | unknown | exhausted => rfl
  | cancelled => contradiction

theorem ne_cancelled_of_judge {g : Gate} {minSpareMb : Int64} {answer : Poll}
    {outcome : Gate.Outcome} (h : g.judge minSpareMb answer = some outcome) :
    outcome ≠ .cancelled := by
  rcases Gate.judge_cases h with rfl | ⟨spareMb, rfl⟩ <;> simp

theorem hears_awaitFrom (hreader : s.reader = .atGate) (made : Nat) (answers : List Poll) :
    let wait := s.gate.awaitFrom s.gate.budget.minSpareMb none made answers
    ∃ heard, answers = heard ++ wait.unused ∧ wait.polls = made + heard.length ∧
      s.Hears heard
        { s with gate := wait.gate, reader := ReaderPhase.behindWait wait.outcome } := by
  induction answers generalizing s made with
  | nil =>
    cases cancelled : s.gate.cancelled with
    | true =>
      simp only [Gate.awaitFrom_of_cancelled cancelled]
      exact ⟨[], rfl, rfl, .read (.cancel hreader cancelled) (.refl _)⟩
    | false =>
      simp only [Gate.awaitFrom_nil cancelled (Gate.within_none made), ReaderPhase.behindWait,
        ← hreader]
      exact ⟨[], rfl, rfl, .refl s⟩
  | cons answer rest ih =>
    cases cancelled : s.gate.cancelled with
    | true =>
      simp only [Gate.awaitFrom_of_cancelled cancelled]
      exact ⟨[], rfl, rfl, .read (.cancel hreader cancelled) (.refl _)⟩
    | false =>
      cases hjudge : s.gate.judge s.gate.budget.minSpareMb answer with
      | some outcome =>
        simp only [Gate.awaitFrom_of_judge cancelled (Gate.within_none made) hjudge,
          behindWait_of_ne (ne_cancelled_of_judge hjudge)]
        exact ⟨[answer], rfl, rfl, .poll (.pass hreader cancelled hjudge) (.refl _)⟩
      | none =>
        obtain ⟨heard, hheard, hpolls, hears⟩ :=
          ih (s := { s with gate := s.gate.hear answer, reader := .atGate }) rfl (made + 1)
        simp only [Gate.awaitFrom_of_judge_none cancelled (Gate.within_none made) hjudge]
        refine ⟨answer :: heard, congrArg (answer :: ·) hheard, hpolls.trans ?_,
          .poll (.wait hreader cancelled hjudge) hears⟩
        rw [List.length_cons, Nat.add_assoc, Nat.add_comm 1]

theorem unused_eq_nil_of_awaitFrom {g : Gate} {minSpareMb : Int64} {made : Nat} {answers : List Poll}
    (h : (g.awaitFrom minSpareMb none made answers).outcome = none) :
    (g.awaitFrom minSpareMb none made answers).unused = [] := by
  fun_induction Gate.awaitFrom minSpareMb none made g answers with
  | case1 | case2 | case4 => contradiction
  | case3 => rfl
  | case5 made g hcancelled hlimit answer rest hjudge ih => exact ih h

end Pipeline

namespace Ingest

open Pipeline

variable {i j : Ingest} {capacity : Nat} {answers : List Poll}

/-- The two workers when the reader is about to wait for memory and nothing is underway. -/
def idle (i : Ingest) (capacity : Nat) : Pipeline where
  gate := i.gate
  capacity
  blocks := i.blocks
  stats := i.stats
  reader := .atGate
  queue := []
  processor := i.processor
  store := i.store
  worker := .receiving

/-- The same when the processor may have refused a batch: it has yet to raise the flag then. -/
def atGate (i : Ingest) (capacity : Nat) : Pipeline :=
  match i.refused with
  | some e => { i.idle capacity with worker := .failing e }
  | none => i.idle capacity

/-- Where the workers are when the one thread is somewhere. -/
def Status.Reflected (capacity : Nat) (s : Pipeline) : Status → Prop
  | .waiting i => s = i.atGate capacity
  | .ended i result =>
    s.readerGone = true ∧ s.processorGone = true ∧ s.store = i.store ∧ s.processor = i.processor ∧
      s.result? = some result

def Status.polls : Status → Nat
  | .waiting i | .ended i _ => i.polls

theorem polls_finish (i : Ingest) (stopped : Bool) : (i.finish stopped).polls = i.polls := by
  unfold finish
  split <;> rfl

theorem polls_accept (i : Ingest) (batch : Batch) : (i.accept batch).polls = i.polls := by
  unfold Ingest.accept
  split
  · exact polls_finish i true
  · split <;> rfl

theorem polls_readBlock (i : Ingest) (outcome : Gate.Outcome) :
    (i.readBlock outcome).polls = i.polls := by
  unfold Ingest.readBlock
  split
  · rfl
  · exact polls_finish _ _
  · dsimp only
    split
    · rfl
    · exact polls_accept _ _

theorem atGate_of_taking (taking : i.refused = none) : i.atGate capacity = i.idle capacity := by
  rw [atGate, taking]

theorem atGate_of_refused {e : CallStack.Error} (refused : i.refused = some e) :
    i.atGate capacity = { i.idle capacity with worker := .failing e } := by
  rw [atGate, refused]

@[simp] theorem gate_atGate (i : Ingest) (capacity : Nat) : (i.atGate capacity).gate = i.gate := by
  unfold atGate
  split <;> rfl

@[simp] theorem reader_atGate (i : Ingest) (capacity : Nat) :
    (i.atGate capacity).reader = .atGate := by
  unfold atGate
  split <;> rfl

@[simp] theorem stats_atGate (i : Ingest) (capacity : Nat) : (i.atGate capacity).stats = i.stats := by
  unfold atGate
  split <;> rfl

theorem listens_of_hears (h : (i.atGate capacity).Hears answers (j.atGate capacity))
    (listens : i.gate.listens = true) : j.gate.listens = true := by
  simpa [listens] using h.gate_listens

theorem finish_of_taking (taking : i.refused = none) (stopped : Bool) :
    i.finish stopped = .ended i (.ok { i.stats with cancelled := stopped || i.gate.raised }) := by
  rw [finish, taking]

theorem finish_of_refused {e : CallStack.Error} (refused : i.refused = some e) (stopped : Bool) :
    i.finish stopped = i.fail (.stack e) := by
  rw [finish, refused]

theorem map_meanwhile (taking : i.refused = none) : answers.map i.meanwhile = answers := by
  have hid : i.meanwhile = id := by
    funext answer
    simp [meanwhile, taking]
  rw [hid, List.map_id]

theorem hears_await (taking : i.refused = none) (capacity : Nat) {outcome : Option Gate.Outcome}
    (houtcome :
      (i.gate.await i.gate.budget.minSpareMb none (answers.map i.meanwhile)).outcome = outcome) :
    let wait := i.gate.await i.gate.budget.minSpareMb none (answers.map i.meanwhile)
    ∃ heard, heard ++ wait.unused = answers ∧ wait.polls = heard.length ∧
      (i.idle capacity).Hears heard
        { i.idle capacity with gate := wait.gate, reader := ReaderPhase.behindWait outcome } := by
  rw [map_meanwhile taking] at houtcome ⊢
  obtain ⟨heard, hheard, hpolls, hears⟩ := hears_awaitFrom (s := i.idle capacity) rfl 0 answers
  exact ⟨heard, hheard.symm, hpolls.trans (Nat.zero_add _), houtcome ▸ hears⟩

theorem hears_close (i : Ingest) (capacity : Nat) (outcome : Except TraceError Bool) :
    { i.idle capacity with reader := .ended outcome }.Hears []
      { i.idle capacity with reader := .ended outcome, worker := .ended (.ok ()) } :=
  .process (.runDry rfl rfl rfl) (.process (.leave rfl) (.refl _))

theorem hears_accept (taking : i.refused = none) (positive : 0 < capacity) (batch : Batch) :
    ∃ t, { i.idle capacity with reader := .sending batch }.Hears [] t ∧
      (i.accept batch).Reflected capacity t := by
  suffices ∃ t, { i.idle capacity with
      reader := .atHead, queue := [], worker := .checking batch }.Hears [] t ∧
      (i.accept batch).Reflected capacity t by
    obtain ⟨t, hears, reflected⟩ := this
    exact ⟨t, .read (.send rfl rfl positive) (.process (.receive rfl rfl) hears), reflected⟩
  unfold Ingest.accept
  cases raised : i.gate.raised with
  | true =>
    rw [if_pos rfl, finish_of_taking taking]
    refine ⟨_, .process (.drop rfl raised) (.process (.leave rfl)
      (.read (.giveUp rfl raised) (.refl _))), rfl, rfl, rfl, rfl, ?_⟩
    simp [Pipeline.result?, Pipeline.raised, idle, raised]
  | false =>
    simp only [Bool.false_eq_true, if_false]
    cases hprocess : i.processor.process batch with
    | error e =>
      exact ⟨_, .process (.check rfl raised) (.process (.refuse rfl hprocess)
        (.read (.goToGate rfl raised) (.refl _))), rfl⟩
    | ok made =>
      refine ⟨_, .process (.check rfl raised) (.process (.accept rfl hprocess)
        (.process (.publish rfl) (.read (.goToGate rfl raised) (.refl _)))), ?_⟩
      dsimp only
      rw [Status.Reflected, atGate_of_taking (by exact taking)]
      rfl

theorem hears_readBlock (taking : i.refused = none) (positive : 0 < capacity)
    (outcome : Gate.Outcome) :
    ∃ t, { i.idle capacity with reader := .atBlock outcome }.Hears [] t ∧
      (i.readBlock outcome).Reflected capacity t := by
  unfold Ingest.readBlock
  match next : i.blocks.next with
  | (.error e, blocks) =>
    exact ⟨_, .read (.badBlock rfl next) (hears_close { i with blocks } capacity _),
      rfl, rfl, rfl, rfl, rfl⟩
  | (.ok none, blocks) =>
    dsimp only
    rw [finish_of_taking (by exact taking)]
    exact ⟨_, .read (.noBlock rfl next) (hears_close { i with blocks } capacity _),
      rfl, rfl, rfl, rfl, rfl⟩
  | (.ok (some raw), blocks) =>
    dsimp only
    cases hbatch : batchOf raw with
    | error e =>
      exact ⟨_, .read (.badPayload rfl next hbatch)
        (hears_close { i with blocks, stats := i.stats.addWait outcome } capacity _),
        rfl, rfl, rfl, rfl, rfl⟩
    | ok batch =>
      obtain ⟨t, hears, reflected⟩ := hears_accept (i := { i with
        blocks, stats := (i.stats.addWait outcome).addBlock raw.payload }) taking positive batch
      exact ⟨t, .read (.block rfl next hbatch) hears, reflected⟩

section Refused

variable {e : CallStack.Error}

/-- The flag that the processor raises takes the place of the one that goes up in the answer. -/
theorem hears_await_of_refused (refused : i.refused = some e) (listens : i.gate.listens = true)
    (capacity : Nat) (answers : List Poll) :
    let wait := i.gate.await i.gate.budget.minSpareMb none (answers.map i.meanwhile)
    (wait.outcome = none ∧ answers = [] ∧ wait.polls = 0 ∧ wait.gate = i.gate) ∨
    ∃ outcome heard, wait.outcome = some outcome ∧ heard <+: answers ∧ wait.polls = heard.length ∧
      wait.gate.raised = true ∧
      { i.idle capacity with worker := .failing e }.Hears heard
        { i.idle capacity with
          gate := wait.gate, reader := ReaderPhase.behindWait (some outcome)
          worker := .ended (.error e) } := by
  intro wait
  have hwait : wait = i.gate.awaitFrom i.gate.budget.minSpareMb none 0 (answers.map i.meanwhile) :=
    rfl
  clear_value wait
  subst hwait
  cases cancelled : i.gate.cancelled with
  | true =>
    have hraised : i.gate.raised = true := (Bool.and_eq_true_iff.1 cancelled).2
    have hgate : { i.gate with raised := true } = i.gate := by
      cases hg : i.gate
      simp_all
    right
    rw [Gate.awaitFrom_of_cancelled cancelled]
    refine ⟨_, [], rfl, List.nil_prefix, rfl, hraised, .read (.cancel rfl cancelled)
      (.process (.fail rfl) (.process (.leave rfl) ?_))⟩
    simp only [raiseFlag, idle, hgate]
    exact .refl _
  | false =>
    cases answers with
    | nil =>
      left
      rw [List.map_nil, Gate.awaitFrom_nil cancelled (Gate.within_none 0)]
      exact ⟨rfl, rfl, rfl, rfl⟩
    | cons answer rest =>
      right
      have hjudge : i.gate.judge i.gate.budget.minSpareMb (i.meanwhile answer) =
          i.gate.judge i.gate.budget.minSpareMb answer := rfl
      have hgate : { i.gate.hear answer with raised := true } = i.gate.hear (i.meanwhile answer) := by
        simp [Gate.hear, meanwhile, refused]
      have hraised : (i.gate.hear (i.meanwhile answer)).raised = true := hgate ▸ rfl
      cases hanswer : i.gate.judge i.gate.budget.minSpareMb answer with
      | some outcome =>
        rw [List.map_cons,
          Gate.awaitFrom_of_judge cancelled (Gate.within_none 0) (hjudge.trans hanswer)]
        refine ⟨outcome, [answer], rfl, ⟨rest, rfl⟩, rfl, hraised, ?_⟩
        rw [behindWait_of_ne (ne_cancelled_of_judge hanswer), ← hgate]
        exact .poll (.pass rfl cancelled hanswer)
          (.process (.fail rfl) (.process (.leave rfl) (.refl _)))
      | none =>
        have hcancelled : (i.gate.hear (i.meanwhile answer)).cancelled = true := by
          rw [Gate.cancelled, hraised, Bool.and_true]
          exact listens
        rw [List.map_cons,
          Gate.awaitFrom_of_judge_none cancelled (Gate.within_none 0) (hjudge.trans hanswer),
          Gate.awaitFrom_of_cancelled hcancelled]
        refine ⟨_, [answer], rfl, ⟨rest, rfl⟩, rfl, hraised, ?_⟩
        rw [← hgate] at hcancelled ⊢
        exact .poll (.wait rfl cancelled hanswer) (.process (.fail rfl) (.process (.leave rfl)
          (.read (.cancel rfl hcancelled) (.refl _))))

theorem hears_readBlock_of_refused (refused : i.refused = some e) (raised : i.gate.raised = true)
    (capacity : Nat) (outcome : Gate.Outcome) :
    ∃ t, { i.idle capacity with reader := .atBlock outcome, worker := .ended (.error e) }.Hears [] t ∧
      (i.readBlock outcome).Reflected capacity t := by
  unfold Ingest.readBlock
  match next : i.blocks.next with
  | (.error e, blocks) =>
    exact ⟨_, .read (.badBlock rfl next) (.refl _), rfl, rfl, rfl, rfl, rfl⟩
  | (.ok none, blocks) =>
    dsimp only
    rw [finish_of_refused (by exact refused)]
    exact ⟨_, .read (.noBlock rfl next) (.refl _), rfl, rfl, rfl, rfl, rfl⟩
  | (.ok (some raw), blocks) =>
    dsimp only
    cases hbatch : batchOf raw with
    | error e =>
      exact ⟨_, .read (.badPayload rfl next hbatch) (.refl _), rfl, rfl, rfl, rfl, rfl⟩
    | ok batch =>
      dsimp only
      rw [accept, if_pos (by exact raised), finish_of_refused (by exact refused)]
      exact ⟨_, .read (.block rfl next hbatch) (.read (.sendToNobody rfl rfl) (.refl _)),
        rfl, rfl, rfl, rfl, rfl⟩

theorem fail_ne_waiting (i j : Ingest) (e : TraceError) : i.fail e ≠ .waiting j :=
  Status.noConfusion

theorem readBlock_ne_waiting (raised : i.gate.raised = true) (outcome : Gate.Outcome) :
    i.readBlock outcome ≠ .waiting j := by
  unfold Ingest.readBlock
  split
  · exact fail_ne_waiting _ _ _
  · exact finish_ne_waiting _ _ _
  · dsimp only
    split
    · exact fail_ne_waiting _ _ _
    · rw [accept, if_pos (by exact raised)]
      exact finish_ne_waiting _ _ _

theorem hears_advance_of_refused (refused : i.refused = some e) (listens : i.gate.listens = true)
    (answers : List Poll) :
    ∃ heard t, heard <+: answers ∧ (∀ j, i.advance answers = .waiting j → heard = answers) ∧
      (i.advance answers).polls = i.polls + heard.length ∧
      (i.atGate capacity).Hears heard t ∧ (i.advance answers).Reflected capacity t := by
  have hwait := hears_await_of_refused refused listens capacity answers
  rw [atGate_of_refused refused]
  fun_cases Ingest.advance i answers with
  | case1 wait i' houtcome =>
    obtain ⟨-, hanswers, hpolls, hgate⟩ := hwait.resolve_right fun ⟨outcome, _, h, _⟩ => by
      simp [wait, h] at houtcome
    refine ⟨[], _, List.nil_prefix, fun _ _ => hanswers.symm, congrArg (i.polls + ·) hpolls,
      .refl _, ?_⟩
    rw [Status.Reflected, atGate_of_refused (by exact refused)]
    simp only [idle, i', wait, hgate]
  | case2 wait i' houtcome =>
    obtain ⟨outcome, heard, h, hheard, hpolls, -, hears⟩ := hwait.resolve_left fun ⟨h, _⟩ => by
      simp [wait, h] at houtcome
    obtain rfl : outcome = .cancelled := Option.some.inj (h.symm.trans houtcome)
    rw [finish_of_refused (by exact refused)]
    exact ⟨heard, _, hheard, nofun, congrArg (i.polls + ·) hpolls, hears, rfl, rfl, rfl, rfl, rfl⟩
  | case3 wait i' outcome hcancelled houtcome k result hblock =>
    obtain ⟨outcome', heard, h, hheard, hpolls, hraised, hears⟩ := hwait.resolve_left
      fun ⟨h, _⟩ => by simp [wait, h] at houtcome
    obtain rfl : outcome' = outcome := Option.some.inj (h.symm.trans houtcome)
    rw [behindWait_of_ne hcancelled] at hears
    obtain ⟨t, hblocks, reflected⟩ :=
      hears_readBlock_of_refused (i := i') refused hraised capacity outcome'
    have hboth := hears.trans hblocks
    rw [List.append_nil] at hboth
    rw [← hblock, polls_readBlock]
    exact ⟨heard, t, hheard, hblock ▸ nofun, congrArg (i.polls + ·) hpolls, hboth, reflected⟩
  | case4 wait i' outcome hcancelled houtcome k hblock hless =>
    obtain ⟨-, -, -, -, -, hraised, -⟩ := hwait.resolve_left fun ⟨h, _⟩ => by
      simp [wait, h] at houtcome
    exact absurd hblock (readBlock_ne_waiting hraised outcome)

end Refused

/-- A load that goes on with some answers stands where the workers can come to by hearing the first
of these, and all of them where it wants to hear more. -/
theorem hears_advance (positive : 0 < capacity) (i : Ingest) (listens : i.gate.listens = true)
    (answers : List Poll) :
    ∃ heard t, heard <+: answers ∧ (∀ j, i.advance answers = .waiting j → heard = answers) ∧
      (i.advance answers).polls = i.polls + heard.length ∧
      (i.atGate capacity).Hears heard t ∧ (i.advance answers).Reflected capacity t := by
  induction hlength : i.blocks.rest.length using Nat.strongRecOn generalizing i answers with
  | ind length ih =>
    cases taking : i.refused with
    | some e => exact hears_advance_of_refused taking listens answers
    | none =>
      rw [atGate_of_taking taking]
      fun_cases Ingest.advance i answers with
      | case1 wait i' houtcome =>
        obtain ⟨heard, hheard, hpolls, hears⟩ := hears_await taking capacity houtcome
        have hunused := unused_eq_nil_of_awaitFrom (by exact houtcome)
        rw [Gate.await, hunused, List.append_nil] at hheard
        refine ⟨heard, _, ⟨[], by rw [List.append_nil, hheard]⟩, fun _ _ => hheard,
          congrArg (i.polls + ·) hpolls, hears, ?_⟩
        rw [Status.Reflected, atGate_of_taking (by exact taking)]
        rfl
      | case2 wait i' houtcome =>
        obtain ⟨heard, hheard, hpolls, hears⟩ := hears_await taking capacity houtcome
        have hclosed := hears.trans (hears_close i' capacity (.ok true))
        rw [List.append_nil] at hclosed
        rw [finish_of_taking (by exact taking)]
        exact ⟨heard, _, ⟨_, hheard⟩, nofun, congrArg (i.polls + ·) hpolls, hclosed,
          rfl, rfl, rfl, rfl, rfl⟩
      | case3 wait i' outcome hcancelled houtcome k result hblock =>
        obtain ⟨heard, hheard, hpolls, hears⟩ := hears_await taking capacity houtcome
        rw [behindWait_of_ne hcancelled] at hears
        obtain ⟨t, hears', reflected⟩ := hears_readBlock (i := i') taking positive outcome
        have hboth := hears.trans hears'
        rw [List.append_nil] at hboth
        rw [← hblock, polls_readBlock]
        exact ⟨heard, t, ⟨_, hheard⟩, hblock ▸ nofun, congrArg (i.polls + ·) hpolls, hboth,
          reflected⟩
      | case4 wait i' outcome hcancelled houtcome k hblock hless =>
        obtain ⟨heard, hheard, hpolls, hears⟩ := hears_await taking capacity houtcome
        rw [behindWait_of_ne hcancelled] at hears
        obtain ⟨_, hears', rfl⟩ := hblock ▸ hears_readBlock (i := i') taking positive outcome
        have hread := hears.trans hears'
        rw [← atGate_of_taking taking] at hread ⊢
        obtain ⟨heard', t, ⟨later, hheard'⟩, hall, hpolls', hlater, reflected⟩ :=
          ih _ (hlength ▸ hless) k (listens_of_hears hread listens) wait.unused rfl
        have hboth := hread.trans hlater
        rw [List.append_nil] at hboth
        refine ⟨heard ++ heard', t, ⟨later, ?_⟩, fun l hl => ?_, ?_, hboth, reflected⟩
        · rw [List.append_assoc, hheard', hheard]
        · rw [hall l hl, hheard]
        · have hmade : k.polls = i.polls + wait.polls :=
            (congrArg Status.polls hblock).symm.trans (polls_readBlock i' outcome)
          rw [hpolls', hmade, hpolls, List.length_append, Nat.add_assoc]

theorem hears_advanceWith (positive : 0 < capacity) (i : Ingest) (listens : i.gate.listens = true)
    (answer : Poll) :
    ∃ n t, (i.atGate capacity).Hears (List.replicate n answer) t ∧
      (i.advanceWith answer).Reflected capacity t := by
  have honce : ∀ i : Ingest, i.gate.listens = true →
      ∃ n t, (i.atGate capacity).Hears (List.replicate n answer) t ∧
        (i.advance [answer]).Reflected capacity t := by
    intro i listens
    obtain ⟨heard, t, hheard, -, -, hears, reflected⟩ := hears_advance positive i listens [answer]
    rw [← List.replicate_one, List.prefix_replicate_iff] at hheard
    exact ⟨heard.length, t, hheard.2 ▸ hears, reflected⟩
  fun_induction Ingest.advanceWith i answer with
  | case1 i j result h => exact h ▸ honce i listens
  | case2 i j h hless ih =>
    obtain ⟨n, _, hears, rfl⟩ := h ▸ honce i listens
    obtain ⟨n', t, hlater, reflected⟩ := ih (listens_of_hears hears listens)
    have hboth := hears.trans hlater
    rw [List.replicate_append_replicate] at hboth
    exact ⟨n + n', t, hboth, reflected⟩
  | case3 i j h hless => exact h ▸ honce i listens

/-- The same from the start of a load on: the workers go to the gate, and the answers that they hear
are those that the one thread counts. -/
theorem hears_start (c : Config) (opened : TraceFile.Opened) (rereads : Bool)
    (positive : 0 < c.channelCapacity) (answers : List Poll) :
    let status := (start c opened rereads).advance answers
    ∃ heard t, heard <+: answers ∧ (∀ j, status = .waiting j → heard = answers) ∧
      status.polls = heard.length ∧ (Pipeline.start c opened rereads).Hears heard t ∧
      status.Reflected c.channelCapacity t := by
  obtain ⟨heard, t, hheard, hall, hpolls, hears, reflected⟩ :=
    hears_advance positive (start c opened rereads) rfl answers
  exact ⟨heard, t, hheard, hall, hpolls.trans (Nat.zero_add _),
    Hears.read (s := Pipeline.start c opened rereads) (.goToGate rfl rfl) hears, reflected⟩

/-- Whatever a load by one thread comes to, two workers can come to by hearing the same answers. -/
theorem exists_run_of_run (c : Config) (opened : TraceFile.Opened) (rereads : Bool)
    (memory : Forecast) (positive : 0 < c.channelCapacity) :
    ∃ moves t n, (Pipeline.start c opened rereads).run moves = some t ∧ .raise ∉ moves ∧
      moves.filterMap Move.answer? <+: memory.listed ++ List.replicate n memory.later ∧
      ((start c opened rereads).run memory).Reflected c.channelCapacity t := by
  suffices ∃ heard t n, (Pipeline.start c opened rereads).Hears heard t ∧
      heard <+: memory.listed ++ List.replicate n memory.later ∧
      ((start c opened rereads).run memory).Reflected c.channelCapacity t by
    obtain ⟨heard, t, n, ⟨moves, hrun, hraise, rfl⟩, hheard, reflected⟩ := this
    exact ⟨moves, t, n, hrun, hraise, hheard, reflected⟩
  obtain ⟨heard, t, hheard, hall, -, hears, reflected⟩ :=
    hears_start c opened rereads positive memory.listed
  unfold Ingest.run
  cases hadvance : (start c opened rereads).advance memory.listed with
  | ended j result =>
    rw [hadvance] at reflected
    exact ⟨heard, t, 0, hears, by simpa using hheard, reflected⟩
  | waiting j =>
    obtain rfl : t = j.atGate c.channelCapacity := by rwa [hadvance] at reflected
    obtain rfl := hall j hadvance
    have listens : j.gate.listens = true := by simpa [Pipeline.start] using hears.gate_listens
    obtain ⟨n, u, hlater, reflected⟩ := hears_advanceWith positive j listens memory.later
    exact ⟨_, u, n, hears.trans hlater, List.prefix_rfl, reflected⟩

end Ingest

end AccessTrace
