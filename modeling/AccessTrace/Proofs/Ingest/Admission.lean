import Mathlib.Data.List.Count
import Mathlib.Data.Nat.Nth
import AccessTrace.Proofs.Budget.Gate
import AccessTrace.Proofs.Ingest.Books
import AccessTrace.Proofs.Ingest.Cancellation

/-!
What a reader makes of the answers about memory. Each answer that lets it through is followed by one
block before another answer is heard. So the answers heard tell how many blocks were read, whichever
turns the workers take.
-/

namespace AccessTrace

namespace Budget

/-- An answer that lets a reader through: the state of memory cannot be had, or enough is spare. -/
def Admits (b : Budget) (p : Poll) : Prop :=
  p.snapshot = none ∨ ∃ s, p.snapshot = some s ∧ b.minSpareMb ≤ b.spareMb s

theorem isSome_judge_iff {g : Gate} {p : Poll} :
    (g.judge g.budget.minSpareMb p).isSome = true ↔ g.budget.Admits p := by
  cases hs : p.snapshot with
  | none => simp [Gate.judge_of_failed hs, Admits, hs]
  | some s =>
    rw [Gate.judge_of_some hs]
    split <;> simp [Admits, *]

instance (b : Budget) (p : Poll) : Decidable (b.Admits p) :=
  decidable_of_iff _ (isSome_judge_iff (g := ⟨b, true, false⟩))

/-- Answers without end that leave the flag alone and let a reader through again and again. -/
structure Serves (b : Budget) (answers : Stream' Poll) : Prop where
  quiet : ∀ n, (answers.get n).raisesShutdown = false
  often : ∀ n, ∃ k, n ≤ k ∧ b.Admits (answers.get k)

/-- How many of the first answers let a reader through. -/
def admissions (b : Budget) (answers : Stream' Poll) (n : Nat) : Nat :=
  Nat.count (fun k => b.Admits (answers.get k)) n

/-- The place of an answer that lets a reader through, by its number among these. -/
noncomputable def admission (b : Budget) (answers : Stream' Poll) (k : Nat) : Nat :=
  Nat.nth (fun n => b.Admits (answers.get n)) k

noncomputable def failures (b : Budget) (answers : Stream' Poll) (k : Nat) : Nat :=
  (List.range k).countP fun j => (answers.get (b.admission answers j)).snapshot.isNone

variable {b : Budget} {answers : Stream' Poll} {n k : Nat}

theorem Serves.infinite (h : b.Serves answers) :
    (Set.ofPred fun n => b.Admits (answers.get n)).Infinite :=
  Set.infinite_of_forall_exists_gt fun n =>
    let ⟨k, hle, hadmits⟩ := h.often (n + 1)
    ⟨k, hadmits, hle⟩

theorem Serves.admissions_le_iff (h : b.Serves answers) :
    b.admissions answers n ≤ k ↔ n ≤ b.admission answers k :=
  Nat.count_le_iff_le_nth h.infinite

theorem Serves.admission_mono (h : b.Serves answers) : Monotone (b.admission answers) :=
  Nat.nth_monotone h.infinite

theorem admissions_succ (b : Budget) (answers : Stream' Poll) (n : Nat) :
    b.admissions answers (n + 1) =
      b.admissions answers n + if b.Admits (answers.get n) then 1 else 0 :=
  Nat.count_succ _ n

theorem admission_admissions (h : b.Admits (answers.get n)) :
    b.admission answers (b.admissions answers n) = n :=
  Nat.nth_count h

end Budget

namespace Ingest

variable {b : Budget} {answers : Stream' Poll} {n m : Nat}

theorem outcomes_singleton_of_admits {p : Poll} (h : b.Admits p) :
    (outcomes b [p]).map some = [Gate.judge ⟨b, true, false⟩ b.minSpareMb p] := by
  rw [outcomes_singleton (g := ⟨b, true, false⟩)]
  obtain ⟨outcome, houtcome⟩ := Option.isSome_iff_exists.1
    ((Budget.isSome_judge_iff (g := ⟨b, true, false⟩)).2 h)
  rw [houtcome]
  rfl

theorem length_outcomes_singleton_of_admits {p : Poll} (h : b.Admits p) :
    (outcomes b [p]).length = 1 := by
  simpa using congrArg List.length (outcomes_singleton_of_admits h)

theorem outcomes_singleton_of_not_admits {p : Poll} (h : ¬b.Admits p) : outcomes b [p] = [] := by
  rw [outcomes_singleton (g := ⟨b, true, false⟩)]
  rw [← Budget.isSome_judge_iff (g := ⟨b, true, false⟩), Bool.not_eq_true, Option.isSome_eq_false_iff,
    Option.isNone_iff_eq_none] at h
  rw [h]
  rfl

theorem map_some_outcomes_take (b : Budget) (answers : Stream' Poll) (n : Nat) :
    (outcomes b (answers.take n)).map some = (List.range (b.admissions answers n)).map fun k =>
      Gate.judge ⟨b, true, false⟩ b.minSpareMb (answers.get (b.admission answers k)) := by
  induction n with
  | zero => rfl
  | succ n ih =>
    rw [Stream'.take_succ', outcomes_append, List.map_append, ih, Budget.admissions_succ]
    by_cases h : b.Admits (answers.get n)
    · rw [if_pos h, outcomes_singleton_of_admits h, List.range_succ, List.map_append,
        List.map_singleton, Budget.admission_admissions h]
    · rw [if_neg h, outcomes_singleton_of_not_admits h]
      exact List.append_nil _

theorem length_outcomes_take :
    (outcomes b (answers.take n)).length = b.admissions answers n := by
  simpa using congrArg List.length (map_some_outcomes_take b answers n)

theorem judge_eq_unknown_iff {g : Gate} {minSpareMb : Int64} {p : Poll} :
    g.judge minSpareMb p = some .unknown ↔ p.snapshot = none := by
  cases hs : p.snapshot with
  | none => simp [Gate.judge_of_failed hs]
  | some s =>
    rw [Gate.judge_of_some hs]
    split <;> simp

theorem count_unknown_outcomes_take (h : m ≤ b.admissions answers n) :
    ((outcomes b (answers.take n)).take m).count .unknown = b.failures answers m := by
  have hfirst : ((outcomes b (answers.take n)).take m).map some = (List.range m).map fun k =>
      Gate.judge ⟨b, true, false⟩ b.minSpareMb (answers.get (b.admission answers k)) := by
    rw [List.map_take, map_some_outcomes_take, ← List.map_take, List.take_range, Nat.min_eq_left h]
  rw [← List.count_map_of_injective _ _ (Option.some_injective _), hfirst, List.count_eq_countP,
    List.countP_map]
  refine List.countP_congr fun k _ => ?_
  simp [judge_eq_unknown_iff]

end Ingest

namespace Pipeline

def ReaderPhase.admitted : ReaderPhase → Bool
  | .atBlock _ | .ended _ => true
  | _ => false

theorem admitted_of_readerGone {s : Pipeline} (h : s.readerGone = true) :
    s.reader.admitted = true := by
  obtain ⟨outcome, reader⟩ := exists_ended_of_readerGone h
  rw [reader, ReaderPhase.admitted]

theorem admitted_of_turn {s t : Pipeline} {move : Move} (turn : Turn s move t)
    (h : t.stats.blocks ≠ s.stats.blocks) :
    s.reader.admitted = true ∧ t.stats.blocks = s.stats.blocks + 1 := by
  cases turn with
  | block reader =>
    exact ⟨by rw [reader, ReaderPhase.admitted], by simp [Ingest.Stats.addBlock, blocks_addWait]⟩
  | badPayload => exact absurd (blocks_addWait _ _) h
  | _ => exact absurd rfl h

/-- The pace of a reader that nobody stops. It has read a block for each answer that let it through,
except for the last answer of a reader that is about to read or at the end. -/
inductive Paced (b : Budget) (heard : List Poll) (s : Pipeline) : Prop
  | between (reader : s.reader.admitted = false)
      (blocks : (Ingest.outcomes b heard).length = s.stats.blocks)
  | admitted {front : List Poll} {answer : Poll} (reader : s.reader.admitted = true)
      (last : heard = front ++ [answer]) (admits : b.Admits answer)
      (blocks : (Ingest.outcomes b front).length = s.stats.blocks)

variable {b : Budget} {c : Config} {opened : TraceFile.Opened} {rereads : Bool} {heard : List Poll}
  {answers : Stream' Poll} {n : Nat} {s t : Pipeline} {move : Move} {moves : List Move}

theorem Paced.blocks_of_between (h : Paced b heard s) (reader : s.reader.admitted = false) :
    (Ingest.outcomes b heard).length = s.stats.blocks := by
  cases h with
  | between _ blocks => exact blocks
  | admitted reader' => simp [reader] at reader'

theorem Paced.exists_last (h : Paced b heard s) (reader : s.reader.admitted = true) :
    ∃ front answer, heard = front ++ [answer] ∧ b.Admits answer ∧
      (Ingest.outcomes b front).length = s.stats.blocks := by
  cases h with
  | between reader' => simp [reader] at reader'
  | admitted _ last admits blocks => exact ⟨_, _, last, admits, blocks⟩

theorem Paced.same (h : Paced b heard s) (reader : t.reader = s.reader)
    (blocks : t.stats.blocks = s.stats.blocks) : Paced b heard t := by
  cases h with
  | between reader' blocks' => exact .between (reader ▸ reader') (blocks ▸ blocks')
  | admitted reader' last admits blocks' =>
    exact .admitted (reader ▸ reader') last admits (blocks ▸ blocks')

theorem Paced.silent (h : Paced b heard t) (silent : move.answer? = none) :
    Paced b (heard ++ move.answer?.toList) t := by
  rwa [silent, Option.toList_none, List.append_nil]

theorem Paced.step (h : Paced b heard s) (turn : Turn s move t) (budget : s.gate.budget = b)
    (down : t.raised = false) (present : s.readerGone = false → s.processorGone = false) :
    Paced b (heard ++ move.answer?.toList) t := by
  cases turn with
  | giveUp reader raised => exact absurd raised (Bool.eq_false_iff.1 down)
  | cancel reader cancelled =>
    exact absurd (Bool.and_eq_true_iff.1 cancelled).2 (Bool.eq_false_iff.1 down)
  | goToGate reader | send reader =>
    exact Paced.silent (.between rfl (h.blocks_of_between (by rw [reader]; rfl))) rfl
  | @wait answer reader waiting refused =>
    refine .between rfl ?_
    rw [← h.blocks_of_between (by rw [reader]; rfl), Move.answer?, Option.toList_some,
      Ingest.outcomes_append, ← budget, Ingest.outcomes_singleton, refused, Option.toList_none,
      List.append_nil]
  | pass reader waiting granted =>
    refine .admitted rfl rfl ?_ (h.blocks_of_between (by rw [reader]; rfl))
    rw [← budget, ← Budget.isSome_judge_iff, granted]
    rfl
  | badBlock reader | noBlock reader | badPayload reader =>
    obtain ⟨front, answer, rfl, admits, blocks⟩ := h.exists_last (by rw [reader]; rfl)
    exact Paced.silent (.admitted rfl rfl admits (by simpa [blocks_addWait] using blocks)) rfl
  | block reader =>
    obtain ⟨front, answer, rfl, admits, blocks⟩ := h.exists_last (by rw [reader]; rfl)
    refine Paced.silent (.between rfl ?_) rfl
    rw [Ingest.outcomes_append, List.length_append, Ingest.length_outcomes_singleton_of_admits admits,
      blocks]
    simp [Ingest.Stats.addBlock, blocks_addWait]
  | sendToNobody reader gone =>
    rw [present (by simp [readerGone, reader])] at gone
    contradiction
  | raise => contradiction
  | receive | runDry | drop | check | refuse | accept | publish | fail | leave =>
    exact Paced.silent (h.same rfl rfl) rfl

/-- However the workers take turns, the reader keeps the pace while the flag is down. -/
theorem paced_of_run (hrun : (start c opened rereads).run moves = some s) (down : s.raised = false) :
    Paced c.budget (moves.filterMap Move.answer?) s := by
  have hkept := keeps_of_hearing_run
    (P := fun heard u => (∃ done read, Sound c opened rereads done read u) ∧
      u.gate.budget = c.budget ∧ (u.raised = false → Paced c.budget heard u)) ?_ [] hrun
    ⟨⟨_, _, sound_start c opened rereads⟩, rfl, fun _ => .between rfl rfl⟩
  · exact hkept.2.2 down
  · rintro heard u v move turn ⟨⟨done, read, sound⟩, budget, paced⟩
    refine ⟨sound.step turn, (gate_of_turn turn).2.trans budget, fun down => ?_⟩
    have before : u.raised = false :=
      Bool.eq_false_iff.2 fun raised => by simp [raised_of_turn turn raised] at down
    refine (paced before).step turn budget down fun here => Bool.eq_false_iff.2 fun gone => ?_
    simp [sound.progress.raised_of_gone here gone] at before

theorem Paced.blocks_eq (h : Paced b (answers.take n) s) (reader : s.reader.admitted = false) :
    s.stats.blocks = b.admissions answers n := by
  rw [← h.blocks_of_between reader, Ingest.length_outcomes_take]

theorem Paced.heard_eq (h : Paced b (answers.take n) s) (reader : s.reader.admitted = true) :
    n = b.admission answers s.stats.blocks + 1 ∧ b.admissions answers n = s.stats.blocks + 1 := by
  obtain ⟨front, answer, last, admits, blocks⟩ := h.exists_last reader
  cases n with
  | zero => simp at last
  | succ n =>
    rw [Stream'.take_succ'] at last
    obtain ⟨rfl, hanswer⟩ := List.append_inj' last rfl
    obtain rfl := List.singleton_inj.1 hanswer
    rw [Ingest.length_outcomes_take] at blocks
    rw [← blocks, Budget.admission_admissions admits, Budget.admissions_succ, if_pos admits]
    exact ⟨rfl, rfl⟩

end Pipeline

end AccessTrace
