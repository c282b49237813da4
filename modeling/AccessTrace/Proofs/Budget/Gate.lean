import Mathlib.Data.Stream.Init
import AccessTrace.Budget

/-!
How a wait at the gate ends, whatever stream of answers it is given. The first answer that decides
ends it, unless the limit is reached before; a flag that is up ends it before anything is asked.
What is spare is figured in unbounded numbers; `Budget.margin` says for which shares words give the
same.
-/

namespace AccessTrace.Gate

/-- An answer that ends the wait: the state of memory cannot be had, enough is spare, or the flag
goes up to which the gate listens. -/
def Decides (g : Gate) (minSpareMb : Int64) (p : Poll) : Prop :=
  p.snapshot = none ∨ (∃ s, p.snapshot = some s ∧ minSpareMb ≤ g.budget.spareMb s) ∨
    g.listens = true ∧ p.raisesShutdown = true

def behind (g : Gate) (polls : List Poll) : Gate :=
  { g with raised := g.raised || polls.any Poll.raisesShutdown }

/-- The wait takes the answers in front and no more, whatever follows: it goes on as long as one of
them is missing, and then it ends. -/
structure Takes (g : Gate) (minSpareMb : Int64) (limit : Option Nat) (front : List Poll)
    (outcome : Outcome) : Prop where
  waits : ∀ n < front.length, (g.await minSpareMb limit (front.take n)).outcome = none
  ends : ∀ rest, g.await minSpareMb limit (front ++ rest) =
    ⟨some outcome, front.length, g.behind front, rest⟩

structure DecidedBy (g : Gate) (minSpareMb : Int64) (limit : Option Nat) (answers : Stream' Poll)
    (k : Nat) : Prop where
  down : g.cancelled = false
  decides : g.Decides minSpareMb (answers.get k)
  undecided : ∀ j < k, ¬ g.Decides minSpareMb (answers.get j)
  within : ∀ m ∈ limit, k < m

variable {g : Gate} {minSpareMb : Int64} {limit : Option Nat} {made : Nat} {p : Poll}
  {polls rest : List Poll} {s : Snapshot} {outcome : Outcome}

theorem behind_nil (g : Gate) : g.behind [] = g := by
  rw [behind, List.any_nil, Bool.or_false]

theorem behind_cons (g : Gate) (p : Poll) (polls : List Poll) :
    g.behind (p :: polls) = (g.hear p).behind polls := by
  rw [behind, behind, hear, List.any_cons, Bool.or_assoc]

theorem behind_concat (g : Gate) (polls : List Poll) (p : Poll) :
    g.behind (polls ++ [p]) = (g.behind polls).hear p := by
  rw [behind, behind, hear, List.any_append, List.any_cons, List.any_nil, Bool.or_false,
    Bool.or_assoc]

theorem judge_of_failed (h : p.snapshot = none) : g.judge minSpareMb p = some .unknown := by
  rw [judge, spare?, h, Option.map_none]

theorem judge_of_some (h : p.snapshot = some s) :
    g.judge minSpareMb p =
      if minSpareMb ≤ g.budget.spareMb s then some (.satisfied (g.budget.spareMb s)) else none := by
  rw [judge, spare?, h, Option.map_some]

theorem judge_cases (h : g.judge minSpareMb p = some outcome) :
    outcome = .unknown ∨ ∃ spareMb, outcome = .satisfied spareMb := by
  cases hs : p.snapshot with
  | none =>
    rw [judge_of_failed hs] at h
    exact .inl (Option.some.inj h).symm
  | some s =>
    rw [judge_of_some hs] at h
    split at h
    · exact .inr ⟨_, (Option.some.inj h).symm⟩
    · contradiction

theorem judge_of_undecided (h : ¬ g.Decides minSpareMb p) : g.judge minSpareMb p = none := by
  rw [Decides, not_or, not_or] at h
  obtain ⟨s, hs⟩ := Option.ne_none_iff_exists'.1 h.1
  rw [judge_of_some hs, if_neg fun hle => h.2.1 ⟨s, hs, hle⟩]

theorem cancelled_hear (g : Gate) (p : Poll) :
    (g.hear p).cancelled = (g.cancelled || g.listens && p.raisesShutdown) :=
  Bool.and_or_distrib_left _ _ _

theorem cancelled_hear_of_undecided (hdown : g.cancelled = false) (h : ¬ g.Decides minSpareMb p) :
    (g.hear p).cancelled = false := by
  rw [cancelled_hear, hdown, Bool.false_or, Bool.eq_false_iff, ne_eq, Bool.and_eq_true]
  exact fun hraises => h (.inr (.inr hraises))

section Steps

theorem within_none (made : Nat) : ∀ m ∈ (none : Option Nat), made < m :=
  nofun

theorem awaitFrom_of_cancelled (h : g.cancelled = true) :
    g.awaitFrom minSpareMb limit made polls = ⟨some .cancelled, made, g, polls⟩ := by
  rw [awaitFrom.eq_def, if_pos h]

theorem awaitFrom_of_limit (hdown : g.cancelled = false) :
    g.awaitFrom minSpareMb (some made) made polls = ⟨some (.exhausted made), made, g, polls⟩ := by
  rw [awaitFrom.eq_def, hdown, if_neg Bool.false_ne_true, if_pos (by simp)]

variable (hdown : g.cancelled = false) (hwithin : ∀ m ∈ limit, made < m)
include hwithin

theorem any_le_of_within : limit.any (· ≤ made) = false := by
  rw [Option.any_eq_false]
  exact fun m hm => decide_eq_false (Nat.not_le.2 (hwithin m hm))

include hdown

theorem awaitFrom_nil : g.awaitFrom minSpareMb limit made [] = ⟨none, made, g, []⟩ := by
  simp only [awaitFrom.eq_def, hdown, any_le_of_within hwithin, Bool.false_eq_true, if_false]

theorem awaitFrom_of_judge (h : g.judge minSpareMb p = some outcome) :
    g.awaitFrom minSpareMb limit made (p :: rest) = ⟨some outcome, made + 1, g.hear p, rest⟩ := by
  rw [awaitFrom.eq_def]
  simp only [hdown, any_le_of_within hwithin, Bool.false_eq_true, if_false, h]

theorem awaitFrom_of_judge_none (h : g.judge minSpareMb p = none) :
    g.awaitFrom minSpareMb limit made (p :: rest) =
      (g.hear p).awaitFrom minSpareMb limit (made + 1) rest := by
  rw [awaitFrom.eq_def]
  simp only [hdown, any_le_of_within hwithin, Bool.false_eq_true, if_false, h]

end Steps

theorem awaitFrom_of_undecided (made : Nat) (hdown : g.cancelled = false)
    (hpolls : ∀ p ∈ polls, ¬ g.Decides minSpareMb p)
    (hwithin : ∀ m ∈ limit, made + polls.length ≤ m) (rest : List Poll) :
    g.awaitFrom minSpareMb limit made (polls ++ rest) =
        (g.behind polls).awaitFrom minSpareMb limit (made + polls.length) rest ∧
      (g.behind polls).cancelled = false := by
  induction polls generalizing g made with
  | nil => exact ⟨by rw [behind_nil]; rfl, by rw [behind_nil]; exact hdown⟩
  | cons p polls ih =>
    rw [List.forall_mem_cons] at hpolls
    rw [List.length_cons, Nat.add_comm polls.length, ← Nat.add_assoc] at hwithin ⊢
    have hroom : ∀ m ∈ limit, made < m := fun m hm =>
      Nat.lt_of_lt_of_le (by omega) (hwithin m hm)
    rw [List.cons_append, behind_cons,
      awaitFrom_of_judge_none hdown hroom (judge_of_undecided hpolls.1)]
    exact ih (made + 1) (cancelled_hear_of_undecided hdown hpolls.1) hpolls.2 hwithin

theorem polls_awaitFrom_le {m : Nat} (hmade : made ≤ m) :
    (g.awaitFrom minSpareMb (some m) made polls).polls ≤ m := by
  fun_induction awaitFrom minSpareMb (some m) made g polls with
  | case1 | case2 | case3 => exact hmade
  | case4 made g hcancelled hlimit p rest outcome hjudge =>
    exact Nat.succ_le_of_lt (by simpa using hlimit)
  | case5 made g hcancelled hlimit p rest hjudge ih =>
    exact ih (Nat.succ_le_of_lt (by simpa using hlimit))

theorem awaitFrom_ne_exhausted (n : Nat) :
    (g.awaitFrom minSpareMb none made polls).outcome ≠ some (.exhausted n) := by
  fun_induction awaitFrom minSpareMb none made g polls with
  | case1 | case3 => simp
  | case2 made g polls hcancelled hlimit => simp at hlimit
  | case4 made g hcancelled hlimit p rest outcome hjudge =>
    rcases judge_cases hjudge with rfl | ⟨spareMb, rfl⟩ <;> simp
  | case5 made g hcancelled hlimit p rest hjudge ih => exact ih

section Stream

variable {answers : Stream' Poll} {k : Nat}

theorem undecided_of_mem_take (h : ∀ j < k, ¬ g.Decides minSpareMb (answers.get j)) :
    ∀ p ∈ answers.take k, ¬ g.Decides minSpareMb p := by
  intro p hp
  obtain ⟨j, hj, rfl⟩ := List.mem_iff_getElem.1 hp
  rw [Stream'.length_take] at hj
  rw [(List.getElem_eq_iff _).2 (Stream'.getElem?_take hj)]
  exact h j hj

variable (hdown : g.cancelled = false)
  (hundecided : ∀ j < k, ¬ g.Decides minSpareMb (answers.get j))
include hdown hundecided

theorem await_take_append (hwithin : ∀ m ∈ limit, k ≤ m) (rest : List Poll) :
    g.await minSpareMb limit (answers.take k ++ rest) =
        (g.behind (answers.take k)).awaitFrom minSpareMb limit k rest ∧
      (g.behind (answers.take k)).cancelled = false := by
  have hlength : 0 + (answers.take k).length = k := by
    rw [Stream'.length_take, Nat.zero_add]
  have hpast := awaitFrom_of_undecided 0 hdown (undecided_of_mem_take hundecided)
    (by rwa [hlength]) rest
  rwa [hlength] at hpast

theorem await_take (hwithin : ∀ m ∈ limit, k < m) :
    g.await minSpareMb limit (answers.take k) = ⟨none, k, g.behind (answers.take k), []⟩ := by
  obtain ⟨hpast, hdown'⟩ :=
    await_take_append hdown hundecided (fun m hm => Nat.le_of_lt (hwithin m hm)) []
  rw [List.append_nil] at hpast
  rw [hpast, awaitFrom_nil hdown' hwithin]

theorem takes_of_limit : g.Takes minSpareMb (some k) (answers.take k) (.exhausted k) := by
  have hlength := Stream'.length_take k answers
  constructor
  case waits =>
    intro n hn
    rw [hlength] at hn
    -- With fewer answers there is room for another one, so the limit has no say yet.
    rw [Stream'.take_take, Nat.min_eq_right (Nat.le_of_lt hn),
      await_take hdown (fun j hj => hundecided j (Nat.lt_trans hj hn))]
    rintro m ⟨⟩
    exact hn
  case ends =>
    intro rest
    have hroom : ∀ m ∈ some k, k ≤ m := by
      rintro m ⟨⟩
      exact Nat.le_refl k
    obtain ⟨hpast, hdown'⟩ := await_take_append hdown hundecided hroom rest
    rw [hpast, awaitFrom_of_limit hdown', hlength]

omit hdown hundecided

theorem DecidedBy.takes (h : g.DecidedBy minSpareMb limit answers k)
    (hends : ∀ rest, (g.behind (answers.take k)).cancelled = false →
      (g.behind (answers.take k)).awaitFrom minSpareMb limit k (answers.get k :: rest) =
        ⟨some outcome, k + 1, (g.behind (answers.take k)).hear (answers.get k), rest⟩) :
    g.Takes minSpareMb limit (answers.take (k + 1)) outcome := by
  have hlength := Stream'.length_take (k + 1) answers
  constructor
  case waits =>
    intro n hn
    rw [hlength] at hn
    rw [Stream'.take_take, Nat.min_eq_right (Nat.le_of_lt hn),
      await_take h.down (fun j hj => h.undecided j (by omega))
        (fun m hm => Nat.lt_of_le_of_lt (Nat.le_of_lt_succ hn) (h.within m hm))]
  case ends =>
    intro rest
    obtain ⟨hpast, hdown⟩ := await_take_append h.down h.undecided
      (fun m hm => Nat.le_of_lt (h.within m hm)) (answers.get k :: rest)
    rw [hlength, Stream'.take_succ', behind_concat, List.append_assoc, List.singleton_append,
      hpast, hends rest hdown]

theorem DecidedBy.takes_of_judge (h : g.DecidedBy minSpareMb limit answers k)
    (hjudge : g.judge minSpareMb (answers.get k) = some outcome) :
    g.Takes minSpareMb limit (answers.take (k + 1)) outcome :=
  h.takes fun _ hdown => awaitFrom_of_judge hdown h.within hjudge

theorem DecidedBy.takes_of_raised (h : g.DecidedBy minSpareMb limit answers k)
    (hs : (answers.get k).snapshot = some s) (hshort : ¬ minSpareMb ≤ g.budget.spareMb s) :
    g.Takes minSpareMb limit (answers.take (k + 1)) .cancelled := by
  have hjudge : g.judge minSpareMb (answers.get k) = none := by
    rw [judge_of_some hs, if_neg hshort]
  have hraised : (g.listens && (answers.get k).raisesShutdown) = true := by
    rw [Bool.and_eq_true]
    rcases h.decides with hnone | ⟨s', hs', hle⟩ | hraised
    · rw [hs] at hnone
      contradiction
    · obtain rfl := Option.some.inj (hs.symm.trans hs')
      exact absurd hle hshort
    · exact hraised
  -- The flag is looked at before the limit, so it does not matter whether room is left.
  refine h.takes fun rest hdown => ?_
  have hcancelled : ((g.behind (answers.take k)).hear (answers.get k)).cancelled = true := by
    rw [cancelled_hear, hdown, Bool.false_or]
    exact hraised
  rw [awaitFrom_of_judge_none hdown h.within hjudge, awaitFrom_of_cancelled hcancelled]

end Stream

structure Ends (g : Gate) (minSpareMb : Int64) (limit : Option Nat) (answers : Stream' Poll) :
    Prop where
  bounded : ∀ m ∈ limit, ∀ n, (g.await minSpareMb limit (answers.take n)).polls ≤ m
  cancelled : g.cancelled = true → g.Takes minSpareMb limit [] .cancelled
  unknown : ∀ k, g.DecidedBy minSpareMb limit answers k → (answers.get k).snapshot = none →
    g.Takes minSpareMb limit (answers.take (k + 1)) .unknown
  satisfied : ∀ k s, g.DecidedBy minSpareMb limit answers k →
    (answers.get k).snapshot = some s → minSpareMb ≤ g.budget.spareMb s →
      g.Takes minSpareMb limit (answers.take (k + 1)) (.satisfied (g.budget.spareMb s))
  raised : ∀ k s, g.DecidedBy minSpareMb limit answers k →
    (answers.get k).snapshot = some s → ¬ minSpareMb ≤ g.budget.spareMb s →
      g.Takes minSpareMb limit (answers.take (k + 1)) .cancelled
  exhausted : g.cancelled = false → ∀ m ∈ limit,
    (∀ k < m, ¬ g.Decides minSpareMb (answers.get k)) →
      g.Takes minSpareMb limit (answers.take m) (.exhausted m)
  endless : g.cancelled = false → limit = none →
    (∀ k, ¬ g.Decides minSpareMb (answers.get k)) →
      ∀ n, (g.await minSpareMb limit (answers.take n)).outcome = none
  unlimited : limit = none → ∀ n made,
    (g.await minSpareMb limit (answers.take n)).outcome ≠ some (.exhausted made)

/-- A flag that is up wins over everything. Otherwise the first answer that decides ends the wait,
and says itself how unless it only raises the flag; without one within the limit, the limit does. -/
theorem ends_of_answers (g : Gate) (minSpareMb : Int64) (limit : Option Nat)
    (answers : Stream' Poll) : g.Ends minSpareMb limit answers := by
  constructor
  case bounded =>
    rintro m ⟨⟩ n
    exact polls_awaitFrom_le (Nat.zero_le m)
  case cancelled =>
    intro h
    refine ⟨nofun, fun rest => ?_⟩
    rw [List.nil_append, behind_nil]
    exact awaitFrom_of_cancelled h
  case unknown => exact fun k h hnone => h.takes_of_judge (judge_of_failed hnone)
  case satisfied =>
    intro k s h hs hle
    exact h.takes_of_judge (by rw [judge_of_some hs, if_pos hle])
  case raised => exact fun k s h hs hshort => h.takes_of_raised hs hshort
  case exhausted =>
    rintro hdown m ⟨⟩ hundecided
    exact takes_of_limit hdown hundecided
  case endless =>
    rintro hdown rfl hundecided n
    rw [await_take hdown (fun k _ => hundecided k) (by simp)]
  case unlimited =>
    rintro rfl n made
    exact awaitFrom_ne_exhausted made

/-- An answer that is enough passes although the flag goes up with it, and a flag that goes up with
the last answer wins over the limit. -/
example :
    let g : Gate := { budget := {}, listens := true, raised := false }
    let enough : Poll := ⟨some ⟨0, 1073741824, 0, 0⟩, true⟩
    let short : Poll := ⟨some ⟨0, 0, 0, 0⟩, true⟩
    (g.await 500 (some 1) [enough]).outcome = some (.satisfied 924) ∧
      (g.await 500 (some 1) [short]).outcome = some .cancelled := by
  decide +kernel

end AccessTrace.Gate
