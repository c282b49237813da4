import Mathlib.Tactic.SplitIfs
import AccessTrace.Files.Buffer
import AccessTrace.Proofs.Computation

/-!
What is written through a buffer. A file that takes all it is given gets every piece, in order and
once; one that stays as it is whatever it is given still does so behind a buffer.
-/

namespace AccessTrace.Files.Buffer

variable {σ : Type} {sink : Sink (StateM σ)} {s : σ}

section Accepting

/-- A file takes all that it is given; `taken content s` says what it has taken so far. -/
def Accepts (sink : Sink (StateM σ)) (taken : Bytes → σ → Prop) : Prop :=
  ∀ content bytes s, taken content s →
    ∃ s', (sink bytes).run s = (.ok bytes.length, s') ∧ taken (content ++ bytes) s'

variable {taken : Bytes → σ → Prop} {content : Bytes}

theorem writeAll_of_accepts (h : Accepts sink taken) (hs : taken content s) (stuck : Fault)
    (bytes : Bytes) :
    ∃ s', (writeAll sink stuck bytes).run s = ((.ok (), []), s') ∧ taken (content ++ bytes) s' := by
  cases bytes with
  | nil =>
    rw [writeAll, List.append_nil]
    exact ⟨s, rfl, hs⟩
  | cons b rest =>
    obtain ⟨s', hsink, hs'⟩ := h content (b :: rest) s hs
    refine ⟨s', ?_, hs'⟩
    rw [writeAll, run_bind_of_run hsink]
    simp only [List.length_cons, List.drop_length]
    rw [writeAll]
    rfl

theorem put_of_accepts (h : Accepts sink taken) (hs : taken content s) (waiting piece : Bytes) :
    ∃ content' waiting' s', (put sink waiting piece).run s = ((.ok (), waiting'), s') ∧
      taken content' s' ∧ content' ++ waiting' = content ++ waiting ++ piece := by
  unfold put
  split_ifs with hfits hsmall
  · exact ⟨content, waiting ++ piece, s, rfl, hs, (List.append_assoc _ _ _).symm⟩
  · obtain ⟨s', hwrite, hs'⟩ := writeAll_of_accepts h hs stuckWaiting waiting
    refine ⟨content ++ waiting, piece, s', ?_, hs', rfl⟩
    rw [run_bind_of_run hwrite]
    rfl
  · obtain ⟨s', hwrite, hs'⟩ := writeAll_of_accepts h hs stuckWaiting waiting
    obtain ⟨s'', hwrite', hs''⟩ := writeAll_of_accepts h hs' stuckPiece piece
    refine ⟨content ++ waiting ++ piece, [], s'', ?_, hs'', List.append_nil _⟩
    rw [run_bind_of_run hwrite]
    simp only
    rw [run_bind_of_run hwrite']
    rfl

theorem putAll_of_accepts (h : Accepts sink taken) (hs : taken content s) (waiting : Bytes)
    (pieces : List Bytes) :
    ∃ content' waiting' s', (putAll sink waiting pieces).run s = ((.ok (), waiting'), s') ∧
      taken content' s' ∧ content' ++ waiting' = content ++ waiting ++ pieces.flatten := by
  induction pieces generalizing content waiting s with
  | nil => exact ⟨content, waiting, s, rfl, hs, (List.append_nil _).symm⟩
  | cons piece pieces ih =>
    obtain ⟨content₁, waiting₁, s₁, hput, hs₁, heq₁⟩ := put_of_accepts h hs waiting piece
    obtain ⟨content₂, waiting₂, s₂, hputAll, hs₂, heq₂⟩ := ih hs₁ waiting₁
    refine ⟨content₂, waiting₂, s₂, ?_, hs₂, ?_⟩
    · rw [putAll, run_bind_of_run hput]
      exact hputAll
    · rw [heq₂, heq₁, List.flatten_cons, List.append_assoc _ piece]

theorem write_of_accepts (h : Accepts sink taken) (hs : taken content s) (pieces : List Bytes) :
    ∃ s', (write sink pieces).run s = (.ok (), s') ∧ taken (content ++ pieces.flatten) s' := by
  obtain ⟨content₁, waiting₁, s₁, hputAll, hs₁, heq₁⟩ := putAll_of_accepts h hs [] pieces
  obtain ⟨s₂, hwrite, hs₂⟩ := writeAll_of_accepts h hs₁ stuckWaiting waiting₁
  rw [List.append_nil] at heq₁
  refine ⟨s₂, ?_, heq₁ ▸ hs₂⟩
  rw [write, run_bind_of_run hputAll]
  simp only
  rw [run_bind_of_run hwrite]
  rfl

end Accepting

section Idle

def Idle (sink : Sink (StateM σ)) (s : σ) : Prop :=
  ∀ bytes, ∃ answer, (sink bytes).run s = (answer, s)

theorem writeAll_of_idle (h : Idle sink s) (stuck : Fault) (bytes : Bytes) :
    ∃ answer, (writeAll sink stuck bytes).run s = (answer, s) := by
  induction hlength : bytes.length using Nat.strongRecOn generalizing bytes with
  | ind length ih =>
    cases bytes with
    | nil =>
      rw [writeAll]
      exact ⟨_, rfl⟩
    | cons b rest =>
      obtain ⟨answer, hsink⟩ := h (b :: rest)
      rw [writeAll, run_bind_of_run hsink]
      cases answer with
      | error fault => exact ⟨_, rfl⟩
      | ok taken =>
        cases taken with
        | zero => exact ⟨_, rfl⟩
        | succ taken =>
          refine ih _ ?_ (rest.drop taken) rfl
          rw [← hlength, List.length_drop, List.length_cons]
          omega

theorem put_of_idle (h : Idle sink s) (waiting piece : Bytes) :
    ∃ answer, (put sink waiting piece).run s = (answer, s) := by
  unfold put
  split_ifs with hfits
  · exact ⟨_, rfl⟩
  all_goals
    obtain ⟨⟨answer, rest⟩, hwrite⟩ := writeAll_of_idle h stuckWaiting waiting
    rw [run_bind_of_run hwrite]
  · cases answer <;> exact ⟨_, rfl⟩
  · cases answer with
    | error fault => exact ⟨_, rfl⟩
    | ok =>
      obtain ⟨answer, hwrite'⟩ := writeAll_of_idle h stuckPiece piece
      simp only
      rw [run_bind_of_run hwrite']
      exact ⟨_, rfl⟩

theorem putAll_of_idle (h : Idle sink s) (waiting : Bytes) (pieces : List Bytes) :
    ∃ answer, (putAll sink waiting pieces).run s = (answer, s) := by
  induction pieces generalizing waiting with
  | nil => exact ⟨_, rfl⟩
  | cons piece pieces ih =>
    obtain ⟨⟨answer, waiting'⟩, hput⟩ := put_of_idle h waiting piece
    rw [putAll, run_bind_of_run hput]
    cases answer with
    | error fault => exact ⟨_, rfl⟩
    | ok => exact ih waiting'

theorem write_of_idle (h : Idle sink s) (pieces : List Bytes) :
    ∃ answer, (write sink pieces).run s = (answer, s) := by
  obtain ⟨⟨answer, waiting⟩, hputAll⟩ := putAll_of_idle h [] pieces
  obtain ⟨answer', hwrite⟩ := writeAll_of_idle h stuckWaiting waiting
  rw [write, run_bind_of_run hputAll]
  simp only
  rw [run_bind_of_run hwrite]
  exact ⟨_, rfl⟩

end Idle

end AccessTrace.Files.Buffer
