import AccessTrace.Proofs.Files.Buffer

/-!
Writing through a buffer to a file that may fail at any moment. The file gets the first of the bytes
in any case. A fault on the way is told, and bytes are missing then; no more bytes than the buffer
holds can be missing when none is told.
-/

namespace AccessTrace.Files.Buffer

variable {σ : Type} {sink : Sink (StateM σ)} {holds : Bytes → σ → Prop} {s : σ}
  {content waiting : Bytes}

/-- What a file does that holds some content and is given some bytes: it takes the first of them, or
fails and takes none. -/
inductive Takes (holds : Bytes → σ → Prop) (content bytes : Bytes) : Except Fault Nat × σ → Prop
  | some {n : Nat} {s : σ} (hn : n ≤ bytes.length) (hs : holds (content ++ bytes.take n) s) :
    Takes holds content bytes (.ok n, s)
  | none {fault : Fault} {s : σ} (hs : holds content s) : Takes holds content bytes (.error fault, s)

def Records (sink : Sink (StateM σ)) (holds : Bytes → σ → Prop) : Prop :=
  ∀ content bytes s, holds content s → Takes holds content bytes ((sink bytes).run s)

/-- At some time a file takes none of the bytes that it is given. -/
def Refuses (sink : Sink (StateM σ)) : Prop :=
  ∃ b rest s, ∀ n, ((sink (b :: rest)).run s).1 ≠ .ok (n + 1)

/-- The bytes that a file does not get when it refuses those that wait at the end. -/
def LosesAtEnd (sink : Sink (StateM σ)) (pieces : List Bytes) (s : σ) (missing : Bytes) : Prop :=
  ∃ waiting behind fault last, (putAll sink [] pieces).run s = ((.ok (), waiting), behind) ∧
    (writeAll sink stuckWaiting waiting).run behind = ((.error fault, missing), last)

/-- How far writing has come: all bytes are held or wait, or there was a fault and some are lost. -/
inductive Progress (sink : Sink (StateM σ)) (given held : Bytes) : Except Fault Unit × Bytes → Prop
  | waits {waiting : Bytes} (hgiven : held ++ waiting = given) (hlength : waiting.length ≤ capacity) :
    Progress sink given held (.ok (), waiting)
  | loses {fault : Fault} {waiting lost : Bytes} (hgiven : held ++ waiting ++ lost = given)
    (hlost : lost ≠ []) (hrefuses : Refuses sink) : Progress sink given held (.error fault, waiting)

theorem writeAll_of_records (h : Records sink holds) (hs : holds content s) (stuck : Fault)
    (bytes : Bytes) :
    ∃ answer front rest s', (writeAll sink stuck bytes).run s = ((answer, rest), s') ∧
      holds (content ++ front) s' ∧ front ++ rest = bytes ∧
      (answer = .ok () ∧ rest = [] ∨ ∃ fault, answer = .error fault ∧ rest ≠ [] ∧ Refuses sink) := by
  -- A file may take any number of bytes, and what is left is shorter.
  induction hlength : bytes.length using Nat.strongRecOn generalizing bytes content s with
  | ind length ih =>
    cases bytes with
    | nil =>
      rw [writeAll]
      exact ⟨.ok (), [], [], s, rfl, by rwa [List.append_nil], rfl, .inl ⟨rfl, rfl⟩⟩
    | cons b rest =>
      have htakes := h content (b :: rest) s hs
      rw [writeAll, StateT.run_bind]
      generalize hsink : (sink (b :: rest)).run s = made at htakes
      cases htakes with
      | @none fault s' hs' =>
        refine ⟨.error fault, [], b :: rest, s', rfl, by rwa [List.append_nil], rfl, .inr ?_⟩
        exact ⟨fault, rfl, List.cons_ne_nil _ _, b, rest, s, by simp [hsink]⟩
      | @some n s' hn hs' =>
        cases n with
        | zero =>
          refine ⟨.error stuck, [], b :: rest, s', rfl, hs', rfl, .inr ?_⟩
          exact ⟨stuck, rfl, List.cons_ne_nil _ _, b, rest, s, by simp [hsink]⟩
        | succ n =>
          obtain ⟨answer, front, behind, s'', hwrite, hs'', hfront, hanswer⟩ :=
            ih (rest.drop n).length (by rw [← hlength, List.length_drop, List.length_cons]; omega)
              hs' (rest.drop n) rfl
          refine ⟨answer, b :: rest.take n ++ front, behind, s'', hwrite, ?_, ?_, hanswer⟩
          · rwa [← List.take_succ_cons, ← List.append_assoc]
          · rw [List.cons_append, List.cons_append, List.append_assoc, hfront, List.take_append_drop]

theorem put_of_records (h : Records sink holds) (hs : holds content s)
    (hwaiting : waiting.length ≤ capacity) (piece : Bytes) :
    ∃ made held s', (put sink waiting piece).run s = (made, s') ∧ holds held s' ∧
      Progress sink (content ++ waiting ++ piece) held made := by
  by_cases hfits : waiting.length + piece.length ≤ capacity ∧ piece.length < capacity
  · refine ⟨_, content, s, by rw [put, if_pos hfits]; rfl, hs, .waits ?_ ?_⟩
    · exact (List.append_assoc _ _ _).symm
    · rw [List.length_append]
      exact hfits.1
  have hpiece : piece ≠ [] := by
    rintro rfl
    exact hfits ⟨hwaiting, by decide⟩
  rw [put, if_neg hfits]
  obtain ⟨answer, front, rest, s₁, hwrite, hs₁, rfl, hanswer⟩ :=
    writeAll_of_records h hs stuckWaiting waiting
  rw [run_bind_of_run hwrite]
  rcases hanswer with ⟨rfl, rfl⟩ | ⟨fault, rfl, -, hrefuses⟩
  · simp only [List.append_nil]
    split_ifs with hsmall
    · exact ⟨_, _, s₁, rfl, hs₁, .waits rfl (Nat.le_of_lt hsmall)⟩
    · obtain ⟨answer, front', rest, s₂, hwrite', hs₂, rfl, hanswer⟩ :=
        writeAll_of_records h hs₁ stuckPiece piece
      rw [run_bind_of_run hwrite']
      rcases hanswer with ⟨rfl, rfl⟩ | ⟨fault, rfl, hrest, hrefuses⟩
      · exact ⟨_, _, s₂, rfl, hs₂, .waits (by simp) (Nat.zero_le _)⟩
      · exact ⟨_, _, s₂, rfl, hs₂, .loses (by simp) hrest hrefuses⟩
  · exact ⟨_, _, s₁, rfl, hs₁, .loses (by simp) hpiece hrefuses⟩

theorem putAll_of_records (h : Records sink holds) (hs : holds content s)
    (hwaiting : waiting.length ≤ capacity) (pieces : List Bytes) :
    ∃ made held s', (putAll sink waiting pieces).run s = (made, s') ∧ holds held s' ∧
      Progress sink (content ++ waiting ++ pieces.flatten) held made := by
  induction pieces generalizing content waiting s with
  | nil => exact ⟨_, content, s, rfl, hs, .waits (List.append_nil _).symm hwaiting⟩
  | cons piece pieces ih =>
    obtain ⟨made, held, s₁, hput, hs₁, progress⟩ := put_of_records h hs hwaiting piece
    rw [putAll, run_bind_of_run hput, List.flatten_cons, ← List.append_assoc]
    cases progress with
    | waits hgiven hlength => exact hgiven ▸ ih hs₁ hlength
    | loses hgiven hlost hrefuses =>
      have hmore := List.append_ne_nil_of_left_ne_nil hlost pieces.flatten
      refine ⟨_, held, s₁, rfl, hs₁, .loses ?_ hmore hrefuses⟩
      rw [← List.append_assoc, hgiven]

theorem write_of_records (h : Records sink holds) (hs : holds content s) (pieces : List Bytes) :
    ∃ answer held missing s', (write sink pieces).run s = (answer, s') ∧ holds held s' ∧
      held ++ missing = content ++ pieces.flatten ∧ (missing ≠ [] → Refuses sink) ∧
      (∀ fault, answer = .error fault → missing ≠ []) ∧
      (answer = .ok () → missing.length ≤ capacity ∧
        (missing ≠ [] → LosesAtEnd sink pieces s missing)) := by
  have hempty : ([] : Bytes).length ≤ capacity := Nat.zero_le _
  obtain ⟨made, held, s₁, hputAll, hs₁, progress⟩ := putAll_of_records h hs hempty pieces
  rw [List.append_nil] at progress
  rw [write, run_bind_of_run hputAll]
  cases progress with
  | @waits waiting hgiven hlength =>
    obtain ⟨answer, front, rest, s₂, hwrite, hs₂, rfl, hanswer⟩ :=
      writeAll_of_records h hs₁ stuckWaiting waiting
    have hlosses : rest ≠ [] → Refuses sink ∧ LosesAtEnd sink pieces s rest := by
      intro hrest
      rcases hanswer with ⟨-, hnone⟩ | ⟨fault, rfl, -, hrefuses⟩
      · exact absurd hnone hrest
      · exact ⟨hrefuses, _, s₁, fault, s₂, hputAll, hwrite⟩
    refine ⟨.ok (), held ++ front, rest, s₂, ?_, hs₂, ?_, fun hrest => (hlosses hrest).1, ?_,
      fun _ => ⟨?_, fun hrest => (hlosses hrest).2⟩⟩
    · simp only
      rw [run_bind_of_run hwrite]
      rfl
    · rw [List.append_assoc, hgiven]
    · rintro fault ⟨⟩
    · rw [List.length_append] at hlength
      omega
  | @loses fault waiting lost hgiven hlost hrefuses =>
    obtain ⟨answer, front, rest, s₂, hwrite, hs₂, rfl, -⟩ :=
      writeAll_of_records h hs₁ stuckWaiting waiting
    refine ⟨.error fault, held ++ front, rest ++ lost, s₂, ?_, hs₂, ?_, fun _ => hrefuses,
      fun _ _ => List.append_ne_nil_of_right_ne_nil _ hlost, ?_⟩
    · simp only
      rw [run_bind_of_run hwrite]
      rfl
    · rw [← hgiven]
      simp only [List.append_assoc]
    · rintro ⟨⟩

/-- The buffer alone takes what fits in it; the file is not even asked. -/
theorem putAll_of_fits (sink : Sink (StateM σ)) (s : σ) {pieces : List Bytes}
    (h : (waiting ++ pieces.flatten).length < capacity) :
    (putAll sink waiting pieces).run s = ((.ok (), waiting ++ pieces.flatten), s) := by
  induction pieces generalizing waiting with
  | nil => simp only [putAll, List.flatten_nil, List.append_nil]; rfl
  | cons piece pieces ih =>
    rw [List.flatten_cons, ← List.append_assoc] at h ⊢
    have hfits : waiting.length + piece.length ≤ capacity ∧ piece.length < capacity := by
      simp only [List.length_append] at h
      omega
    have hput : (put sink waiting piece).run s = ((.ok (), waiting ++ piece), s) := by
      rw [put, if_pos hfits]
      rfl
    rw [putAll, run_bind_of_run hput]
    exact ih h

theorem write_of_fits (sink : Sink (StateM σ)) (s : σ) {pieces : List Bytes}
    (h : pieces.flatten.length < capacity) : ((write sink pieces).run s).1 = .ok () := by
  rw [write, run_bind_of_run (putAll_of_fits sink s h)]
  rfl

end AccessTrace.Files.Buffer
