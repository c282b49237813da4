import AccessTrace.Region.Table

/-!
Region texts with bad lines. Lenient reading makes its table of the lines that can be read. Strict
reading does the same, or stops at the first line that lenient reading passes over without its being
blank.
-/

namespace AccessTrace.Region

/-- The regions on those lines that are lines of regions. -/
def legible (lines : List (List Char)) : List Region :=
  lines.filterMap fun line => (ofLine? line).toOption

/-- The first line that is neither blank nor the line of a region, and its place. -/
structure FirstIllegible (lines : List (List Char)) (index : Nat) (line : List Char)
    (fault : LineFault) : Prop where
  atIndex : lines[index]? = some line
  notBlank : Text.trim line ≠ []
  illegible : ofLine? line = .error fault
  legibleBefore : ∀ earlier ∈ lines.take index,
    Text.trim earlier = [] ∨ ∃ r, ofLine? earlier = .ok r

variable {line : List Char} {lines : List (List Char)} {r : Region} {fault : LineFault}

theorem legible_cons_of_ok (h : ofLine? line = .ok r) :
    legible (line :: lines) = r :: legible lines :=
  List.filterMap_cons_some (by rw [h]; rfl)

theorem legible_cons_of_error (h : ofLine? line = .error fault) :
    legible (line :: lines) = legible lines :=
  List.filterMap_cons_none (by rw [h]; rfl)

theorem mem_legible : r ∈ legible lines ↔ ∃ line ∈ lines, ofLine? line = .ok r := by
  rw [legible, List.mem_filterMap]
  refine exists_congr fun line => and_congr_right fun _ => ?_
  cases ofLine? line <;> simp [Except.toOption]

theorem ofLine?_of_blank (h : Text.trim line = []) : ofLine? line = .error .missingFields := by
  rw [ofLine?, h]
  rfl

theorem FirstIllegible.cons {index : Nat} {bad : List Char}
    (hline : Text.trim line = [] ∨ ∃ r, ofLine? line = .ok r)
    (h : FirstIllegible lines index bad fault) :
    FirstIllegible (line :: lines) (index + 1) bad fault where
  atIndex := h.atIndex
  notBlank := h.notBlank
  illegible := h.illegible
  legibleBefore := by
    rw [List.take_succ_cons]
    exact List.forall_mem_cons.2 ⟨hline, h.legibleBefore⟩

section Lines

variable {strict : Bool}

theorem readLines_of_blank (h : Text.trim line = []) (number : Nat) (done : List Region) :
    readLines strict number done (line :: lines) = readLines strict (number + 1) done lines := by
  rw [readLines, h, List.isEmpty_nil, if_pos rfl]

theorem readLines_of_ok (h : ofLine? line = .ok r) (number : Nat) (done : List Region) :
    readLines strict number done (line :: lines) =
      readLines strict (number + 1) (r :: done) lines := by
  have hblank : Text.trim line ≠ [] := fun hblank => by
    rw [ofLine?_of_blank hblank] at h
    contradiction
  rw [readLines, List.isEmpty_eq_false_iff.2 hblank, if_neg Bool.false_ne_true, h]

theorem readLines_of_error (hblank : Text.trim line ≠ []) (h : ofLine? line = .error fault)
    (number : Nat) (done : List Region) :
    readLines strict number done (line :: lines) =
      if strict then .error (.line number (String.ofList line) fault)
      else readLines strict (number + 1) done lines := by
  rw [readLines, List.isEmpty_eq_false_iff.2 hblank, if_neg Bool.false_ne_true, h]

end Lines

theorem readLines_lenient (number : Nat) (done : List Region) (lines : List (List Char)) :
    readLines false number done lines = .ok (done.reverse ++ legible lines) := by
  induction lines generalizing number done with
  | nil => exact congrArg Except.ok (List.append_nil _).symm
  | cons line lines ih =>
    cases hread : ofLine? line with
    | ok r =>
      rw [readLines_of_ok hread, ih, legible_cons_of_ok hread, List.reverse_cons, List.append_assoc,
        List.singleton_append]
    | error fault =>
      rw [legible_cons_of_error hread, ← ih (number + 1)]
      by_cases hblank : Text.trim line = []
      · exact readLines_of_blank hblank number done
      · exact readLines_of_error hblank hread number done

/-- Strict reading goes as lenient reading does, or stops at the first line that is illegible. -/
def StrictRun (number : Nat) (done : List Region) (lines : List (List Char)) : Prop :=
  readLines true number done lines = readLines false number done lines ∨
    ∃ index line fault, FirstIllegible lines index line fault ∧
      readLines true number done lines = .error (.line (number + index) (String.ofList line) fault)

/-- Behind a line that strict reading gets past, a bad line is one place further. -/
theorem StrictRun.cons {number : Nat} {done done' : List Region}
    (hline : Text.trim line = [] ∨ ∃ r, ofLine? line = .ok r)
    (hstep : ∀ strict, readLines strict number done (line :: lines) =
      readLines strict (number + 1) done' lines)
    (h : StrictRun (number + 1) done' lines) : StrictRun number done (line :: lines) := by
  rw [StrictRun, hstep, hstep]
  refine h.imp_right ?_
  rintro ⟨index, bad, fault, hfirst, herror⟩
  exact ⟨index + 1, bad, fault, hfirst.cons hline, by rw [herror, Nat.add_assoc, Nat.add_comm 1]⟩

theorem strictRun (number : Nat) (done : List Region) (lines : List (List Char)) :
    StrictRun number done lines := by
  induction lines generalizing number done with
  | nil => exact .inl rfl
  | cons line lines ih =>
    cases hread : ofLine? line with
    | ok r =>
      exact .cons (.inr ⟨r, hread⟩) (fun strict => readLines_of_ok hread number done) (ih _ _)
    | error fault =>
      by_cases hblank : Text.trim line = []
      · exact .cons (.inl hblank) (fun strict => readLines_of_blank hblank number done) (ih _ _)
      · exact .inr ⟨0, line, fault, ⟨rfl, hblank, hread, by simp⟩,
          readLines_of_error hblank hread number done⟩

theorem eq_legible_of_readLines {strict : Bool} {number : Nat} {done regions : List Region}
    (h : readLines strict number done lines = .ok regions) :
    regions = done.reverse ++ legible lines := by
  have hlenient := readLines_lenient number done lines
  cases strict with
  | false => exact Except.ok.inj (h.symm.trans hlenient)
  | true =>
    rcases strictRun number done lines with hsame | ⟨index, line, fault, -, herror⟩
    · exact Except.ok.inj (h.symm.trans (hsame.trans hlenient))
    · rw [herror] at h
      contradiction

namespace Table

theorem ofText?_lenient (text : List Char) :
    ofText? false text =
      (ofList (legible (Text.splitOn '\n' text))).mapError TableError.disorder := by
  rw [ofText?, readLines_lenient]
  rfl

theorem ofText?_strict_cases (text : List Char) :
    ofText? true text = ofText? false text ∨
      ∃ index line fault, FirstIllegible (Text.splitOn '\n' text) index line fault ∧
        ofText? true text = .error (.line (index + 1) (String.ofList line) fault) := by
  rcases strictRun 1 [] (Text.splitOn '\n' text) with
    hsame | ⟨index, line, fault, hfirst, herror⟩
  · rw [ofText?, ofText?, hsame]
    exact .inl rfl
  · refine .inr ⟨index, line, fault, hfirst, ?_⟩
    rw [ofText?, herror, Nat.add_comm]
    rfl

end Table

end AccessTrace.Region
