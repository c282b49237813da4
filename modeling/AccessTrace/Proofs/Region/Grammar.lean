import AccessTrace.Proofs.Computation
import AccessTrace.Proofs.Text.Runs
import AccessTrace.Proofs.Word
import AccessTrace.Region

/-!
The grammar of region lines: which texts are lines of regions, and of which region. It speaks of the
runs of the trimmed line, and the reader, which takes one field after another, agrees with it on
every text.
-/

namespace AccessTrace.Region

open Text

/-- Two addresses as text, on both sides of the first dash. -/
def IsRange (text : List Char) (low high : UInt64) : Prop :=
  ∃ front back, text = front ++ '-' :: back ∧ '-' ∉ front ∧
    Word.HexNumeral front low.toNat ∧ Word.HexNumeral back high.toNat ∧ low ≤ high

/-- The line has a range and four attributes for its first runs, and the path is what follows: the
end of the trimmed line that begins with the sixth run, or nothing when there is none. -/
structure Describes (line range : List Char) (r : Region) : Prop where
  runs : runs (trim line) =
    [range, r.perms.toList, r.offset.toList, r.dev.toList, r.inode.toList] ++
      Text.runs r.pathname.toList
  range : IsRange range r.low r.high
  path_suffix : r.pathname.toList <:+ trim line
  path_start : Unindented r.pathname.toList

variable {text field line range : List Char} {later : List (List Char)} {low high : UInt64}
  {r : Region}

section Range

variable {front back : List Char}

theorem readRange_of_split (h : '-' ∉ front) :
    readRange (front ++ '-' :: back) = .ok (low, high) ↔
      Word.HexNumeral front low.toNat ∧ Word.HexNumeral back high.toNat ∧ low ≤ high := by
  have hfront : ∀ c ∈ front, decide (c ≠ '-') = true := fun c hc =>
    decide_eq_true fun heq => h (heq ▸ hc)
  have hdrop : (front ++ '-' :: back).dropWhile (· ≠ '-') = '-' :: back :=
    List.dropWhile_append_of_pos hfront
  have htake : (front ++ '-' :: back).takeWhile (· ≠ '-') = front :=
    (List.takeWhile_append_of_pos hfront).trans (List.append_nil front)
  simp only [← Word.ofHex?_eq_ok_iff, readRange, hdrop, htake]
  constructor
  · intro hread
    obtain ⟨l, hlow, hread⟩ := exists_of_bind_eq_ok hread
    obtain ⟨k, hhigh, hread⟩ := exists_of_bind_eq_ok hread
    split at hread
    · contradiction
    · rename_i hle
      obtain ⟨rfl, rfl⟩ := Prod.mk.inj (Except.ok.inj hread)
      exact ⟨mapError_eq_ok.1 hlow, mapError_eq_ok.1 hhigh, UInt64.not_lt.1 hle⟩
  · rintro ⟨hlow, hhigh, hle⟩
    simp only [hlow, hhigh, Except.mapError, ok_bind, if_neg (UInt64.not_lt.2 hle)]
    rfl

theorem readRange_of_notMem (h : '-' ∉ field) : readRange field = .error .noDash := by
  have hdrop : field.dropWhile (· ≠ '-') = [] :=
    List.dropWhile_eq_nil_iff.2 fun c hc => decide_eq_true fun heq => h (heq ▸ hc)
  simp only [readRange, hdrop]
  rfl

theorem readRange_eq_ok_iff : readRange field = .ok (low, high) ↔ IsRange field low high := by
  constructor
  · intro hread
    by_cases hdash : '-' ∈ field
    · obtain ⟨front, back, rfl, hfront⟩ := List.eq_append_cons_of_mem hdash
      exact ⟨front, back, rfl, hfront, (readRange_of_split hfront).1 hread⟩
    · rw [readRange_of_notMem hdash] at hread
      contradiction
  · rintro ⟨front, back, rfl, hfront, hrange⟩
    exact (readRange_of_split hfront).2 hrange

end Range

theorem nextField_of_runs_eq_cons (h : Unindented text) (hruns : runs text = field :: later) :
    ∃ rest, nextField text = .ok (field, rest) ∧ runs rest = later ∧ rest <:+ text ∧
      Unindented rest := by
  have hne : text ≠ [] := by
    rintro rfl
    contradiction
  rw [runs_eq_cons h hne] at hruns
  obtain ⟨hfield, hlater⟩ := List.cons.inj hruns
  refine ⟨afterRun text, ?_, hlater, afterRun_suffix text, unindented_afterRun text⟩
  rw [nextField, List.isEmpty_eq_false_iff.2 hne, if_neg Bool.false_ne_true, hfield]

theorem runs_of_nextField {rest : List Char} (h : Unindented text)
    (hread : nextField text = .ok (field, rest)) :
    runs text = field :: runs rest ∧ Unindented rest := by
  rw [nextField] at hread
  split at hread
  · contradiction
  · rename_i hne
    obtain ⟨rfl, rfl⟩ := Prod.mk.inj (Except.ok.inj hread)
    exact ⟨runs_eq_cons h (by simpa using hne), unindented_afterRun text⟩

theorem ofLine?_of_runs {perms offset dev inode : List Char}
    (h : runs (trim line) = [range, perms, offset, dev, inode] ++ later) :
    ∃ path, path <:+ trim line ∧ Unindented path ∧ runs path = later ∧
      ofLine? line = (readRange range).map fun (low, high) =>
        ⟨low, high, String.ofList perms, String.ofList offset, String.ofList dev,
          String.ofList inode, String.ofList path⟩ := by
  have htrim := trimmed_trim line
  obtain ⟨rest₁, hread₁, hruns₁, hsuffix₁, hstart₁⟩ := nextField_of_runs_eq_cons htrim.unindented h
  obtain ⟨rest₂, hread₂, hruns₂, hsuffix₂, hstart₂⟩ := nextField_of_runs_eq_cons hstart₁ hruns₁
  obtain ⟨rest₃, hread₃, hruns₃, hsuffix₃, hstart₃⟩ := nextField_of_runs_eq_cons hstart₂ hruns₂
  obtain ⟨rest₄, hread₄, hruns₄, hsuffix₄, hstart₄⟩ := nextField_of_runs_eq_cons hstart₃ hruns₃
  obtain ⟨path, hread₅, hruns₅, hsuffix₅, hstart₅⟩ := nextField_of_runs_eq_cons hstart₄ hruns₄
  have hsuffix : path <:+ trim line :=
    hsuffix₅.trans (hsuffix₄.trans (hsuffix₃.trans (hsuffix₂.trans hsuffix₁)))
  have hpath : trimEnd path = path := (htrim.of_suffix hsuffix hstart₅).trimEnd_eq
  refine ⟨path, hsuffix, hstart₅, hruns₅, ?_⟩
  simp only [ofLine?, hread₁, hread₂, hread₃, hread₄, hread₅, ok_bind, hpath]
  cases readRange range <;> rfl

theorem runs_of_ofLine? (h : ofLine? line = .ok r) :
    ∃ range perms offset dev inode later,
      runs (trim line) = [range, perms, offset, dev, inode] ++ later := by
  obtain ⟨⟨range, rest₁⟩, hread₁, h⟩ := exists_of_bind_eq_ok h
  obtain ⟨⟨perms, rest₂⟩, hread₂, h⟩ := exists_of_bind_eq_ok h
  obtain ⟨⟨offset, rest₃⟩, hread₃, h⟩ := exists_of_bind_eq_ok h
  obtain ⟨⟨dev, rest₄⟩, hread₄, h⟩ := exists_of_bind_eq_ok h
  obtain ⟨⟨inode, rest₅⟩, hread₅, -⟩ := exists_of_bind_eq_ok h
  obtain ⟨hruns₁, hstart₁⟩ := runs_of_nextField (trimmed_trim line).unindented hread₁
  obtain ⟨hruns₂, hstart₂⟩ := runs_of_nextField hstart₁ hread₂
  obtain ⟨hruns₃, hstart₃⟩ := runs_of_nextField hstart₂ hread₃
  obtain ⟨hruns₄, hstart₄⟩ := runs_of_nextField hstart₃ hread₄
  obtain ⟨hruns₅, -⟩ := runs_of_nextField hstart₄ hread₅
  exact ⟨range, perms, offset, dev, inode, runs rest₅, by
    rw [hruns₁, hruns₂, hruns₃, hruns₄, hruns₅]; rfl⟩

theorem ofLine?_eq_ok_iff : ofLine? line = .ok r ↔ ∃ range, Describes line range r := by
  constructor
  · intro h
    obtain ⟨range, perms, offset, dev, inode, later, hruns⟩ := runs_of_ofLine? h
    obtain ⟨path, hsuffix, hstart, rfl, hread⟩ := ofLine?_of_runs hruns
    rw [hread] at h
    cases hrange : readRange range with
    | error e =>
      rw [hrange] at h
      contradiction
    | ok addresses =>
      rw [hrange] at h
      obtain rfl := Except.ok.inj h
      refine ⟨range, ?_, readRange_eq_ok_iff.1 hrange, ?_, ?_⟩ <;>
        simp only [String.toList_ofList] <;> assumption
  · rintro ⟨range, h⟩
    obtain ⟨path, hsuffix, hstart, hruns, hread⟩ := ofLine?_of_runs h.runs
    obtain rfl := eq_of_suffix_of_runs_eq hsuffix h.path_suffix hstart h.path_start hruns
    rw [hread, readRange_eq_ok_iff.2 h.range]
    simp only [Except.map, String.ofList_toList]

/-- A line is read when it has five runs and the first is a range, and then it is read as the region
that it describes. -/
theorem ofLine?_grammar (line : List Char) :
    ((∃ r, ofLine? line = .ok r) ↔ 5 ≤ (runs (trim line)).length ∧
      ∃ range ∈ (runs (trim line)).head?, ∃ low high, IsRange range low high) ∧
    ∀ r, ofLine? line = .ok r ↔ ∃ range, Describes line range r := by
  refine ⟨⟨?_, ?_⟩, fun r => ofLine?_eq_ok_iff⟩
  · rintro ⟨r, h⟩
    obtain ⟨range, h⟩ := ofLine?_eq_ok_iff.1 h
    rw [h.runs]
    exact ⟨by simp, range, rfl, r.low, r.high, h.range⟩
  · rintro ⟨hlength, range, hhead, low, high, hrange⟩
    match hruns : runs (trim line) with
    | first :: perms :: offset :: dev :: inode :: later =>
      obtain ⟨path, -, -, -, hread⟩ := ofLine?_of_runs hruns
      rw [hruns] at hhead
      obtain rfl := Option.some.inj hhead
      rw [hread, readRange_eq_ok_iff.2 hrange]
      exact ⟨_, rfl⟩
    | [] | [_] | [_, _] | [_, _, _] | [_, _, _, _] =>
      rw [hruns] at hlength
      simp at hlength

/-- Signs, zeros in front and wide gaps do not matter; blanks in the path are kept. -/
example : ofLine? "\u3000+1-+00000000000000000fF r--p  0 0:0\t7  /a  b\r".toList =
    .ok ⟨1, 0xff, "r--p", "0", "0:0", "7", "/a  b"⟩ := by
  decide +kernel

end AccessTrace.Region
