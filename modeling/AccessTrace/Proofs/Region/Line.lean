import AccessTrace.Proofs.Computation
import AccessTrace.Proofs.Text.Blank
import AccessTrace.Proofs.Word
import AccessTrace.Region

/-!
Which regions a line can hold. A line that is read gives such a region, and the line of such a
region is read back.
-/

namespace AccessTrace

namespace Region

/-- A region that its line holds: the fields are set apart by white space, lines by their end, and
the whole text is ended by a null character. -/
structure Plain (r : Region) : Prop where
  ordered : r.low ≤ r.high
  attributes : ∀ text ∈ [r.perms, r.offset, r.dev, r.inode],
    Text.Field text.toList ∧ '\x00' ∉ text.toList
  path_trimmed : Text.Trimmed r.pathname.toList
  path_oneLine : '\n' ∉ r.pathname.toList
  path_nullFree : '\x00' ∉ r.pathname.toList

instance (r : Region) : Decidable r.Plain :=
  decidable_of_iff
    (r.low ≤ r.high ∧
      (∀ text ∈ [r.perms, r.offset, r.dev, r.inode],
        Text.Field text.toList ∧ '\x00' ∉ text.toList) ∧
      Text.Trimmed r.pathname.toList ∧ '\n' ∉ r.pathname.toList ∧ '\x00' ∉ r.pathname.toList)
    ⟨fun ⟨h₁, h₂, h₃, h₄, h₅⟩ => ⟨h₁, h₂, h₃, h₄, h₅⟩,
      fun ⟨h₁, h₂, h₃, h₄, h₅⟩ => ⟨h₁, h₂, h₃, h₄, h₅⟩⟩

open Text

variable {text field rest line : List Char} {r : Region}

section Written

theorem nextField_append_space (hfield : Field field) (hrest : Unindented rest) :
    nextField (field ++ ' ' :: rest) = .ok (field, rest) := by
  have hne : (field ++ ' ' :: rest).isEmpty = false := by simp
  rw [nextField, hne, run_append hfield.solid, afterRun_append hfield.solid, run_space,
    afterRun_space hrest, List.append_nil]
  rfl

theorem nextField_field (hfield : Field field) : nextField field = .ok (field, []) := by
  have hrun := run_append hfield.solid []
  have hafter := afterRun_append hfield.solid []
  rw [List.append_nil] at hrun hafter
  rw [nextField, List.isEmpty_eq_false_iff.2 hfield.ne_nil, hrun, hafter]
  exact congrArg Except.ok (congrArg (·, []) (List.append_nil field))

def range (r : Region) : List Char :=
  Word.paddedHex 8 r.low ++ '-' :: Word.paddedHex 8 r.high

def pathField (r : Region) : List Char :=
  if r.pathname.isEmpty then [] else ' ' :: r.pathname.toList

theorem line_eq (r : Region) :
    r.line = r.range ++ ' ' :: (r.perms.toList ++ ' ' :: (r.offset.toList ++ ' ' ::
      (r.dev.toList ++ ' ' :: (r.inode.toList ++ r.pathField)))) := by
  simp only [line, range, pathField, List.append_assoc, List.cons_append]

theorem readRange_range (h : r.low ≤ r.high) : readRange r.range = .ok (r.low, r.high) := by
  have hdigit : ∀ c ∈ Word.paddedHex 8 r.low, decide (c ≠ '-') = true := fun c hc =>
    decide_eq_true (Word.forall_mem_paddedHex (p := (· ≠ '-')) (by decide) c hc)
  have hback : r.range.dropWhile (· ≠ '-') = '-' :: Word.paddedHex 8 r.high :=
    List.dropWhile_append_of_pos hdigit
  have hfront : r.range.takeWhile (· ≠ '-') = Word.paddedHex 8 r.low :=
    (List.takeWhile_append_of_pos hdigit).trans (List.append_nil _)
  simp only [readRange, hback, hfront, Word.ofHex?_paddedHex, Except.mapError, bind, Except.bind,
    pure, Except.pure, if_neg (UInt64.not_lt.2 h)]

theorem field_range (r : Region) : Field r.range := by
  have hdigit (w : UInt64) : ∀ c ∈ Word.paddedHex 8 w, isBlank c = false :=
    Word.forall_mem_paddedHex (by decide)
  refine ⟨List.append_ne_nil_of_right_ne_nil _ (List.cons_ne_nil _ _), ?_⟩
  rw [range, List.forall_mem_append, List.forall_mem_cons]
  exact ⟨hdigit r.low, rfl, hdigit r.high⟩

theorem Plain.fields (h : r.Plain) : Field r.perms.toList ∧ Field r.offset.toList ∧
    Field r.dev.toList ∧ Field r.inode.toList := by
  have hattributes := h.attributes
  simp only [List.forall_mem_cons] at hattributes
  obtain ⟨hperms, hoffset, hdev, hinode, -⟩ := hattributes
  exact ⟨hperms.1, hoffset.1, hdev.1, hinode.1⟩

theorem nextField_pathField (h : r.Plain) :
    nextField (r.inode.toList ++ r.pathField) = .ok (r.inode.toList, r.pathname.toList) := by
  obtain ⟨-, -, -, hinode⟩ := h.fields
  rw [pathField]
  split
  · rename_i hempty
    rw [List.append_nil, nextField_field hinode, String.isEmpty_iff.1 hempty]
    rfl
  · exact nextField_append_space hinode h.path_trimmed.unindented

theorem trimmed_line (h : r.Plain) : Trimmed r.line := by
  refine ⟨line_eq r ▸ (field_range r).unindented_append _, fun c hc => ?_⟩
  obtain ⟨-, -, -, hinode⟩ := h.fields
  obtain ⟨front, hfront⟩ : ∃ front, r.line = front ++ (r.inode.toList ++ r.pathField) :=
    ⟨r.range ++ ' ' :: r.perms.toList ++ ' ' :: r.offset.toList ++ ' ' :: r.dev.toList ++ [' '],
      by simp [line_eq]⟩
  rw [hfront, pathField] at hc
  split at hc
  · rw [List.append_nil, List.getLast?_append_of_ne_nil _ hinode.ne_nil] at hc
    exact hinode.solid c (List.mem_of_getLast? hc)
  · rename_i hpath
    have hne : r.pathname.toList ≠ [] := fun hnil => hpath (by simp [← String.toList_inj, hnil])
    rw [List.append_cons, ← List.append_assoc, List.getLast?_append_of_ne_nil _ hne] at hc
    exact h.path_trimmed.last c hc

theorem ofLine?_line (h : r.Plain) : ofLine? r.line = .ok r := by
  obtain ⟨hperms, hoffset, hdev, hinode⟩ := h.fields
  rw [ofLine?, (trimmed_line h).trim_eq, line_eq,
    nextField_append_space (field_range r) (hperms.unindented_append _)]
  simp only [bind, Except.bind, nextField_append_space hperms (hoffset.unindented_append _),
    nextField_append_space hoffset (hdev.unindented_append _),
    nextField_append_space hdev (hinode.unindented_append _), nextField_pathField h,
    readRange_range h.ordered, h.path_trimmed.trimEnd_eq, String.ofList_toList]
  rfl

theorem forall_mem_line {p : Char → Prop} (hdigit : ∀ n < 16, p (Word.hexDigit n)) (hdash : p '-')
    (hspace : p ' ')
    (htexts : ∀ text ∈ [r.perms, r.offset, r.dev, r.inode, r.pathname], ∀ c ∈ text.toList, p c) :
    ∀ c ∈ r.line, p c := by
  simp only [List.forall_mem_cons] at htexts
  obtain ⟨hperms, hoffset, hdev, hinode, hpath, -⟩ := htexts
  have hpathField : ∀ c ∈ r.pathField, p c := by
    rw [pathField]
    split
    · exact fun c hc => absurd hc List.not_mem_nil
    · exact List.forall_mem_cons.2 ⟨hspace, hpath⟩
  have hword (w : UInt64) : ∀ c ∈ Word.paddedHex 8 w, p c := Word.forall_mem_paddedHex hdigit
  simp only [line_eq, range, List.forall_mem_append, List.forall_mem_cons]
  exact ⟨⟨hword r.low, hdash, hword r.high⟩, hspace, hperms, hspace, hoffset, hspace, hdev, hspace,
    hinode, hpathField⟩

theorem newline_not_mem_line (h : r.Plain) : '\n' ∉ r.line := by
  have hfield {text : List Char} (htext : Field text) : ∀ c ∈ text, c ≠ '\n' := by
    rintro c hc rfl
    exact Bool.noConfusion (htext.solid _ hc)
  obtain ⟨hperms, hoffset, hdev, hinode⟩ := h.fields
  intro hmem
  refine forall_mem_line (p := (· ≠ '\n')) (by decide) (by decide) (by decide) ?_ _ hmem rfl
  simp only [List.forall_mem_cons]
  refine ⟨hfield hperms, hfield hoffset, hfield hdev, hfield hinode, ?_, by simp⟩
  rintro c hc rfl
  exact h.path_oneLine hc

end Written

section Read

theorem field_of_nextField (h : nextField text = .ok (field, rest)) (htext : Unindented text) :
    Field field ∧ Unindented rest ∧ field ⊆ text ∧ rest ⊆ text := by
  rw [nextField] at h
  split at h
  · contradiction
  · rename_i hne
    obtain ⟨rfl, rfl⟩ := Prod.mk.inj (Except.ok.inj h)
    exact ⟨field_run htext (by simpa using hne), unindented_afterRun text, run_subset text,
      afterRun_subset text⟩

theorem le_of_readRange {low high : UInt64} (h : readRange field = .ok (low, high)) :
    low ≤ high := by
  rw [readRange] at h
  split at h
  · contradiction
  · obtain ⟨l, -, h⟩ := exists_of_bind_eq_ok h
    obtain ⟨k, -, h⟩ := exists_of_bind_eq_ok h
    dsimp only at h
    split at h
    · contradiction
    · rename_i hle
      obtain ⟨rfl, rfl⟩ := Prod.mk.inj (Except.ok.inj h)
      exact UInt64.not_lt.1 hle

/-- Each field is taken from the front of a text that does not begin with white space, and leaves
such a text behind. -/
theorem plain_of_ofLine? (h : ofLine? line = .ok r) (hline : '\n' ∉ line) (hnull : '\x00' ∉ line) :
    r.Plain := by
  obtain ⟨⟨range, rest₁⟩, hrange, h⟩ := exists_of_bind_eq_ok h
  obtain ⟨⟨perms, rest₂⟩, hperms, h⟩ := exists_of_bind_eq_ok h
  obtain ⟨⟨offset, rest₃⟩, hoffset, h⟩ := exists_of_bind_eq_ok h
  obtain ⟨⟨dev, rest₄⟩, hdev, h⟩ := exists_of_bind_eq_ok h
  obtain ⟨⟨inode, rest₅⟩, hinode, h⟩ := exists_of_bind_eq_ok h
  obtain ⟨⟨low, high⟩, haddresses, h⟩ := exists_of_bind_eq_ok h
  obtain rfl := Except.ok.inj h
  obtain ⟨-, hstart₁, -, hsub₁⟩ := field_of_nextField hrange (trimmed_trim line).unindented
  obtain ⟨hperms, hstart₂, hin₂, hsub₂⟩ := field_of_nextField hperms hstart₁
  obtain ⟨hoffset, hstart₃, hin₃, hsub₃⟩ := field_of_nextField hoffset hstart₂
  obtain ⟨hdev, hstart₄, hin₄, hsub₄⟩ := field_of_nextField hdev hstart₃
  obtain ⟨hinode, hstart₅, hin₅, hsub₅⟩ := field_of_nextField hinode hstart₄
  have hline₁ : rest₁ ⊆ line := List.Subset.trans hsub₁ (trim_subset line)
  have hline₂ : rest₂ ⊆ line := List.Subset.trans hsub₂ hline₁
  have hline₃ : rest₃ ⊆ line := List.Subset.trans hsub₃ hline₂
  have hline₄ : rest₄ ⊆ line := List.Subset.trans hsub₄ hline₃
  have hpath : trimEnd rest₅ ⊆ line :=
    List.Subset.trans (trimEnd_subset rest₅) (List.Subset.trans hsub₅ hline₄)
  constructor
  case ordered => exact le_of_readRange haddresses
  case attributes =>
    simp only [List.forall_mem_cons, String.toList_ofList]
    exact ⟨⟨hperms, fun hmem => hnull (hline₁ (hin₂ hmem))⟩,
      ⟨hoffset, fun hmem => hnull (hline₂ (hin₃ hmem))⟩,
      ⟨hdev, fun hmem => hnull (hline₃ (hin₄ hmem))⟩,
      ⟨hinode, fun hmem => hnull (hline₄ (hin₅ hmem))⟩, by simp⟩
  case path_trimmed => simpa using trimmed_trimEnd hstart₅
  case path_oneLine => simpa using fun hmem => hline (hpath hmem)
  case path_nullFree => simpa using fun hmem => hnull (hpath hmem)

/-- A path may hold white space, but not end with it. -/
example : Plain ⟨0, 1, "r--p", "0", "0:0", "0", "/a b"⟩ ∧
    ¬ Plain ⟨0, 1, "r--p", "0", "0:0", "0", "/a "⟩ := by
  decide +kernel

end Read

end Region

end AccessTrace
