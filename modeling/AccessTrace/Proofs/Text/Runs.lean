import AccessTrace.Proofs.Text.Blank

/-!
The runs of a text, which white space sets apart. They are what is left of a text when its white
space goes, and a text that begins with a run is followed up by cutting that run off.
-/

namespace AccessTrace.Text

def runs (text : List Char) : List (List Char) :=
  (text.splitOnP isBlank).filter (· ≠ [])

variable {text front rest field : List Char} {c : Char}

theorem runs_append_cons (hc : isBlank c = true) (front rest : List Char) :
    runs (front ++ c :: rest) = runs front ++ runs rest := by
  rw [runs, List.splitOnP_append_cons front rest hc, List.filter_append, runs, runs]

theorem runs_cons_of_blank (hc : isBlank c = true) (rest : List Char) :
    runs (c :: rest) = runs rest :=
  runs_append_cons hc [] rest

theorem runs_trimStart (text : List Char) : runs (trimStart text) = runs text := by
  induction text with
  | nil => rfl
  | cons c rest ih =>
    rw [trimStart, List.dropWhile_cons]
    split
    · rename_i hc
      rw [runs_cons_of_blank hc, ← ih, trimStart]
    · rfl

theorem runs_field (h : Field field) : runs field = [field] := by
  rw [runs, List.splitOnP_eq_singleton h.solid, List.filter_singleton]
  simp [h.ne_nil]

theorem runs_eq_cons (h : Unindented text) (hne : text ≠ []) :
    runs text = run text :: runs (afterRun text) := by
  have hfield := field_run h hne
  have htext : text = run text ++ text.dropWhile fun c => !isBlank c :=
    List.takeWhile_append_dropWhile.symm
  have hhead := List.head?_dropWhile_not (fun c => !isBlank c) text
  rw [afterRun, runs_trimStart]
  cases hrest : text.dropWhile fun c => !isBlank c with
  | nil =>
    rw [hrest, List.append_nil] at htext
    rw [← htext, runs_field (htext.symm ▸ hfield)]
    rfl
  | cons c rest =>
    rw [hrest] at hhead htext
    have hc : isBlank c = true := by simpa using hhead
    conv_lhs => rw [htext]
    rw [runs_append_cons hc, runs_field hfield, runs_cons_of_blank hc]
    rfl

theorem flatten_splitOnP (text : List Char) :
    (text.splitOnP isBlank).flatten = text.filter fun c => !isBlank c := by
  induction text with
  | nil => rfl
  | cons c rest ih =>
    rw [List.splitOnP_cons_eq_if_modifyHead, List.filter_cons, ← ih]
    cases hc : isBlank c with
    | true => rfl
    | false =>
      obtain ⟨piece, pieces, hpieces⟩ :=
        List.exists_cons_of_ne_nil (List.splitOnP_ne_nil isBlank rest)
      rw [hpieces]
      rfl

theorem flatten_runs (text : List Char) :
    (runs text).flatten = text.filter fun c => !isBlank c := by
  rw [← flatten_splitOnP, runs]
  exact List.flatten_filter_ne_nil

/-- Only one end of a text begins with a run and has the same runs. -/
theorem eq_of_suffix_of_runs_eq {back back' : List Char} (hback : back <:+ text)
    (hback' : back' <:+ text) (hstart : Unindented back) (hstart' : Unindented back')
    (hruns : runs back = runs back') : back = back' := by
  wlog hle : back'.length ≤ back.length generalizing back back'
  · exact (this hback' hback hstart' hstart hruns.symm (Nat.le_of_not_le hle)).symm
  obtain ⟨front, rfl⟩ := List.suffix_of_suffix_length_le hback' hback hle
  have hblank : (front.filter fun c => !isBlank c) = [] := by
    have hflat := congrArg List.flatten hruns
    rwa [flatten_runs, flatten_runs, List.filter_append, List.append_left_eq_self] at hflat
  cases front with
  | nil => rfl
  | cons c front =>
    have hc : isBlank c = false := hstart c rfl
    simp [hc] at hblank

end AccessTrace.Text
