import AccessTrace.Proofs.Region.Lenience
import AccessTrace.Proofs.Region.Line

/-!
The text of a region table. Its lines give back the regions they were made of, and whatever text a
table was read from, its regions can be put on lines again.
-/

namespace AccessTrace.Region

namespace Table

variable {regions : List Region} {t : Table}

theorem toList_of_ofList (h : ofList regions = .ok t) : t.toList = regions := by
  unfold ofList at h
  split at h
  · contradiction
  · obtain rfl := Except.ok.inj h
    rfl

@[simp] theorem ofList_toList (t : Table) : ofList t.toList = .ok t := by
  have hsorted : firstDisorder 0 t.toList = none := firstDisorder_eq_none_iff.2 t.sorted
  unfold ofList
  split
  · rename_i hdisorder
    rw [hsorted] at hdisorder
    contradiction
  · rfl

end Table

variable {strict : Bool} {number : Nat} {done regions : List Region} {lines : List (List Char)}

theorem readLines_lines (hplain : ∀ r ∈ regions, r.Plain) :
    readLines strict number done (regions.map line ++ [[]]) = .ok (done.reverse ++ regions) := by
  induction regions generalizing number done with
  | nil => exact congrArg Except.ok (List.append_nil _).symm
  | cons r regions ih =>
    rw [List.forall_mem_cons] at hplain
    rw [List.map_cons, List.cons_append, readLines_of_ok (ofLine?_line hplain.1), ih hplain.2,
      List.reverse_cons, List.append_assoc, List.singleton_append]

theorem plain_of_readLines (h : readLines strict number [] lines = .ok regions)
    (hlines : ∀ line ∈ lines, '\n' ∉ line ∧ '\x00' ∉ line) : ∀ r ∈ regions, r.Plain := by
  rw [eq_legible_of_readLines h]
  intro r hr
  obtain ⟨line, hline, hread⟩ := mem_legible.1 hr
  exact plain_of_ofLine? hread (hlines line hline).1 (hlines line hline).2

namespace Table

theorem ofText?_lines (hplain : ∀ r ∈ regions, r.Plain) :
    ofText? strict (regions.flatMap fun r => r.line ++ ['\n']) =
      (ofList regions).mapError .disorder := by
  have hlines : ∀ text ∈ regions.map line, '\n' ∉ text := by
    rw [List.forall_mem_map]
    exact fun r hr => newline_not_mem_line (hplain r hr)
  have hsplit := Text.splitOn_ended hlines
  rw [List.flatMap_map] at hsplit
  rw [ofText?, hsplit, readLines_lines hplain]
  rfl

theorem plain_of_ofText? {text : List Char} {t : Table} (h : ofText? strict text = .ok t)
    (hnull : '\x00' ∉ text) : ∀ r ∈ t.toList, r.Plain := by
  obtain ⟨regions, hread, h⟩ := exists_of_bind_eq_ok h
  rw [toList_of_ofList (mapError_eq_ok.1 h)]
  refine plain_of_readLines hread fun line hline => ?_
  obtain ⟨hnewline, hsub⟩ := Text.of_mem_splitOn hline
  exact ⟨hnewline, fun hmem => hnull (hsub hmem)⟩

end Table

end AccessTrace.Region
