import Mathlib.Data.List.DropRight
import AccessTrace.Text

/-!
Trimmed texts, the fields that white space sets apart in them, and the pieces between occurrences of
a character.
-/

namespace AccessTrace.Text

def Unindented (text : List Char) : Prop :=
  ∀ c ∈ text.head?, isBlank c = false

structure Trimmed (text : List Char) : Prop where
  unindented : Unindented text
  last : ∀ c ∈ text.getLast?, isBlank c = false

structure Field (text : List Char) : Prop where
  ne_nil : text ≠ []
  solid : ∀ c ∈ text, isBlank c = false

theorem unindented_iff {text : List Char} :
    Unindented text ↔ text.head?.all (fun c => !isBlank c) = true := by
  cases text <;> simp [Unindented]

instance (text : List Char) : Decidable (Unindented text) :=
  decidable_of_iff _ unindented_iff.symm

instance (text : List Char) : Decidable (Trimmed text) :=
  decidable_of_iff (Unindented text ∧ Unindented text.reverse) <| by
    rw [Unindented, Unindented, List.head?_reverse]
    exact ⟨fun h => ⟨h.1, h.2⟩, fun h => ⟨h.1, h.2⟩⟩

instance (text : List Char) : Decidable (Field text) :=
  decidable_of_iff (text ≠ [] ∧ text.all (fun c => !isBlank c) = true) <| by
    simp only [List.all_eq_true, Bool.not_eq_true']
    exact ⟨fun h => ⟨h.1, h.2⟩, fun h => ⟨h.1, h.2⟩⟩

variable {text front field rest : List Char}

theorem Field.unindented_append (h : Field field) (rest : List Char) :
    Unindented (field ++ rest) := by
  intro c hc
  rw [List.head?_append_of_ne_nil field h.ne_nil] at hc
  exact h.solid c (List.mem_of_head? hc)

theorem Unindented.of_prefix (h : Unindented text) (hfront : front <+: text) :
    Unindented front := by
  obtain ⟨rest, rfl⟩ := hfront
  intro c hc
  refine h c ?_
  rw [List.head?_append, Option.mem_def.1 hc]
  rfl

theorem unindented_trimStart (text : List Char) : Unindented (trimStart text) := by
  intro c hc
  have hhead := List.head?_dropWhile_not isBlank text
  rw [← trimStart, Option.mem_def.1 hc] at hhead
  exact hhead

theorem Unindented.trimStart_eq (h : Unindented text) : trimStart text = text := by
  cases text with
  | nil => rfl
  | cons c text =>
    have hc := h c rfl
    exact List.dropWhile_cons_of_neg (Bool.eq_false_iff.1 hc)

theorem trimEnd_eq_rdropWhile (text : List Char) : trimEnd text = text.rdropWhile isBlank := rfl

theorem trimmed_trimEnd (h : Unindented text) : Trimmed (trimEnd text) := by
  refine ⟨h.of_prefix (List.rdropWhile_prefix isBlank text), fun c hc => ?_⟩
  obtain ⟨hne, rfl⟩ := List.mem_getLast?_eq_getLast hc
  exact Bool.eq_false_iff.2 (List.rdropWhile_last_not isBlank text hne)

theorem trimmed_trim (text : List Char) : Trimmed (trim text) :=
  trimmed_trimEnd (unindented_trimStart text)

theorem Trimmed.trimEnd_eq (h : Trimmed text) : trimEnd text = text := by
  rw [trimEnd_eq_rdropWhile, List.rdropWhile_eq_self_iff]
  exact fun hne => Bool.eq_false_iff.1 (h.last _ (List.getLast?_eq_some_getLast hne))

theorem Trimmed.trim_eq (h : Trimmed text) : trim text = text := by
  rw [trim, h.unindented.trimStart_eq, h.trimEnd_eq]

theorem Trimmed.of_suffix {back : List Char} (h : Trimmed text) (hback : back <:+ text)
    (hstart : Unindented back) : Trimmed back := by
  refine ⟨hstart, fun c hc => h.last c ?_⟩
  obtain ⟨front, rfl⟩ := hback
  rw [List.getLast?_append, Option.mem_def.1 hc]
  rfl

theorem trimStart_subset (text : List Char) : trimStart text ⊆ text :=
  List.dropWhile_subset isBlank

theorem trimEnd_subset (text : List Char) : trimEnd text ⊆ text :=
  (List.rdropWhile_prefix isBlank text).subset

theorem trim_subset (text : List Char) : trim text ⊆ text :=
  fun _ hc => trimStart_subset text (trimEnd_subset _ hc)

theorem run_subset (text : List Char) : run text ⊆ text :=
  (List.takeWhile_prefix _).subset

theorem afterRun_subset (text : List Char) : afterRun text ⊆ text :=
  fun _ hc => List.dropWhile_subset _ (trimStart_subset _ hc)

theorem afterRun_suffix (text : List Char) : afterRun text <:+ text :=
  (List.dropWhile_suffix _).trans (List.dropWhile_suffix _)

theorem unindented_afterRun (text : List Char) : Unindented (afterRun text) :=
  unindented_trimStart _

theorem field_run (h : Unindented text) (hne : text ≠ []) : Field (run text) := by
  constructor
  · cases text with
    | nil => contradiction
    | cons c text =>
      have hc : (!isBlank c) = true := congrArg not (h c rfl)
      rw [run, List.takeWhile_cons, if_pos hc]
      exact List.cons_ne_nil _ _
  · intro c hc
    simpa using List.mem_takeWhile_imp hc

section Append

variable (hfield : ∀ c ∈ field, isBlank c = false)

include hfield

theorem run_append (rest : List Char) : run (field ++ rest) = field ++ run rest :=
  List.takeWhile_append_of_pos fun c hc => by rw [hfield c hc]; rfl

theorem afterRun_append (rest : List Char) : afterRun (field ++ rest) = afterRun rest :=
  congrArg trimStart (List.dropWhile_append_of_pos fun c hc => by rw [hfield c hc]; rfl)

end Append

theorem run_space (rest : List Char) : run (' ' :: rest) = [] := rfl

theorem afterRun_space (h : Unindented rest) : afterRun (' ' :: rest) = rest :=
  h.trimStart_eq

theorem splitOn_cons (c d : Char) (text : List Char) :
    splitOn c (d :: text) =
      if d = c then [] :: splitOn c text else (splitOn c text).modifyHead (d :: ·) := by
  by_cases h : d = c
  · simp only [splitOn, List.foldr_cons, h, if_true]
  · simp only [splitOn, List.foldr_cons, h, if_false, List.modifyHead_cons]

theorem splitOn_eq (c : Char) (text : List Char) : splitOn c text = List.splitOn c text := by
  induction text with
  | nil => rfl
  | cons d text ih => simp only [splitOn_cons, List.splitOn_cons_eq_if_modifyHead, ih, beq_iff_eq]

theorem splitOn_ended {c : Char} {lines : List (List Char)} (h : ∀ line ∈ lines, c ∉ line) :
    splitOn c (lines.flatMap (· ++ [c])) = lines ++ [[]] := by
  rw [splitOn_eq]
  induction lines with
  | nil => exact List.splitOn_nil c
  | cons line lines ih =>
    rw [List.forall_mem_cons] at h
    rw [List.flatMap_cons, List.append_assoc, List.singleton_append,
      List.splitOn_append_cons_self_of_not_mem h.1, ih h.2, List.cons_append]

theorem of_mem_splitOn {c : Char} {piece : List Char} (h : piece ∈ splitOn c text) :
    c ∉ piece ∧ piece ⊆ text := by
  induction text generalizing piece with
  | nil =>
    obtain rfl := List.mem_singleton.1 h
    exact ⟨List.not_mem_nil, List.Subset.refl _⟩
  | cons d text ih =>
    rw [splitOn_cons] at h
    split at h
    · rcases List.mem_cons.1 h with rfl | h
      · exact ⟨List.not_mem_nil, List.nil_subset _⟩
      · exact ⟨(ih h).1, List.subset_cons_of_subset d (ih h).2⟩
    · rename_i hd
      cases hpieces : splitOn c text with
      | nil => simp [hpieces] at h
      | cons first pieces =>
        rw [hpieces] at h ih
        rcases List.mem_cons.1 h with rfl | h
        · obtain ⟨hc, hsub⟩ := ih List.mem_cons_self
          refine ⟨?_, List.cons_subset_cons d hsub⟩
          rw [List.mem_cons, not_or]
          exact ⟨fun heq => hd heq.symm, hc⟩
        · obtain ⟨hc, hsub⟩ := ih (.tail _ h)
          exact ⟨hc, List.subset_cons_of_subset d hsub⟩

end AccessTrace.Text
