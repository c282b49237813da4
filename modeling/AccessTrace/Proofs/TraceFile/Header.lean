import AccessTrace.Proofs.Region.Line
import AccessTrace.Proofs.Text.Utf8
import AccessTrace.TraceFile.Writer

/-!
Where the header of a trace file ends: at the first zero byte behind the magic bytes. The text of
regions that hold no null character has no zero byte.
-/

namespace AccessTrace

def Region.NullFree (r : Region) : Prop :=
  ∀ text ∈ [r.perms, r.offset, r.dev, r.inode, r.pathname], '\x00' ∉ text.toList

namespace TraceFile

theorem zero_not_mem_encodeRegion {r : Region} (h : r.NullFree) : 0 ∉ encodeRegion r := by
  apply Text.Utf8.zero_not_mem_encode
  have hline : ∀ c ∈ r.line, c ≠ '\x00' := by
    refine Region.forall_mem_line (by decide) (by decide) (by decide) ?_
    rintro text htext c hc rfl
    exact h text htext hc
  rw [List.mem_append, not_or]
  exact ⟨fun hmem => hline _ hmem rfl, by decide⟩

variable {strict : Bool} {opened : Opened}

/-- A zero byte that is not in the text in front of it shows where that text ends. -/
theorem append_zero_inj {text text' rest rest' : Bytes} (htext : 0 ∉ text) (htext' : 0 ∉ text')
    (h : text ++ 0 :: rest = text' ++ 0 :: rest') : text = text' ∧ rest = rest' := by
  induction text generalizing text' with
  | nil =>
    cases text' with
    | nil => exact ⟨rfl, (List.cons.inj h).2⟩
    | cons b tail => exact absurd (by simp [(List.cons.inj h).1]) htext'
  | cons b tail ih =>
    cases text' with
    | nil => exact absurd (by simp [(List.cons.inj h).1]) htext
    | cons b' tail' =>
      rw [List.cons_append, List.cons_append, List.cons.injEq] at h
      obtain ⟨rfl, h⟩ := h
      obtain ⟨rfl, rfl⟩ := ih (fun hb => htext (.tail _ hb)) (fun hb => htext' (.tail _ hb)) h
      exact ⟨rfl, rfl⟩

theorem split_of_dropWhile {body : Bytes} {b : UInt8} {rest : Bytes}
    (h : body.dropWhile (· ≠ 0) = b :: rest) :
    body = body.takeWhile (· ≠ 0) ++ 0 :: rest ∧ 0 ∉ body.takeWhile (· ≠ 0) := by
  have hb : b = 0 := by
    have hhead := List.head?_dropWhile_not (fun b : UInt8 => decide (b ≠ 0)) body
    rw [h] at hhead
    simpa using hhead
  constructor
  · conv => lhs; rw [← @List.takeWhile_append_dropWhile _ (fun b => decide (b ≠ 0)) body, h, hb]
  · intro hzero
    simpa using List.all_eq_true.1 List.all_takeWhile 0 hzero

section Terminated

variable {text : Bytes}

theorem dropWhile_append_nonzero (hzero : 0 ∉ text) (rest : Bytes) :
    (text ++ rest).dropWhile (· ≠ 0) = rest.dropWhile (· ≠ 0) :=
  List.dropWhile_append_of_pos fun _ hb => decide_eq_true fun hb' => hzero (hb' ▸ hb)

theorem takeWhile_append_nonzero (hzero : 0 ∉ text) (rest : Bytes) :
    (text ++ rest).takeWhile (· ≠ 0) = text ++ rest.takeWhile (· ≠ 0) :=
  List.takeWhile_append_of_pos fun _ hb => decide_eq_true fun hb' => hzero (hb' ▸ hb)

theorem read_terminated (hzero : 0 ∉ text) (rest : Bytes) :
    read strict (magic ++ text ++ 0 :: rest) =
      (regionText strict text).bind fun chars =>
        ((Region.Table.ofText? strict chars).mapError .regions).map fun regions =>
          ⟨text.length, regions, ⟨magic.length + text.length + 1, rest⟩⟩ := by
  have hdrop : (text ++ 0 :: rest).dropWhile (· ≠ 0) = 0 :: rest :=
    dropWhile_append_nonzero hzero _
  have htake : (text ++ 0 :: rest).takeWhile (· ≠ 0) = text :=
    (takeWhile_append_nonzero hzero _).trans (List.append_nil text)
  simp only [read, List.append_assoc, List.take_left, ne_eq, not_true_eq_false, if_false,
    List.drop_left]
  rw [hdrop, htake]
  rfl

end Terminated

theorem read_cases (file : Bytes) :
    (∃ found, ∀ strict, read strict file = .error (.badMagic found)) ∨
    (∀ strict, read strict file = .error .unterminatedRegions) ∨
    ∃ text rest, file = magic ++ text ++ 0 :: rest ∧ 0 ∉ text := by
  by_cases hmagic : file.take magic.length = magic
  · cases hdrop : (file.drop magic.length).dropWhile (· ≠ 0) with
    | nil =>
      refine .inr (.inl fun strict => ?_)
      simp only [read, hmagic, ne_eq, not_true_eq_false, if_false, hdrop]
    | cons b rest =>
      obtain ⟨hbody, hzero⟩ := split_of_dropWhile hdrop
      refine .inr (.inr ⟨_, rest, ?_, hzero⟩)
      rw [List.append_assoc, ← hbody]
      conv => lhs; rw [← List.take_append_drop magic.length file, hmagic]
  · refine .inl ⟨file.take magic.length, fun strict => ?_⟩
    simp only [read, ne_eq, hmagic, not_false_eq_true, if_true]

theorem split_of_read {file : Bytes} (h : read strict file = .ok opened) :
    ∃ text rest, file = magic ++ text ++ 0 :: rest ∧ 0 ∉ text ∧
      opened.regionTextLength = text.length ∧
      opened.blocks = { offset := opened.dataOffset, rest } := by
  rcases read_cases file with ⟨found, hread⟩ | hread | ⟨text, rest, rfl, hzero⟩
  · rw [hread] at h
    contradiction
  · rw [hread] at h
    contradiction
  · rw [read_terminated hzero] at h
    obtain ⟨chars, -, h⟩ := exists_of_bind_eq_ok h
    cases hregions : Region.Table.ofText? strict chars with
    | error e =>
      rw [hregions] at h
      contradiction
    | ok regions =>
      rw [hregions] at h
      obtain rfl := Except.ok.inj h
      exact ⟨text, rest, rfl, hzero, rfl, rfl⟩

theorem blocks_of_read {file : Bytes} (h : read strict file = .ok opened) :
    opened.blocks = Blocks.startingAt file opened.dataOffset ∧ opened.dataOffset ≤ file.length := by
  obtain ⟨text, rest, rfl, -, hlength, hblocks⟩ := split_of_read h
  have hoffset : (magic ++ text ++ [0]).length = opened.dataOffset := by
    rw [Opened.dataOffset, hlength, List.length_append, List.length_append]
    rfl
  rw [List.append_cons, ← hoffset]
  constructor
  · rw [hblocks, Blocks.startingAt, List.drop_left, hoffset]
  · exact (List.prefix_append (magic ++ text ++ [0]) rest).length_le

theorem blocks_of_read_encodeHeader {regions : List Region} {tail : Bytes}
    (nullFree : ∀ r ∈ regions, r.NullFree)
    (h : read strict (encodeHeader regions ++ tail) = .ok opened) :
    opened.dataOffset = (encodeHeader regions).length ∧
      opened.blocks = { offset := opened.dataOffset, rest := tail } := by
  obtain ⟨text, rest, hfile, hzero, hlength, hblocks⟩ := split_of_read h
  have hregions : 0 ∉ regions.flatMap encodeRegion := by
    intro hmem
    obtain ⟨r, hr, hmem⟩ := List.mem_flatMap.1 hmem
    exact zero_not_mem_encodeRegion (nullFree r hr) hmem
  simp only [encodeHeader, List.append_assoc, List.append_cancel_left_eq, List.singleton_append]
    at hfile
  obtain ⟨rfl, rfl⟩ := append_zero_inj hregions hzero hfile
  refine ⟨?_, hblocks⟩
  rw [Opened.dataOffset, hlength, encodeHeader, List.length_append, List.length_append]
  rfl

end TraceFile

end AccessTrace
