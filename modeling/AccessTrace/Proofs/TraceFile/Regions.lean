import AccessTrace.Proofs.Region.Text
import AccessTrace.Proofs.TraceFile.Header

/-!
The regions in the header of a trace file. Main statement: the regions that a header gives back are
those of ordered tables whose regions are plain, and no header gives others, so reading and writing
again changes nothing, however untidy the text was.
-/

namespace AccessTrace

theorem Region.Plain.nullFree {r : Region} (h : r.Plain) : r.NullFree := by
  have hattributes := h.attributes
  simp only [List.forall_mem_cons, Region.NullFree] at hattributes ⊢
  obtain ⟨hperms, hoffset, hdev, hinode, -⟩ := hattributes
  exact ⟨hperms.2, hoffset.2, hdev.2, hinode.2, h.path_nullFree, by simp⟩

namespace TraceFile

variable {strict : Bool} {file text : Bytes} {regions : List Region} {opened : Opened}

/-- Strict reading takes the text as it is, and lenient reading finds nothing in it to repair. -/
theorem regionText_encode (strict : Bool) (text : List Char) :
    regionText strict (Text.Utf8.encode text) = .ok text := by
  cases strict with
  | false => exact congrArg Except.ok (Text.Utf8.repair_encode text)
  | true => exact congrArg (Except.mapError _) (Text.Utf8.decode_encode text)

theorem null_not_mem_regionText {chars : List Char} (h : regionText strict text = .ok chars)
    (hzero : 0 ∉ text) : '\x00' ∉ chars := by
  cases strict with
  | false =>
    obtain rfl := Except.ok.inj h
    exact Text.Utf8.null_not_mem_repair hzero
  | true => exact Text.Utf8.null_not_mem_of_decode hzero (mapError_eq_ok.1 h)

theorem flatMap_encodeRegion (regions : List Region) :
    regions.flatMap encodeRegion =
      Text.Utf8.encode (regions.flatMap fun r => r.line ++ ['\n']) := by
  rw [Text.Utf8.encode, List.flatMap_assoc]
  rfl

/-- The region text of a file that opens has no null character, since it ends at the first one. -/
theorem exists_text_of_read (h : read strict file = .ok opened) :
    ∃ chars, '\x00' ∉ chars ∧ Region.Table.ofText? strict chars = .ok opened.regions := by
  obtain ⟨text, rest, rfl, hzero, -, -⟩ := split_of_read h
  rw [read_terminated hzero] at h
  obtain ⟨chars, hchars, h⟩ := exists_of_bind_eq_ok h
  refine ⟨chars, null_not_mem_regionText hchars hzero, ?_⟩
  cases hregions : Region.Table.ofText? strict chars with
  | error e => simp [hregions, Except.mapError, Except.map] at h
  | ok regions =>
    simp only [hregions, Except.mapError, Except.map, Except.ok.injEq] at h
    rw [← h]

theorem plain_of_read (h : read strict file = .ok opened) :
    ∀ r ∈ opened.regions.toList, r.Plain := by
  obtain ⟨chars, hnull, hregions⟩ := exists_text_of_read h
  exact Region.Table.plain_of_ofText? hregions hnull

theorem exists_read_encodeHeader {t : Region.Table} (strict : Bool) (tail : Bytes)
    (hplain : ∀ r ∈ regions, r.Plain) (htable : Region.Table.ofList regions = .ok t) :
    ∃ opened, read strict (encodeHeader regions ++ tail) = .ok opened ∧ opened.regions = t := by
  have hzero : 0 ∉ regions.flatMap encodeRegion := by
    intro hmem
    obtain ⟨r, hr, hmem⟩ := List.mem_flatMap.1 hmem
    exact zero_not_mem_encodeRegion (hplain r hr).nullFree hmem
  have hread : read strict (encodeHeader regions ++ tail) =
      (Except.ok t).map fun t => ⟨(regions.flatMap encodeRegion).length, t,
        ⟨magic.length + (regions.flatMap encodeRegion).length + 1, tail⟩⟩ := by
    rw [encodeHeader, List.append_assoc, List.singleton_append, read_terminated hzero,
      flatMap_encodeRegion, regionText_encode, Except.bind, Region.Table.ofText?_lines hplain,
      htable]
    rfl
  exact ⟨_, hread, rfl⟩

/-- Both ways of reading give back exactly the lists that make a table of plain regions. Each table
that was read is made of such a list, and is read again from the header written for it. -/
theorem regions_of_reopened :
    (∀ strict regions tail,
      (∃ opened, read strict (encodeHeader regions ++ tail) = .ok opened ∧
          opened.regions.toList = regions) ↔
        (∃ t, Region.Table.ofList regions = .ok t) ∧ ∀ r ∈ regions, r.Plain) ∧
      ∀ strict file opened, read strict file = .ok opened →
        Region.Table.ofList opened.regions.toList = .ok opened.regions ∧
          (∀ r ∈ opened.regions.toList, r.Plain) ∧
          ∀ strict' tail, ∃ reopened,
            read strict' (encodeHeader opened.regions.toList ++ tail) = .ok reopened ∧
              reopened.regions = opened.regions := by
  constructor
  · intro strict regions tail
    constructor
    · rintro ⟨opened, hread, rfl⟩
      exact ⟨⟨opened.regions, Region.Table.ofList_toList _⟩, plain_of_read hread⟩
    · rintro ⟨⟨t, htable⟩, hplain⟩
      obtain ⟨opened, hread, rfl⟩ := exists_read_encodeHeader strict tail hplain htable
      exact ⟨opened, hread, Region.Table.toList_of_ofList htable⟩
  · intro strict file opened hread
    have hplain := plain_of_read hread
    refine ⟨Region.Table.ofList_toList _, hplain, fun strict' tail => ?_⟩
    exact exists_read_encodeHeader strict' tail hplain (Region.Table.ofList_toList _)

/-- A header with wide gaps, upper-case digits, a broken sequence in a path, a line that is passed
over and a region without a path. -/
def untidyHeader : Bytes :=
  magic ++ Text.Utf8.encode "1A-2b\t r-xp\u30000 08:01 7  /a b".toList ++ [0xff] ++
    Text.Utf8.encode " \nnonsense\n\n 2B-+30 rw-p 0 0 0\n".toList ++ [0]

def untidyRegions : List Region :=
  [⟨0x1a, 0x2b, "r-xp", "0", "08:01", "7", "/a b\ufffd"⟩, ⟨0x2b, 0x30, "rw-p", "0", "0", "0", ""⟩]

theorem regions_of_reopened_untidy :
    (read false untidyHeader).map (·.regions.toList) = .ok untidyRegions ∧
      (∀ r ∈ untidyRegions, r.Plain) ∧
      (read true (encodeHeader untidyRegions)).map (·.regions.toList) = .ok untidyRegions := by
  have hlenient : (read false untidyHeader).map (·.regions.toList) = .ok untidyRegions := by
    decide +kernel
  cases hread : read false untidyHeader with
  | error e =>
    rw [hread] at hlenient
    contradiction
  | ok opened =>
    rw [hread] at hlenient
    have hregions := Except.ok.inj hlenient
    dsimp only at hregions
    obtain ⟨-, hplain, hreopened⟩ := regions_of_reopened.2 false untidyHeader opened hread
    obtain ⟨reopened, hstrict, hsame⟩ := hreopened true []
    rw [hregions] at hplain hstrict
    rw [List.append_nil] at hstrict
    refine ⟨congrArg Except.ok hregions, hplain, ?_⟩
    rw [hstrict]
    exact congrArg Except.ok ((congrArg Region.Table.toList hsame).trans hregions)

end TraceFile

end AccessTrace
