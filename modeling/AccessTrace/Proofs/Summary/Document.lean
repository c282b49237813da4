import AccessTrace.Proofs.Json.Front
import AccessTrace.Proofs.Text.Utf8
import AccessTrace.Summary.Document

/-!
A summary is read back from its document as it was written, and no summary from a document that
lacks its end.
-/

namespace AccessTrace.Summary

open Json (Legible Value)

abbrev Fields :=
  List (String × Option Value)

namespace CountFigures

def fields (c : CountFigures) : Fields := [
  ("accesses", some (.ofWord c.accesses)),
  ("writes", some (.ofWord c.writes)),
  ("enters", some (.ofWord c.enters)),
  ("exits", some (.ofWord c.exits)),
  ("unmapped_accesses", some (.ofWord c.unmappedAccesses))]

theorem toJson_eq (c : CountFigures) : c.toJson = .ofFields c.fields :=
  rfl

theorem names (c : CountFigures) : Value.Names (c.fields.map Prod.fst) :=
  (by decide +kernel :
    Value.Names ["accesses", "writes", "enters", "exits", "unmapped_accesses"])

theorem legible_toJson (c : CountFigures) : Legible c.toJson := by
  rw [toJson_eq]
  apply Value.legible_ofFields c.names
  simp [fields]

@[simp] theorem ofJson?_toJson (c : CountFigures) : ofJson? c.toJson = some c := by
  have hfields := Value.fields?_ofFields c.names
  simp only [fields, List.map_cons, List.map_nil] at hfields
  rw [toJson_eq, ofJson?, fields, hfields]
  dsimp only [Option.bind_eq_bind, Option.bind_some]
  simp only [Value.word?_ofWord]
  rfl

end CountFigures

namespace RegionEntry

def fields (r : RegionEntry) : Fields := [
  ("id", some (.ofWord r.id)),
  ("low", some (.ofWord r.low)),
  ("high", some (.ofWord r.high)),
  ("perms", some (.ofString r.perms)),
  ("pathname", if r.pathname.isEmpty then none else some (.ofString r.pathname))]

theorem toJson_eq (r : RegionEntry) : r.toJson = .ofFields r.fields := by
  unfold toJson fields
  split <;> rfl

theorem names (r : RegionEntry) : Value.Names (r.fields.map Prod.fst) :=
  (by decide +kernel : Value.Names ["id", "low", "high", "perms", "pathname"])

theorem legible_toJson (r : RegionEntry) : Legible r.toJson := by
  rw [toJson_eq]
  apply Value.legible_ofFields r.names
  by_cases h : r.pathname = "" <;> simp [fields, h]

theorem optionalText_pathname (r : RegionEntry) :
    optionalText (if r.pathname.isEmpty then none else some (.ofString r.pathname)) =
      some r.pathname := by
  by_cases h : r.pathname = "" <;> simp [optionalText, h]

@[simp] theorem ofJson?_toJson (r : RegionEntry) : ofJson? r.toJson = some r := by
  have hfields := Value.fields?_ofFields r.names
  simp only [fields, List.map_cons, List.map_nil] at hfields
  rw [toJson_eq, ofJson?, fields, hfields]
  dsimp only [Option.bind_eq_bind, Option.bind_some]
  simp only [Value.word?_ofWord, Value.string?_ofString, optionalText_pathname]
  rfl

end RegionEntry

namespace ChunkEntry

def fields (c : ChunkEntry) : Fields := [
  ("index", some (.ofWord c.index)),
  ("first_record", some (.ofWord c.firstRecord)),
  ("record_count", some (.ofWord c.recordCount)),
  ("file_offset", some (.ofWord c.fileOffset)),
  ("frames", some (.ofWord c.frames)),
  ("active_pages", some (.ofWord c.activePages)),
  ("quiet_pages", some (.ofWord c.quietPages)),
  ("peak_page_accesses", some (.ofWord c.peakPageAccesses)),
  ("open_depth", some (.ofWord c.openDepth))]

theorem toJson_eq (c : ChunkEntry) : c.toJson = .ofFields c.fields :=
  rfl

theorem names (c : ChunkEntry) : Value.Names (c.fields.map Prod.fst) :=
  (by decide +kernel : Value.Names ["index", "first_record", "record_count", "file_offset",
    "frames", "active_pages", "quiet_pages", "peak_page_accesses", "open_depth"])

theorem legible_toJson (c : ChunkEntry) : Legible c.toJson := by
  rw [toJson_eq]
  apply Value.legible_ofFields c.names
  simp [fields]

@[simp] theorem ofJson?_toJson (c : ChunkEntry) : ofJson? c.toJson = some c := by
  have hfields := Value.fields?_ofFields c.names
  simp only [fields, List.map_cons, List.map_nil] at hfields
  rw [toJson_eq, ofJson?, fields, hfields]
  dsimp only [Option.bind_eq_bind, Option.bind_some]
  simp only [Value.word?_ofWord]
  rfl

end ChunkEntry

def fields (s : Summary) : Fields := [
  ("version", some (.ofString s.version)),
  ("trace", some (.ofString s.trace)),
  ("page_size", some (.ofWord s.pageSize)),
  ("chunk_count", some (.ofWord s.chunkCount)),
  ("total_records", some (.ofWord s.totalRecords)),
  ("counts", some s.counts.toJson),
  ("active_pages", some (.ofWord s.activePages)),
  ("quiet_pages", some (.ofWord s.quietPages)),
  ("touched_regions", some (.array (s.touchedRegions.map RegionEntry.toJson))),
  ("open_frames", some (.array (s.openFrames.map Value.ofString))),
  ("chunks", some (.array (s.chunks.map ChunkEntry.toJson))),
  ("generated_at", some (.ofString s.generatedAt))]

theorem toJson_eq (s : Summary) : s.toJson = .ofFields s.fields :=
  rfl

theorem names (s : Summary) : Value.Names (s.fields.map Prod.fst) :=
  (by decide +kernel : Value.Names ["version", "trace", "page_size", "chunk_count",
    "total_records", "counts", "active_pages", "quiet_pages", "touched_regions", "open_frames",
    "chunks", "generated_at"])

theorem legible_toJson (s : Summary) : Legible s.toJson := by
  rw [toJson_eq]
  apply Value.legible_ofFields s.names
  simp [fields, CountFigures.legible_toJson, Value.legible_array RegionEntry.legible_toJson,
    Value.legible_array Value.legible_ofString, Value.legible_array ChunkEntry.legible_toJson]

@[simp] theorem ofJson?_toJson (s : Summary) : ofJson? s.toJson = some s := by
  have hfields := Value.fields?_ofFields s.names
  simp only [fields, List.map_cons, List.map_nil] at hfields
  rw [toJson_eq, ofJson?, fields, hfields]
  dsimp only [Option.bind_eq_bind, Option.bind_some, Value.array?]
  simp only [Value.word?_ofWord, Value.string?_ofString, CountFigures.ofJson?_toJson,
    Value.mapM_map_of_inverse RegionEntry.ofJson?_toJson,
    Value.mapM_map_of_inverse Value.string?_ofString,
    Value.mapM_map_of_inverse ChunkEntry.ofJson?_toJson]
  rfl

theorem ofText?_text (s : Summary) : (Value.ofText? s.text).bind ofJson? = some s := by
  rw [text, Value.ofText?_text s.legible_toJson, Option.bind_some, ofJson?_toJson]

@[simp] theorem decode?_encode (s : Summary) : decode? s.encode = some s := by
  rw [decode?, Value.ofBytes?, encode, Text.Utf8.mend, Text.Utf8.mendFrom_encode]
  exact s.ofText?_text

theorem isContainer_of_ofJson? {v : Value} {s : Summary} (h : ofJson? v = some s) :
    v.IsContainer := by
  obtain ⟨fields, hfields, -⟩ := Option.bind_eq_some_iff.1 h
  exact Value.isContainer_of_fields? hfields

theorem decode?_of_cut {s : Summary} {held missing : Bytes} (h : held ++ missing = s.encode)
    (hmissing : missing ≠ []) : decode? held = none := by
  rw [decode?, Option.bind_eq_none_iff]
  intro v hread
  cases hv : ofJson? v with
  | none => rfl
  | some other =>
    exact absurd (isContainer_of_ofJson? hv)
      (Value.not_isContainer_of_cut s.legible_toJson trivial h hmissing hread)

end AccessTrace.Summary
