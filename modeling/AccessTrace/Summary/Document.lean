import AccessTrace.Json
import AccessTrace.Summary
import AccessTrace.Text

/-!
Summaries as JSON documents. Fields are written in a fixed order, and the path of a region only when
it has one; reading takes them in any order and ignores fields it does not know.
-/

namespace AccessTrace.Summary

open Json (Value)

def field (name : String) (v : Value) : Json.Member :=
  (name.toList, v)

def optionalText (v : Option Value) : Option String :=
  match v with
  | none => some ""
  | some v => v.string?

def CountFigures.toJson (c : CountFigures) : Value :=
  .object [
    field "accesses" (.ofWord c.accesses),
    field "writes" (.ofWord c.writes),
    field "enters" (.ofWord c.enters),
    field "exits" (.ofWord c.exits),
    field "unmapped_accesses" (.ofWord c.unmappedAccesses)]

def CountFigures.ofJson? (v : Value) : Option CountFigures := do
  match ← v.fields? ["accesses", "writes", "enters", "exits", "unmapped_accesses"] with
  | [some accesses, some writes, some enters, some exits, some unmapped] =>
    return {
      accesses := ← accesses.word?
      writes := ← writes.word?
      enters := ← enters.word?
      exits := ← exits.word?
      unmappedAccesses := ← unmapped.word? }
  | _ => none

def RegionEntry.toJson (r : RegionEntry) : Value :=
  let pathname := if r.pathname.isEmpty then [] else [field "pathname" (.ofString r.pathname)]
  .object ([
    field "id" (.ofWord r.id),
    field "low" (.ofWord r.low),
    field "high" (.ofWord r.high),
    field "perms" (.ofString r.perms)] ++ pathname)

def RegionEntry.ofJson? (v : Value) : Option RegionEntry := do
  match ← v.fields? ["id", "low", "high", "perms", "pathname"] with
  | [some id, some low, some high, some perms, pathname] =>
    return {
      id := ← id.word?
      low := ← low.word?
      high := ← high.word?
      perms := ← perms.string?
      pathname := ← optionalText pathname }
  | _ => none

def ChunkEntry.toJson (c : ChunkEntry) : Value :=
  .object [
    field "index" (.ofWord c.index),
    field "first_record" (.ofWord c.firstRecord),
    field "record_count" (.ofWord c.recordCount),
    field "file_offset" (.ofWord c.fileOffset),
    field "frames" (.ofWord c.frames),
    field "active_pages" (.ofWord c.activePages),
    field "quiet_pages" (.ofWord c.quietPages),
    field "peak_page_accesses" (.ofWord c.peakPageAccesses),
    field "open_depth" (.ofWord c.openDepth)]

def ChunkEntry.ofJson? (v : Value) : Option ChunkEntry := do
  match ← v.fields? ["index", "first_record", "record_count", "file_offset", "frames",
      "active_pages", "quiet_pages", "peak_page_accesses", "open_depth"] with
  | [some index, some firstRecord, some recordCount, some fileOffset, some frames,
      some activePages, some quietPages, some peak, some openDepth] =>
    return {
      index := ← index.word?
      firstRecord := ← firstRecord.word?
      recordCount := ← recordCount.word?
      fileOffset := ← fileOffset.word?
      frames := ← frames.word?
      activePages := ← activePages.word?
      quietPages := ← quietPages.word?
      peakPageAccesses := ← peak.word?
      openDepth := ← openDepth.word? }
  | _ => none

def toJson (s : Summary) : Value :=
  .object [
    field "version" (.ofString s.version),
    field "trace" (.ofString s.trace),
    field "page_size" (.ofWord s.pageSize),
    field "chunk_count" (.ofWord s.chunkCount),
    field "total_records" (.ofWord s.totalRecords),
    field "counts" s.counts.toJson,
    field "active_pages" (.ofWord s.activePages),
    field "quiet_pages" (.ofWord s.quietPages),
    field "touched_regions" (.array (s.touchedRegions.map RegionEntry.toJson)),
    field "open_frames" (.array (s.openFrames.map Value.ofString)),
    field "chunks" (.array (s.chunks.map ChunkEntry.toJson)),
    field "generated_at" (.ofString s.generatedAt)]

def ofJson? (v : Value) : Option Summary := do
  match ← v.fields? ["version", "trace", "page_size", "chunk_count", "total_records", "counts",
      "active_pages", "quiet_pages", "touched_regions", "open_frames", "chunks",
      "generated_at"] with
  | [some version, some trace, some pageSize, some chunkCount, some totalRecords, some counts,
      some activePages, some quietPages, some touchedRegions, some openFrames, some chunks,
      some generatedAt] =>
    return {
      version := ← version.string?
      trace := ← trace.string?
      pageSize := ← pageSize.word?
      chunkCount := ← chunkCount.word?
      totalRecords := ← totalRecords.word?
      counts := ← CountFigures.ofJson? counts
      activePages := ← activePages.word?
      quietPages := ← quietPages.word?
      touchedRegions := ← (← touchedRegions.array?).mapM RegionEntry.ofJson?
      openFrames := ← (← openFrames.array?).mapM Value.string?
      chunks := ← (← chunks.array?).mapM ChunkEntry.ofJson?
      generatedAt := ← generatedAt.string? }
  | _ => none

def text (s : Summary) : List Char :=
  s.toJson.text

def encode (s : Summary) : Bytes :=
  Text.Utf8.encode s.text

def decode? (bytes : Bytes) : Option Summary :=
  (Value.ofBytes? bytes).bind ofJson?

end AccessTrace.Summary
