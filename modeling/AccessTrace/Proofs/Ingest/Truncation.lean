import AccessTrace.Proofs.Ingest.Faults
import AccessTrace.Proofs.TraceFile.Truncation

/-!
Loading a trace file that was cut off. What is loaded are the chunks of the blocks in front of the
cut, each as it is in a load of the whole file; the load ends with a fault unless the cut is between
two blocks.
-/

namespace AccessTrace

namespace Ingest

/-- The chunks of those blocks that end at an offset or before it. -/
def chunksUpTo (raws : List TraceFile.RawBlock) (chunks : List Chunk) (cut : Nat) : List Chunk :=
  ((raws.zip chunks).filter fun block => block.1.stop ≤ cut).map Prod.snd

variable {raw : TraceFile.RawBlock} {chunks : List Chunk} {cut : Nat}

theorem fileOffset_of_sequence {p : Processor} {blocks : TraceFile.Blocks} {chunks : List Chunk}
    (h : sequence p blocks = (chunks, none)) :
    chunks.map Chunk.fileOffset = blocks.remaining.1.map TraceFile.RawBlock.fileOffset := by
  match hnext : blocks.next with
  | (.error e, _) =>
    rw [sequence_of_unreadable (congrArg Prod.fst hnext)] at h
    simp at h
  | (.ok none, t) =>
    rw [sequence_of_end (congrArg Prod.fst hnext)] at h
    rw [TraceFile.Blocks.remaining_of_none hnext, ← (Prod.mk.inj h).1]
    rfl
  | (.ok (some raw), rest) =>
    have := TraceFile.Blocks.length_lt_of_next hnext
    obtain ⟨batch, chunk, q, tail, hbatch, hprocess, rfl, hrest⟩ := exists_of_sequence hnext h
    have hoffset : batch.fileOffset = raw.fileOffset := by
      unfold batchOf at hbatch
      cases hrecords : decodePayload raw.payload with
      | error e => simp [hrecords, Except.map] at hbatch
      | ok records =>
        rw [hrecords] at hbatch
        exact Except.ok.inj hbatch ▸ rfl
    rw [TraceFile.Blocks.remaining_of_some hnext, List.map_cons, List.map_cons,
      fileOffset_of_sequence hrest, (Processor.step_of_process hprocess).fileOffset, hoffset]
termination_by blocks.rest.length

theorem chunksUpTo_cons {raws : List TraceFile.RawBlock} {chunk : Chunk} (h : raw.stop ≤ cut) :
    chunksUpTo (raw :: raws) (chunk :: chunks) cut = chunk :: chunksUpTo raws chunks cut := by
  rw [chunksUpTo, List.zip_cons_cons, List.filter_cons_of_pos (by simpa using h), List.map_cons]
  rfl

theorem chunksUpTo_eq_nil {raws : List TraceFile.RawBlock} (h : ∀ raw ∈ raws, cut < raw.stop) :
    chunksUpTo raws chunks cut = [] := by
  rw [chunksUpTo, List.map_eq_nil_iff, List.filter_eq_nil_iff]
  intro block hblock
  simpa using h _ (List.of_mem_zip hblock).1

theorem sequence_upTo {p : Processor} {blocks : TraceFile.Blocks} {chunks : List Chunk}
    (h : sequence p blocks = (chunks, none)) (hcut : blocks.offset ≤ cut)
    (hinside : cut < blocks.offset + blocks.rest.length) :
    ∃ raw ∈ blocks.remaining.1, raw.fileOffset ≤ cut ∧ cut < raw.stop ∧
      sequence p (blocks.upTo cut) = (chunksUpTo blocks.remaining.1 chunks cut,
        if cut = raw.fileOffset then none else some (.file (raw.truncation cut))) := by
  match hnext : blocks.next with
  | (.error e, _) =>
    rw [sequence_of_unreadable (congrArg Prod.fst hnext)] at h
    simp at h
  | (.ok none, t) =>
    rw [(TraceFile.Blocks.next_eq_none_iff.1 hnext).1, List.length_nil] at hinside
    omega
  | (.ok (some raw), rest) =>
    have hless := TraceFile.Blocks.length_lt_of_next hnext
    obtain ⟨batch, chunk, q, tail, hbatch, hprocess, rfl, hrest⟩ := exists_of_sequence hnext h
    obtain ⟨hoffset, -, hbytes, hbehind⟩ := TraceFile.Blocks.next_eq_some_iff.1 hnext
    have hstart : raw.stop = rest.offset := by rw [TraceFile.RawBlock.stop, hoffset, hbehind]
    rw [TraceFile.Blocks.remaining_of_some hnext]
    by_cases hstop : raw.stop ≤ cut
    · have hlength := congrArg List.length hbytes
      rw [List.length_append, TraceFile.length_frame] at hlength
      obtain ⟨last, hmem, hfront, hback, hloop⟩ :=
        sequence_upTo hrest (hstart ▸ hstop) (by omega)
      refine ⟨last, .tail _ hmem, hfront, hback, ?_⟩
      rw [sequence_of_some (TraceFile.Blocks.next_upTo_of_stop_le hnext hstop), hbatch,
        chunksUpTo_cons hstop]
      simp only [hprocess, hloop]
    · have hlt := Nat.lt_of_not_le hstop
      have hnone : chunksUpTo (raw :: rest.remaining.1) (chunk :: tail) cut = [] := by
        refine chunksUpTo_eq_nil fun later hlater => ?_
        rcases List.mem_cons.1 hlater with rfl | hlater
        · exact hlt
        · have := TraceFile.Blocks.offset_le_of_mem_remaining hlater
          rw [TraceFile.RawBlock.stop]
          omega
      have hend := TraceFile.Blocks.next_upTo_of_lt_stop hnext (hoffset ▸ hcut) hlt
      refine ⟨raw, .head _, hoffset ▸ hcut, hlt, ?_⟩
      rw [hnone]
      split at hend
      · rw [sequence_of_end hend, if_pos ‹_›]
      · rw [sequence_of_unreadable hend, if_neg ‹_›]
termination_by blocks.rest.length

end Ingest

namespace Pipeline

variable {c : Config} {opened : TraceFile.Opened} {rereads : Bool} {answers : List Poll}
  {moves : List Move} {s : Pipeline} {cut : Nat}

/-- A trace file that loads without a fault, cut off at any byte. In its header the cut is refused
with the fault of the part that it goes through. Behind the header, every load of what is left has
the chunks of the whole load for the blocks in front of the cut and no other, and ends without a
fault exactly at a cut between two blocks, otherwise with the block that was cut. -/
theorem load_of_cut_file (c : Config) {file : Bytes} {stats : Ingest.Stats}
    (hread : TraceFile.read c.strictRegions file = .ok opened)
    (hs : CompleteRun c opened rereads answers moves s) (hok : s.result? = some (.ok stats))
    (hcut : cut < file.length) :
    let raws := opened.blocks.remaining.1
    s.store.chunks.toList.map Chunk.fileOffset = raws.map TraceFile.RawBlock.fileOffset ∧
    (cut < 8 →
      TraceFile.read c.strictRegions (file.take cut) = .error (.badMagic (file.take cut))) ∧
    (8 ≤ cut → cut < opened.dataOffset →
      TraceFile.read c.strictRegions (file.take cut) = .error .unterminatedRegions) ∧
    (opened.dataOffset ≤ cut →
      TraceFile.read c.strictRegions (file.take cut) = .ok (opened.upTo cut) ∧
      (c.validate = .ok () →
        ∃ answers moves t, CompleteRun c (opened.upTo cut) rereads answers moves t) ∧
      (∃ raw ∈ raws, raw.fileOffset ≤ cut ∧ cut < raw.stop) ∧
      ∀ answers moves t, CompleteRun c (opened.upTo cut) rereads answers moves t →
        t.store.chunks.toList = Ingest.chunksUpTo raws s.store.chunks.toList cut ∧
        ∀ raw ∈ raws, raw.fileOffset ≤ cut → cut < raw.stop →
          (cut = raw.fileOffset →
            ∃ stats, t.result? = some (.ok stats) ∧ stats.cancelled = false) ∧
          (cut ≠ raw.fileOffset →
            t.result? = some (.error (.file (raw.truncation cut))))) := by
  intro raws
  have hwhole := hs.loop_eq hok
  refine ⟨Ingest.fileOffset_of_sequence hwhole, TraceFile.read_take_of_lt_magic,
    TraceFile.read_take_of_lt_dataOffset hread, fun hbehind => ?_⟩
  obtain ⟨hoffset, hlength⟩ := TraceFile.length_of_read hread
  obtain ⟨raw, hraw, hfront, hback, hloop⟩ :=
    Ingest.sequence_upTo hwhole (hoffset ▸ hbehind) (by omega)
  have hcutLoop : loop c (opened.upTo cut) = _ := hloop
  refine ⟨TraceFile.read_take_of_dataOffset_le hread hbehind, fun hvalid =>
    exists_completeRun (Config.channelCapacity_pos_of_validate hvalid) _ _,
    ⟨raw, hraw, hfront, hback⟩, fun answers moves t ht => ⟨?_, fun other hother hstart hstop => ?_⟩⟩
  · rw [ht.chunks_eq, hcutLoop]
  obtain rfl := TraceFile.Blocks.eq_of_mem_remaining hother hraw ⟨hstart, hstop⟩ ⟨hfront, hback⟩
  refine ⟨fun hbetween => ?_, fun hthrough => ?_⟩
  · exact ht.result?_of_none (by rw [hcutLoop, if_pos hbetween])
  · exact ht.result?_of_file (by rw [hcutLoop, if_neg hthrough])

/-- Two blocks, of which the second is cut off in its payload. -/
theorem load_of_file_cut_in_second_block :
    let file := TraceFile.magic ++ 0 :: (TraceFile.encodeBlock Lz4.encode [.enter 7] ++
      TraceFile.encodeBlock Lz4.encode [.exit 7])
    let quietPoll : Poll := ⟨none, false⟩
    let moves : List Move := [.read, .poll quietPoll, .read, .read, .process, .process, .process,
      .process, .read, .poll quietPoll, .read, .read, .process, .process, .process, .process, .read,
      .poll quietPoll, .read, .process, .process]
    ∃ opened s, TraceFile.read false file = .ok opened ∧
      CompleteRun {} opened true (List.replicate 3 quietPoll) moves s ∧
      s.result? = some (.ok ⟨2, 120, 2, 2, false⟩) ∧ 100 < file.length ∧
      TraceFile.read false (file.take 100) = .ok (opened.upTo 100) ∧
      ∀ answers moves t, CompleteRun {} (opened.upTo 100) true answers moves t →
        t.result? = some (.error (.file (.truncatedBlock 77 60 15))) := by
  intro file quietPoll moves
  have hany : (TraceFile.read false file).toOption.any (fun opened =>
      completes {} opened true (List.replicate 3 quietPoll) moves (.ok ⟨2, 120, 2, 2, false⟩) &&
      opened.dataOffset == 9 && opened.blocks.remaining.1.map
        (fun raw => (raw.fileOffset, raw.payload.length)) == [(9, 60), (77, 60)]) = true := by
    decide +kernel +revert
  have hcut : 100 < file.length := by
    clear hany
    decide +kernel +revert
  cases hread : TraceFile.read false file with
  | error e =>
    rw [hread] at hany
    contradiction
  | ok opened =>
    rw [hread] at hany
    simp only [Except.toOption, Option.any_some, Bool.and_eq_true, beq_iff_eq] at hany
    obtain ⟨⟨hcompletes, hoffset⟩, hblocks⟩ := hany
    obtain ⟨s, hs, hok⟩ := CompleteRun.of_completes hcompletes
    obtain ⟨-, -, -, hbehind⟩ := load_of_cut_file {} hread hs hok hcut
    obtain ⟨hopens, -, ⟨raw, hraw, hfront, hback⟩, hloads⟩ := hbehind (by rw [hoffset]; decide)
    have hmem := List.mem_map_of_mem (f := fun raw => (raw.fileOffset, raw.payload.length)) hraw
    rw [hblocks] at hmem
    obtain ⟨hstart, hlength⟩ : raw.fileOffset = 77 ∧ raw.payload.length = 60 := by
      rw [TraceFile.RawBlock.stop] at hback
      simp only [List.mem_cons, Prod.mk.injEq, List.not_mem_nil, or_false] at hmem
      omega
    refine ⟨opened, s, rfl, hs, hok, hcut, hopens, fun answers moves t ht => ?_⟩
    have hresult := ((hloads answers moves t ht).2 raw hraw hfront hback).2 (by omega)
    rwa [TraceFile.RawBlock.truncation, hstart, hlength] at hresult

end Pipeline

end AccessTrace
