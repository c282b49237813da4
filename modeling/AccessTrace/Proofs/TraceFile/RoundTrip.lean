import AccessTrace.Proofs.Payload
import AccessTrace.Proofs.TraceFile.Blocks
import AccessTrace.Proofs.TraceFile.Header

/-!
What was written is read back, whichever compressor was used: the same blocks in the same order,
each at the offset that the lengths in front of it add up to.
-/

namespace AccessTrace.TraceFile

/-- The blocks of some payloads that are framed one behind the other from an offset on. -/
def layOut (offset : Nat) : List Bytes → List RawBlock
  | [] => []
  | payload :: rest => ⟨offset, payload⟩ :: layOut (offset + 8 + payload.length) rest

theorem map_payload_layOut (offset : Nat) (payloads : List Bytes) :
    (layOut offset payloads).map RawBlock.payload = payloads := by
  induction payloads generalizing offset with
  | nil => rfl
  | cons payload rest ih => rw [layOut, List.map_cons, ih]

theorem remaining_append {payloads : List Bytes} (offset : Nat)
    (h : ∀ payload ∈ payloads, payload.length < 2 ^ 63) (rest : Bytes) :
    Blocks.remaining ⟨offset, payloads.flatMap frame ++ rest⟩ =
      let behind := Blocks.remaining ⟨offset + (payloads.flatMap frame).length, rest⟩
      (layOut offset payloads ++ behind.1, behind.2) := by
  induction payloads generalizing offset with
  | nil => rfl
  | cons payload tail ih =>
    rw [List.forall_mem_cons] at h
    rw [List.flatMap_cons, List.append_assoc, List.length_append, length_frame, ← Nat.add_assoc,
      Blocks.remaining_of_some (Blocks.next_frame offset h.1 _), ih _ h.2, ← Nat.add_assoc]
    rfl

theorem remaining_frames {payloads : List Bytes} (offset : Nat)
    (h : ∀ payload ∈ payloads, payload.length < 2 ^ 63) :
    Blocks.remaining ⟨offset, payloads.flatMap frame⟩ = (layOut offset payloads, none) := by
  have hend : Blocks.remaining ⟨offset + (payloads.flatMap frame).length, []⟩ = ([], none) :=
    Blocks.remaining_of_none (Blocks.next_eq_none_iff.2 ⟨rfl, rfl⟩)
  simpa only [List.append_nil, hend] using remaining_append offset h []

theorem split_of_layOut {payloads : List Bytes} {offset k : Nat} {raw : RawBlock}
    (h : (layOut offset payloads)[k]? = some raw) :
    ∃ front back, payloads = front ++ raw.payload :: back ∧
      raw.fileOffset = offset + (front.flatMap frame).length := by
  induction payloads generalizing offset k with
  | nil => simp [layOut] at h
  | cons payload rest ih =>
    cases k with
    | zero =>
      obtain rfl := Option.some.inj h
      exact ⟨[], rest, rfl, rfl⟩
    | succ k =>
      rw [layOut, List.getElem?_cons_succ] at h
      obtain ⟨front, back, rfl, hoffset⟩ := ih h
      refine ⟨payload :: front, back, rfl, ?_⟩
      rw [hoffset, List.flatMap_cons, List.length_append, length_frame]
      omega

theorem fileOffset_of_layOut {payloads : List Bytes} {offset k : Nat} {raw : RawBlock}
    (h : (layOut offset payloads)[k]? = some raw) :
    raw.fileOffset =
      offset + (((layOut offset payloads).take k).map fun raw => 8 + raw.payload.length).sum := by
  induction payloads generalizing offset k with
  | nil => simp [layOut] at h
  | cons payload rest ih =>
    cases k with
    | zero =>
      obtain rfl := Option.some.inj h
      rfl
    | succ k =>
      rw [layOut, List.getElem?_cons_succ] at h
      rw [ih h, layOut, List.take_succ_cons, List.map_cons, List.sum_cons]
      dsimp only
      omega

variable {strict : Bool} {compress : Bytes → Bytes} {regions : List Region}
  {blocks : List (List Record)} {opened : Opened}

theorem next_startingAt {header : Bytes} {payloads : List Bytes} {k : Nat} {raw : RawBlock}
    (fits : ∀ payload ∈ payloads, payload.length < 2 ^ 63)
    (h : (layOut header.length payloads)[k]? = some raw) :
    (Blocks.startingAt (header ++ payloads.flatMap frame) raw.fileOffset).next.1 =
      .ok (some raw) := by
  obtain ⟨front, back, rfl, hoffset⟩ := split_of_layOut h
  have hrest : Blocks.startingAt (header ++ (front ++ raw.payload :: back).flatMap frame)
      raw.fileOffset = ⟨raw.fileOffset, frame raw.payload ++ back.flatMap frame⟩ := by
    rw [Blocks.startingAt, List.flatMap_append, List.flatMap_cons, ← List.append_assoc,
      List.drop_left' (by rw [hoffset, List.length_append])]
  rw [hrest, Blocks.next_frame _ (fits _ (by simp))]

/-- A file is read back as it was written. No buffer is as long as `2 ^ 63` bytes, which is what the
length in front of a payload can say. -/
theorem remaining_of_read_encode (inverts : Lz4.Inverts compress)
    (nullFree : ∀ r ∈ regions, r.NullFree)
    (fits : ∀ records ∈ blocks, (Block.compress (Record.encode records) compress).length < 2 ^ 63)
    (hread : read strict (encode regions blocks compress) = .ok opened) :
    opened.dataOffset = (encodeHeader regions).length ∧
      ∃ raws, opened.blocks.remaining = (raws, none) ∧
        raws.map RawBlock.payload =
          blocks.map (fun records => Block.compress (Record.encode records) compress) ∧
        raws.map (fun raw => decodePayload raw.payload) = blocks.map .ok ∧
        ∀ k raw, raws[k]? = some raw →
          raw.fileOffset =
            opened.dataOffset + ((raws.take k).map fun raw => 8 + raw.payload.length).sum ∧
          (Blocks.startingAt (encode regions blocks compress) raw.fileOffset).next.1 =
            .ok (some raw) := by
  let payloads := blocks.map fun records => Block.compress (Record.encode records) compress
  have hpayloads : ∀ payload ∈ payloads, payload.length < 2 ^ 63 := by
    simpa [payloads] using fits
  have hfile : encode regions blocks compress = encodeHeader regions ++ payloads.flatMap frame := by
    rw [encode_eq, List.flatMap_map]
    rfl
  rw [hfile] at hread ⊢
  obtain ⟨hoffset, hblocks⟩ := blocks_of_read_encodeHeader nullFree hread
  refine ⟨hoffset, layOut opened.dataOffset payloads, ?_, map_payload_layOut _ _, ?_, ?_⟩
  · rw [hblocks, remaining_frames _ hpayloads]
  · have hmap := congrArg (List.map decodePayload) (map_payload_layOut opened.dataOffset payloads)
    rw [List.map_map, List.map_map] at hmap
    refine Eq.trans hmap ?_
    exact List.map_congr_left fun records _ => decodePayload_compress inverts records
  · intro k raw hraw
    refine ⟨fileOffset_of_layOut hraw, ?_⟩
    rw [hoffset] at hraw
    exact next_startingAt hpayloads hraw

theorem remaining_of_read_encode_mapped :
    ∃ opened raws,
      read true (encode [⟨0x1000, 0x2000, "r-xp", "0", "08:01", "7", "/bin/true"⟩]
        [[], [.enter 0x1004, .exit 0x1004]]) = .ok opened ∧
      opened.blocks.remaining = (raws, none) ∧
      raws.map (fun raw => decodePayload raw.payload) =
        [.ok [], .ok [.enter 0x1004, .exit 0x1004]] := by
  have hopens : (read true (encode [⟨0x1000, 0x2000, "r-xp", "0", "08:01", "7", "/bin/true"⟩]
      [[], [.enter 0x1004, .exit 0x1004]])).toOption.isSome = true := by decide +kernel
  cases hread : read true (encode [⟨0x1000, 0x2000, "r-xp", "0", "08:01", "7", "/bin/true"⟩]
      [[], [.enter 0x1004, .exit 0x1004]]) with
  | error e => rw [hread] at hopens; contradiction
  | ok opened =>
    obtain ⟨-, raws, hraws, -, hrecords, -⟩ := remaining_of_read_encode Lz4.encode_inverts
      (by simp [Region.NullFree]) (by decide +kernel) hread
    exact ⟨opened, raws, rfl, hraws, hrecords⟩

end AccessTrace.TraceFile
