import AccessTrace.Proofs.Lz4
import AccessTrace.Proofs.Record
import AccessTrace.Store.Detail

/-!
Payloads of blocks: what any compressor makes of some records is read back as these records.
-/

namespace AccessTrace

namespace Block

variable {compress : Bytes → Bytes}

theorem decodeGrowing_eq (input : Bytes) (capacity : Nat) (positive : 0 < capacity) :
    decodeGrowing input capacity positive = Lz4.decode input := by
  fun_induction decodeGrowing input capacity positive with
  | case1 capacity positive hfull hbelow ih => exact ih
  | case2 capacity positive hfull hlimit =>
    rw [← hfull]
    apply Lz4.decodeWithin_eq_decode
    rw [capacityLimit] at hlimit
    omega
  | case3 capacity positive hother =>
    exact (Lz4.decodeWithin_full_or_eq capacity input).resolve_left hother

theorem decompressRound_eq_ok_iff {round : Nat} {input content : Bytes} :
    decompressRound round input = .ok content ↔ Lz4.decode input = .ok content.toArray := by
  rw [decompressRound, decodeGrowing_eq]
  cases Lz4.decode input with
  | error e => simp
  | ok out => simp [← Array.toList_inj]

theorem decompressRound_eq_error_iff {round : Nat} {input : Bytes} {e : Error} :
    decompressRound round input = .error e ↔
      ∃ cause, Lz4.decode input = .error cause ∧ e = { round, cause } := by
  rw [decompressRound, decodeGrowing_eq]
  cases Lz4.decode input with
  | error cause => simp [eq_comm]
  | ok out => simp

theorem decompressRound_compress (h : Lz4.Inverts compress) (round : Nat) (content : Bytes) :
    decompressRound round (compress content) = .ok content :=
  decompressRound_eq_ok_iff.2 (h content)

theorem decompress_compress (h : Lz4.Inverts compress) (content : Bytes) :
    decompress (Block.compress content compress) = .ok content := by
  rw [decompress, Block.compress, decompressRound_compress h]
  exact decompressRound_compress h 2 content

end Block

theorem decodePayload_compress {compress : Bytes → Bytes} (h : Lz4.Inverts compress)
    (rs : List Record) : decodePayload (Block.compress (Record.encode rs) compress) = .ok rs := by
  rw [decodePayload, Block.decompress_compress h]
  exact congrArg (Except.mapError _) (Record.decode_encode rs)

end AccessTrace
