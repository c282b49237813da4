import AccessTrace.Proofs.Payload

/-!
The buffer that a block is decoded into. At every moment the bytes written are at most 255 times
those read, so a buffer that is doubled while it is full is large enough after six doublings at
most, and gives the answer of a buffer without a bound.
-/

namespace AccessTrace

namespace Lz4

variable {nibble n : Nat} {out out' final : Array UInt8} {block input rest : Bytes}

/-- What is written and what is left to read between two sequences of a block. -/
inductive Between (block : Bytes) : Array UInt8 → Bytes → Prop
  | start : Between block #[] block
  | next {out out' : Array UInt8} {rest rest' : Bytes} (h : Between block out rest)
      (hsequence : readSequence (fun _ => true) out rest = .ok (.more out' rest')) :
      Between block out' rest'

/-- What is written and what is left to read behind each byte that is written: between two
sequences, behind a literal, and behind a byte of a match, whose length and offset have been read by
then. -/
inductive Moment (block : Bytes) : Array UInt8 → Bytes → Prop
  | between {out : Array UInt8} {rest : Bytes} (h : Between block out rest) : Moment block out rest
  | literal {out : Array UInt8} {token : UInt8} {behind literals tail : Bytes}
      (h : Between block out (token :: behind))
      (hcount : readLength (token.toNat / 16) behind = .ok (literals.length, literals ++ tail))
      (copied : Nat) :
      Moment block (out ++ literals.take copied) (literals.drop copied ++ tail)
  | matched {out : Array UInt8} {token low high : UInt8} {behind literals tail rest : Bytes}
      {extra : Nat} (h : Between block out (token :: behind))
      (hcount : readLength (token.toNat / 16) behind =
        .ok (literals.length, literals ++ low :: high :: tail))
      (hlength : readLength (token.toNat % 16) tail = .ok (extra, rest))
      (hoffset : low.toNat + 256 * high.toNat ≠ 0)
      (hstart : low.toNat + 256 * high.toNat ≤ out.size + literals.length)
      (copied : Nat) (hcopied : copied ≤ extra + 4) :
      Moment block (copyBack (low.toNat + 256 * high.toNat) copied (out ++ literals)) rest

/-- The bytes of a block that have been read pay for those that have been written. -/
def Paid (block : Bytes) (out : Array UInt8) (rest : Bytes) : Prop :=
  ∃ consumed, block = consumed ++ rest ∧ out.size ≤ 255 * consumed.length

theorem suffix_of_readExtension {total : Nat} (h : readExtension total input = .ok (n, rest)) :
    rest <:+ input := by
  induction input generalizing total with
  | nil => contradiction
  | cons b input ih =>
    rw [readExtension] at h
    split at h
    · exact (ih h).trans (List.suffix_cons b input)
    · obtain ⟨-, rfl⟩ := Prod.mk.inj (Except.ok.inj h)
      exact List.suffix_cons b input

theorem suffix_of_readLength (h : readLength nibble input = .ok (n, rest)) : rest <:+ input := by
  rw [readLength] at h
  split at h
  · exact suffix_of_readExtension h
  · obtain ⟨-, rfl⟩ := Prod.mk.inj (Except.ok.inj h)
    exact List.suffix_refl input

theorem paid_iff :
    Paid block out rest ↔ rest <:+ block ∧ out.size + 255 * rest.length ≤ 255 * block.length := by
  constructor
  · rintro ⟨consumed, rfl, hsize⟩
    refine ⟨List.suffix_append consumed rest, ?_⟩
    rw [List.length_append]
    omega
  · rintro ⟨⟨consumed, rfl⟩, hsize⟩
    refine ⟨consumed, rfl, ?_⟩
    rw [List.length_append] at hsize
    omega

theorem suffix_of_token {token : UInt8} {behind : Bytes} (hsuffix : token :: behind <:+ block)
    (hcount : readLength nibble behind = .ok (n, rest)) : rest <:+ block :=
  (suffix_of_readLength hcount).trans ((List.suffix_cons token behind).trans hsuffix)

theorem Paid.literal {token : UInt8} {behind literals tail : Bytes}
    (h : Paid block out (token :: behind))
    (hcount : readLength (token.toNat / 16) behind = .ok (literals.length, literals ++ tail))
    (copied : Nat) : Paid block (out ++ literals.take copied) (literals.drop copied ++ tail) := by
  rw [paid_iff] at h ⊢
  obtain ⟨hsuffix, hsize⟩ := h
  have hread := length_le_of_readLength hcount
  constructor
  · refine List.IsSuffix.trans ?_ (suffix_of_token hsuffix hcount)
    exact ⟨literals.take copied, by rw [← List.append_assoc, List.take_append_drop]⟩
  · rw [size_appendList]
    simp only [List.length_append, List.length_take, List.length_drop, List.length_cons] at *
    omega

theorem Paid.matched {token low high : UInt8} {behind literals tail : Bytes} {extra : Nat}
    (h : Paid block out (token :: behind))
    (hcount : readLength (token.toNat / 16) behind =
      .ok (literals.length, literals ++ low :: high :: tail))
    (hlength : readLength (token.toNat % 16) tail = .ok (extra, rest)) (offset : Nat) {copied : Nat}
    (hcopied : copied ≤ extra + 4) :
    Paid block (copyBack offset copied (out ++ literals)) rest := by
  rw [paid_iff] at h ⊢
  obtain ⟨hsuffix, hsize⟩ := h
  have hread := length_le_of_readLength hcount
  have hmatched := le_of_readLength hlength
  have hnibble : token.toNat % 16 < 16 := Nat.mod_lt _ (by decide)
  constructor
  · have hmatch : tail <:+ literals ++ low :: high :: tail :=
      ⟨literals ++ [low, high], by rw [List.append_assoc]; rfl⟩
    exact (suffix_of_readLength hlength).trans
      (hmatch.trans (suffix_of_token hsuffix hcount))
  · rw [size_copyBack, size_appendList]
    simp only [List.length_append, List.length_cons] at *
    omega

theorem paid_of_between (h : Between block out rest) : Paid block out rest := by
  induction h with
  | start => exact ⟨[], rfl, Nat.zero_le _⟩
  | next h hsequence ih =>
    obtain ⟨token, behind, literals, tail, rfl, hcount, -, hmatch⟩ :=
      exists_of_readSequence hsequence
    obtain ⟨low, high, tail, extra, rfl, -, -, hlength, -, rfl⟩ := exists_of_readMatch hmatch
    exact ih.matched hcount hlength _ (Nat.le_refl _)

theorem paid_of_moment (h : Moment block out rest) : Paid block out rest := by
  cases h with
  | between h => exact paid_of_between h
  | literal h hcount copied => exact (paid_of_between h).literal hcount copied
  | matched h hcount hlength _ _ copied hcopied =>
    exact (paid_of_between h).matched hcount hlength _ hcopied

theorem Between.moment_of_decodeFrom (h : Between block out input)
    (hdecode : decodeFrom (fun _ => true) out input = .ok final) : Moment block final [] := by
  generalize hfits : (fun _ => true : Nat → Bool) = fits at hdecode
  fun_induction decodeFrom fits out input with
  | case1 => contradiction
  | case2 out input out' hstep =>
    obtain rfl := Except.ok.inj hdecode
    obtain ⟨token, behind, literals, tail, rfl, hcount, -, hmatch⟩ := exists_of_readSequence hstep
    obtain ⟨rfl, rfl⟩ := eq_nil_of_readMatch hmatch
    have hmoment := Moment.literal h hcount literals.length
    rwa [List.take_length, List.drop_length, List.nil_append] at hmoment
  | case3 out input out' rest hstep _ ih => exact ih (h.next (hfits ▸ hstep)) hdecode

theorem error_of_readExtension {total : Nat} {e : Error}
    (h : readExtension total input = .error e) : e = .unexpectedEnd := by
  induction input generalizing total with
  | nil => exact (Except.error.inj h).symm
  | cons b input ih =>
    rw [readExtension] at h
    split at h
    · exact ih h
    · contradiction

theorem readLength_ne_outputFull : readLength nibble input ≠ .error .outputFull := by
  rw [readLength]
  split
  · exact fun h => Error.noConfusion (error_of_readExtension h)
  · intro h
    contradiction

theorem exists_full_of_readMatch {fits : Nat → Bool}
    (h : readMatch fits nibble out input = .error .outputFull) : ∃ size, fits size = false := by
  match input, h with
  | low :: high :: input, h =>
    rw [readMatch_eq] at h
    split at h
    · cases h
    · split at h
      · rename_i hlength
        obtain rfl := Except.error.inj h
        exact absurd hlength readLength_ne_outputFull
      · split at h
        · rename_i hfull
          exact ⟨_, hfull⟩
        · split at h <;> cases h

theorem exists_full_of_readSequence {fits : Nat → Bool}
    (h : readSequence fits out input = .error .outputFull) : ∃ size, fits size = false := by
  match input, h with
  | token :: input, h =>
    rw [readSequence_eq] at h
    split at h
    · rename_i hlength
      obtain rfl := Except.error.inj h
      exact absurd hlength readLength_ne_outputFull
    · split at h
      · cases h
      · split at h
        · rename_i hfull
          exact ⟨_, hfull⟩
        · exact exists_full_of_readMatch h

theorem exists_full_of_decodeFrom {fits : Nat → Bool}
    (h : decodeFrom fits out input = .error .outputFull) : ∃ size, fits size = false := by
  fun_induction decodeFrom fits out input with
  | case1 out input e hstep =>
    obtain rfl := Except.error.inj h
    exact exists_full_of_readSequence hstep
  | case2 => contradiction
  | case3 out input out' rest hstep _ ih => exact ih h

theorem decode_ne_outputFull (block : Bytes) : decode block ≠ .error .outputFull := by
  intro h
  obtain ⟨size, hsize⟩ := exists_full_of_decodeFrom h
  contradiction

end Lz4

namespace Block

variable {input : Bytes}

def grown (input : Bytes) (capacity doublings : Nat) : Nat :=
  min (2 ^ doublings * capacity) (capacityLimit input.length)

theorem grown_min (input : Bytes) (capacity doublings : Nat) :
    grown input (min (2 * capacity) (capacityLimit input.length)) doublings =
      grown input capacity (doublings + 1) := by
  have hlimit : capacityLimit input.length ≤ 2 ^ doublings * capacityLimit input.length :=
    Nat.le_mul_of_pos_left _ (Nat.two_pow_pos doublings)
  rw [grown, grown, ← Nat.mul_min_mul_left, Nat.min_assoc, Nat.min_eq_right hlimit,
    ← Nat.mul_assoc, ← Nat.pow_succ]

/-- Every buffer but the last is full, and the last gives the answer. -/
theorem exists_decodeGrowing_eq (input : Bytes) (capacity : Nat) (positive : 0 < capacity)
    (hlimit : capacity ≤ capacityLimit input.length) : ∃ doublings,
    decodeGrowing input capacity positive =
        Lz4.decodeWithin (grown input capacity doublings) input ∧
      ∀ k < doublings, Lz4.decodeWithin (grown input capacity k) input = .error .outputFull := by
  have hgrown (capacity : Nat) (hlimit : capacity ≤ capacityLimit input.length) :
      grown input capacity 0 = capacity := by
    rw [grown, Nat.pow_zero, Nat.one_mul, Nat.min_eq_left hlimit]
  fun_induction decodeGrowing input capacity positive with
  | case1 capacity positive hfull hbelow ih =>
    obtain ⟨doublings, hanswer, hbefore⟩ := ih (Nat.min_le_right _ _)
    refine ⟨doublings + 1, by rw [hanswer, grown_min], ?_⟩
    rintro (_ | k) hk
    · rw [hgrown capacity hlimit, hfull]
    · rw [← grown_min]
      exact hbefore k (Nat.lt_of_succ_lt_succ hk)
  | case2 capacity positive hfull _ =>
    refine ⟨0, ?_, fun k hk => absurd hk (Nat.not_lt_zero k)⟩
    rw [hgrown capacity hlimit, hfull]
  | case3 capacity positive =>
    refine ⟨0, ?_, fun k hk => absurd hk (Nat.not_lt_zero k)⟩
    rw [hgrown capacity hlimit]

theorem firstCapacity_pos (input : Bytes) : 0 < max 4096 (4 * input.length) :=
  Nat.lt_of_lt_of_le (by decide) (Nat.le_max_left _ _)

theorem le_grown_six (input : Bytes) :
    255 * input.length ≤ grown input (max 4096 (4 * input.length)) 6 := by
  rw [grown, capacityLimit]
  omega

/-- The loop over growing buffers ends within seven tries and answers as a buffer without a bound
would, since what is read pays for what is written at every moment of decoding. -/
theorem decompressRound_exact (round : Nat) (input : Bytes) :
    (∃ doublings ≤ 6,
        decodeGrowing input (max 4096 (4 * input.length)) (firstCapacity_pos input) =
            Lz4.decodeWithin (grown input (max 4096 (4 * input.length)) doublings) input ∧
          ∀ k < doublings, Lz4.decodeWithin (grown input (max 4096 (4 * input.length)) k) input =
            .error .outputFull) ∧
      (∀ out, decompressRound round input = .ok out ↔ Lz4.decode input = .ok out.toArray) ∧
      (∀ e, decompressRound round input = .error e ↔
        ∃ cause, Lz4.decode input = .error cause ∧ e = { round, cause }) ∧
      Lz4.decode input ≠ .error .outputFull ∧
      (∀ out rest, Lz4.Moment input out rest →
        ∃ consumed, input = consumed ++ rest ∧ out.size ≤ 255 * consumed.length) ∧
      ∀ out, Lz4.decode input = .ok out → Lz4.Moment input out [] := by
  refine ⟨?_, fun out => decompressRound_eq_ok_iff, fun e => decompressRound_eq_error_iff,
    Lz4.decode_ne_outputFull input, fun out rest => Lz4.paid_of_moment,
    fun out => Lz4.Between.start.moment_of_decodeFrom⟩
  obtain ⟨doublings, hanswer, hbefore⟩ :=
    exists_decodeGrowing_eq input (max 4096 (4 * input.length)) (firstCapacity_pos input)
      (by rw [capacityLimit]; omega)
  refine ⟨doublings, Nat.le_of_not_lt fun hlt => ?_, hanswer, hbefore⟩
  have hfull := hbefore 6 hlt
  rw [Lz4.decodeWithin_eq_decode (le_grown_six input)] at hfull
  exact Lz4.decode_ne_outputFull input hfull

end Block

end AccessTrace
