import AccessTrace.Lz4
import AccessTrace.Proofs.Word

/-!
How far a block expands. No byte that is read accounts for more than 255 bytes of output, so a
buffer of that many bytes for each byte of the block is as good as one without a bound, and a
smaller one changes the answer only by being full.
-/

namespace AccessTrace.Lz4

variable {fits fits' : Nat → Bool} {nibble : Nat} {out out' : Array UInt8} {input rest : Bytes}

theorem size_appendList (out : Array UInt8) (bs : Bytes) :
    (out ++ bs).size = out.size + bs.length := by
  rw [← Array.length_toList, Array.toList_appendList, List.length_append, Array.length_toList]

theorem readMatch_eq (low high : UInt8) :
    readMatch fits nibble out (low :: high :: input) =
      if low.toNat + 256 * high.toNat = 0 then .error .zeroOffset
      else
        match readLength nibble input with
        | .error e => .error e
        | .ok (extra, rest) =>
          if fits (out.size + (extra + 4)) = false then .error .outputFull
          else if out.size < low.toNat + 256 * high.toNat then .error .offsetPastStart
          else .ok (.more (copyBack (low.toNat + 256 * high.toNat) (extra + 4) out) rest) := by
  simp only [readMatch, bind, Except.bind, throw, throwThe, MonadExceptOf.throw, pure, Except.pure]
  split
  · rfl
  · cases readLength nibble input with
    | error e => rfl
    | ok answer => simp

theorem readSequence_eq (token : UInt8) :
    readSequence fits out (token :: input) =
      match readLength (token.toNat / 16) input with
      | .error e => .error e
      | .ok (count, input) =>
        match splitExactly? count input with
        | none => .error .literalsPastEnd
        | some (literals, rest) =>
          if fits (out.size + count) = false then .error .outputFull
          else readMatch fits (token.toNat % 16) (out ++ literals) rest := by
  simp only [readSequence, bind, Except.bind, throw, throwThe, MonadExceptOf.throw]
  cases readLength (token.toNat / 16) input with
  | error e => rfl
  | ok answer =>
    dsimp only
    cases splitExactly? answer.1 answer.2 with
    | none => rfl
    | some parts => simp

/-- All that a match which is read can be: two bytes of offset, a length, and a copy that fits. -/
theorem exists_of_readMatch (h : readMatch fits nibble out input = .ok (.more out' rest)) :
    ∃ low high behind extra, input = low :: high :: behind ∧
      low.toNat + 256 * high.toNat ≠ 0 ∧ low.toNat + 256 * high.toNat ≤ out.size ∧
      readLength nibble behind = .ok (extra, rest) ∧ fits (out.size + (extra + 4)) = true ∧
      out' = copyBack (low.toNat + 256 * high.toNat) (extra + 4) out := by
  match input, h with
  | low :: high :: behind, h =>
    rw [readMatch_eq] at h
    split at h
    · contradiction
    · rename_i hoffset
      split at h
      · contradiction
      · rename_i extra rest' hlength
        split at h
        · contradiction
        · rename_i hfits
          split at h
          · contradiction
          · rename_i hstart
            obtain ⟨rfl, rfl⟩ := Step.more.inj (Except.ok.inj h)
            exact ⟨low, high, behind, extra, rfl, hoffset, Nat.le_of_not_lt hstart, hlength,
              eq_true_of_ne_false hfits, rfl⟩

theorem eq_nil_of_readMatch (h : readMatch fits nibble out input = .ok (.finished out')) :
    input = [] ∧ out' = out := by
  match input, h with
  | [], h => exact ⟨rfl, (Step.finished.inj (Except.ok.inj h)).symm⟩
  | low :: high :: behind, h =>
    rw [readMatch_eq] at h
    repeat' split at h
    all_goals simp at h

theorem exists_of_readSequence {step : Step} (h : readSequence fits out input = .ok step) :
    ∃ (token : UInt8) (behind literals rest : Bytes), input = token :: behind ∧
      readLength (token.toNat / 16) behind = .ok (literals.length, literals ++ rest) ∧
      fits (out.size + literals.length) = true ∧
      readMatch fits (token.toNat % 16) (out ++ literals) rest = .ok step := by
  match input, h with
  | token :: behind, h =>
    rw [readSequence_eq] at h
    split at h
    · contradiction
    · rename_i count tail hcount
      split at h
      · contradiction
      · rename_i literals rest hsplit
        obtain ⟨rfl, rfl⟩ := eq_append_of_splitExactly? hsplit
        split at h
        · contradiction
        · rename_i hfits
          exact ⟨token, behind, literals, rest, rfl, hcount, eq_true_of_ne_false hfits, h⟩

/-- A length takes at most 255 from each byte that spells it. -/
theorem le_of_readExtension {total n : Nat} (h : readExtension total input = .ok (n, rest)) :
    n + 255 * rest.length ≤ total + 255 * input.length := by
  induction input generalizing total with
  | nil => simp [readExtension] at h
  | cons b tail ih =>
    rw [readExtension] at h
    split at h
    · have := ih h
      rw [List.length_cons]
      omega
    · obtain ⟨rfl, rfl⟩ := Prod.mk.inj (Except.ok.inj h)
      have := b.toNat_lt
      rw [List.length_cons]
      omega

theorem le_of_readLength {n : Nat} (h : readLength nibble input = .ok (n, rest)) :
    n + 255 * rest.length ≤ nibble + 255 * input.length := by
  rw [readLength] at h
  split at h
  · rename_i hnibble
    rw [hnibble]
    exact le_of_readExtension h
  · obtain ⟨rfl, rfl⟩ := Prod.mk.inj (Except.ok.inj h)
    exact Nat.le_refl _

theorem size_le_of_readMatch (hnibble : nibble < 16)
    (h : readMatch fits nibble out input = .ok (.more out' rest)) :
    out'.size + 255 * rest.length ≤ out.size + 255 * input.length := by
  obtain ⟨low, high, behind, extra, rfl, -, -, hlength, -, rfl⟩ := exists_of_readMatch h
  have := le_of_readLength hlength
  simp only [size_copyBack, List.length_cons]
  omega

/-- Only sizes that the input can pay for are asked about. -/
theorem readMatch_congr (hnibble : nibble < 16)
    (h : ∀ size ≤ out.size + 255 * input.length, fits size = fits' size) :
    readMatch fits nibble out input = readMatch fits' nibble out input := by
  match input, h with
  | [], _ => rfl
  | [_], _ => rfl
  | low :: high :: input, h =>
    rw [readMatch_eq, readMatch_eq]
    cases hlength : readLength nibble input with
    | error e => rfl
    | ok answer =>
      obtain ⟨extra, rest⟩ := answer
      have := le_of_readLength hlength
      dsimp only
      rw [h (out.size + (extra + 4)) (by simp only [List.length_cons]; omega)]

theorem size_le_of_readSequence (h : readSequence fits out input = .ok (.more out' rest)) :
    out'.size + 255 * rest.length ≤ out.size + 255 * input.length := by
  obtain ⟨token, behind, literals, tail, rfl, hcount, -, hmatch⟩ := exists_of_readSequence h
  have hread := length_le_of_readLength hcount
  have hmatched := size_le_of_readMatch (Nat.mod_lt _ (by decide)) hmatch
  rw [List.length_append] at hread
  rw [size_appendList] at hmatched
  rw [List.length_cons]
  omega

theorem readSequence_congr
    (h : ∀ size ≤ out.size + 255 * input.length, fits size = fits' size) :
    readSequence fits out input = readSequence fits' out input := by
  match input, h with
  | [], _ => rfl
  | token :: input, h =>
    rw [readSequence_eq, readSequence_eq]
    cases hcount : readLength (token.toNat / 16) input with
    | error e => rfl
    | ok answer =>
      obtain ⟨count, behind⟩ := answer
      have := length_le_of_readLength hcount
      dsimp only
      cases hsplit : splitExactly? count behind with
      | none => rfl
      | some parts =>
        obtain ⟨literals, rest⟩ := parts
        obtain ⟨rfl, hliterals⟩ := eq_append_of_splitExactly? hsplit
        rw [List.length_append] at this
        dsimp only
        rw [h (out.size + count) (by rw [List.length_cons]; omega)]
        split
        · rfl
        · apply readMatch_congr (Nat.mod_lt _ (by decide))
          intro size hsize
          apply h
          rw [size_appendList] at hsize
          rw [List.length_cons]
          omega

theorem decodeFrom_of_error {e : Error} (h : readSequence fits out input = .error e) :
    decodeFrom fits out input = .error e := by
  rw [decodeFrom]
  split <;> simp_all

theorem decodeFrom_of_finished (h : readSequence fits out input = .ok (.finished out')) :
    decodeFrom fits out input = .ok out' := by
  rw [decodeFrom]
  split <;> simp_all

theorem decodeFrom_of_more (h : readSequence fits out input = .ok (.more out' rest)) :
    decodeFrom fits out input = decodeFrom fits out' rest := by
  rw [decodeFrom]
  split <;> simp_all

theorem decodeFrom_congr (h : ∀ size ≤ out.size + 255 * input.length, fits size = fits' size) :
    decodeFrom fits out input = decodeFrom fits' out input := by
  fun_induction decodeFrom fits' out input with
  | case1 out input e hstep => exact decodeFrom_of_error (by rw [readSequence_congr h, hstep])
  | case2 out input out' hstep => exact decodeFrom_of_finished (by rw [readSequence_congr h, hstep])
  | case3 out input out' rest hstep _ ih =>
    have hsize := size_le_of_readSequence hstep
    rw [decodeFrom_of_more (by rw [readSequence_congr h, hstep])]
    exact ih fun size hle => h size (by omega)

/-- A bound on the output changes the answer only by being hit. -/
theorem readMatch_full_or_eq (fits : Nat → Bool) (nibble : Nat) (out : Array UInt8)
    (input : Bytes) :
    readMatch fits nibble out input = .error .outputFull ∨
      readMatch fits nibble out input = readMatch (fun _ => true) nibble out input := by
  match input with
  | [] => exact .inr rfl
  | [_] => exact .inr rfl
  | low :: high :: input =>
    rw [readMatch_eq, readMatch_eq]
    split
    · exact .inr rfl
    · cases readLength nibble input with
      | error e => exact .inr rfl
      | ok answer =>
        dsimp only
        cases fits (out.size + (answer.1 + 4)) with
        | false => exact .inl rfl
        | true => exact .inr rfl

theorem readSequence_full_or_eq (fits : Nat → Bool) (out : Array UInt8) (input : Bytes) :
    readSequence fits out input = .error .outputFull ∨
      readSequence fits out input = readSequence (fun _ => true) out input := by
  match input with
  | [] => exact .inr rfl
  | token :: input =>
    rw [readSequence_eq, readSequence_eq]
    cases readLength (token.toNat / 16) input with
    | error e => exact .inr rfl
    | ok answer =>
      dsimp only
      cases splitExactly? answer.1 answer.2 with
      | none => exact .inr rfl
      | some parts =>
        dsimp only
        cases fits (out.size + answer.1) with
        | false => exact .inl rfl
        | true => exact readMatch_full_or_eq _ _ _ _

theorem decodeFrom_full_or_eq (fits : Nat → Bool) (out : Array UInt8) (input : Bytes) :
    decodeFrom fits out input = .error .outputFull ∨
      decodeFrom fits out input = decodeFrom (fun _ => true) out input := by
  fun_induction decodeFrom fits out input with
  | case1 out input e hstep =>
    rcases readSequence_full_or_eq fits out input with hfull | heq
    · rw [hstep] at hfull
      exact .inl (congrArg _ (Except.error.inj hfull))
    · exact .inr (decodeFrom_of_error (heq ▸ hstep)).symm
  | case2 out input out' hstep =>
    rcases readSequence_full_or_eq fits out input with hfull | heq
    · rw [hstep] at hfull
      contradiction
    · exact .inr (decodeFrom_of_finished (heq ▸ hstep)).symm
  | case3 out input out' rest hstep _ ih =>
    rcases readSequence_full_or_eq fits out input with hfull | heq
    · rw [hstep] at hfull
      contradiction
    · have hmore := decodeFrom_of_more (heq ▸ hstep)
      rwa [hmore]

/-- Room for 255 bytes of output for each byte of a block is room enough. -/
theorem decodeWithin_eq_decode {capacity : Nat} (h : 255 * input.length ≤ capacity) :
    decodeWithin capacity input = decode input := by
  apply decodeFrom_congr
  intro size hsize
  rw [decide_eq_true_eq]
  simp only [Array.size_empty] at hsize
  omega

theorem decodeWithin_full_or_eq (capacity : Nat) (input : Bytes) :
    decodeWithin capacity input = .error .outputFull ∨ decodeWithin capacity input = decode input :=
  decodeFrom_full_or_eq _ _ _

/-- What a compressor owes to those who read its blocks. -/
def Inverts (compress : Bytes → Bytes) : Prop :=
  ∀ content, decode (compress content) = .ok content.toArray

theorem readExtension_extension (total n : Nat) (rest : Bytes) :
    readExtension total (extension n ++ rest) = .ok (total + n, rest) := by
  have hlow : n % 255 < 255 := Nat.mod_lt _ (by decide)
  have hdigit : (UInt8.ofNat (n % 255)).toNat = n % 255 :=
    UInt8.toNat_ofNat_of_lt' (Nat.lt_trans hlow (by decide))
  have hlast : UInt8.ofNat (n % 255) ≠ 255 := by
    intro h
    rw [h] at hdigit
    simp at hdigit
    omega
  suffices ∀ m, readExtension total (List.replicate m 255 ++ (UInt8.ofNat (n % 255) :: rest)) =
      .ok (total + 255 * m + n % 255, rest) by
    rw [extension, List.append_assoc, List.singleton_append, this, Nat.add_assoc, Nat.div_add_mod]
  intro m
  induction m generalizing total with
  | zero => simp [readExtension, hlast, hdigit]
  | succ m ih =>
    rw [List.replicate_succ, List.cons_append, readExtension, if_pos rfl, ih]
    congr 2
    omega

theorem decodeFrom_of_literals {token : UInt8} {literals : Bytes}
    (h : readLength (token.toNat / 16) input = .ok (literals.length, literals)) :
    decode (token :: input) = .ok literals.toArray := by
  have hsplit : splitExactly? literals.length literals = some (literals, []) := by
    simpa using splitExactly?_append literals []
  apply decodeFrom_of_finished
  rw [readSequence_eq, h]
  simp only [hsplit]
  rw [if_neg (by simp), readMatch]
  congr 2
  apply Array.ext'
  rw [Array.toList_appendList]
  rfl

theorem encode_inverts : Inverts encode := by
  intro content
  rw [encode]
  split
  · rename_i hshort
    have htoken : (UInt8.ofNat (16 * content.length)).toNat / 16 = content.length := by
      rw [UInt8.toNat_ofNat_of_lt' (by unfold UInt8.size; omega)]
      omega
    apply decodeFrom_of_literals
    rw [htoken, readLength, if_neg (by omega)]
  · rename_i hlong
    apply decodeFrom_of_literals
    rw [readLength, if_pos (by decide), readExtension_extension]
    congr 2
    omega

end AccessTrace.Lz4
