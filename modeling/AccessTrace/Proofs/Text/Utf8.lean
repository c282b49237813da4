import Mathlib.Tactic.IntervalCases
import AccessTrace.Text

/-!
What is encoded is decoded again, and nothing that can be decoded needs repair. A text that is cut
off loses whole characters, and needs a mark where one is cut through. Zero bytes and null
characters stand for each other.
-/

namespace AccessTrace.Text.Utf8

section Encoded

variable {value size more n : Nat} {rest : Bytes}

theorem toNat_ofNat_tail (h : n < 64) : (UInt8.ofNat (n + 128)).toNat = n + 128 :=
  UInt8.toNat_ofNat_of_lt' (Nat.lt_trans (Nat.add_lt_add_right h 128) (by decide))

theorem readTail_ofNat (h : n < 64) :
    readTail value size (more + 1) (UInt8.ofNat (n + 128) :: rest) =
      readTail (64 * value + n) (size + 1) more rest := by
  have hwithin : 0x80 ≤ UInt8.ofNat (n + 128) ∧ UInt8.ofNat (n + 128) ≤ 0xbf := by
    rw [UInt8.le_iff_toNat_le, UInt8.le_iff_toNat_le, toNat_ofNat_tail h]
    exact ⟨Nat.le_add_left 128 n, Nat.add_le_add_right (Nat.le_of_lt_succ h) 128⟩
  rw [readTail, if_pos hwithin, toNat_ofNat_tail h, Nat.add_sub_cancel]

theorem readSecond_ofNat {low high : UInt8} (h : n < 64) (hlow : low.toNat ≤ n + 128)
    (hhigh : n + 128 ≤ high.toNat) :
    readSecond value low high more (UInt8.ofNat (n + 128) :: rest) =
      readTail (64 * value + n) 2 more rest := by
  have hwithin : low ≤ UInt8.ofNat (n + 128) ∧ UInt8.ofNat (n + 128) ≤ high := by
    rw [UInt8.le_iff_toNat_le, UInt8.le_iff_toNat_le, toNat_ofNat_tail h]
    exact ⟨hlow, hhigh⟩
  rw [readSecond, if_pos hwithin, toNat_ofNat_tail h, Nat.add_sub_cancel]

theorem readHead_ofNat_of_le (h : n ≤ 127) :
    readHead (UInt8.ofNat n) rest = .char (Char.ofNat n) 1 := by
  have hbyte : (UInt8.ofNat n).toNat = n :=
    UInt8.toNat_ofNat_of_lt' (Nat.lt_of_le_of_lt h (by decide))
  have hlead : UInt8.ofNat n < 0x80 := by
    rw [UInt8.lt_iff_toNat_lt, hbyte]
    exact Nat.lt_succ_of_le h
  rw [readHead, if_pos hlead, hbyte]

theorem readHead_of_two (hlow : 2 ≤ n) (hhigh : n < 32) :
    readHead (UInt8.ofNat (n + 192)) rest = readSecond n 0x80 0xbf 0 rest := by
  interval_cases n <;> rfl

theorem readHead_of_three (h : n < 16) :
    readHead (UInt8.ofNat (n + 224)) rest =
      readSecond n (if n = 0 then 0xa0 else 0x80) (if n = 13 then 0x9f else 0xbf) 1 rest := by
  interval_cases n <;> rfl

theorem readHead_of_four (h : n < 5) :
    readHead (UInt8.ofNat (n + 240)) rest =
      readSecond n (if n = 0 then 0x90 else 0x80) (if n = 4 then 0x8f else 0xbf) 2 rest := by
  interval_cases n <;> rfl

end Encoded

theorem readHead_utf8EncodeChar (c : Char) (rest : Bytes) :
    ∃ lead bs, String.utf8EncodeChar c = lead :: bs ∧
      readHead lead (bs ++ rest) = .char c (bs.length + 1) := by
  suffices ∃ lead bs, String.utf8EncodeChar c = lead :: bs ∧
      readHead lead (bs ++ rest) = .char (Char.ofNat c.toNat) (bs.length + 1) by
    rwa [Char.ofNat_toNat] at this
  have hvalid : c.toNat < 0xd800 ∨ 0xdfff < c.toNat ∧ c.toNat < 0x110000 := c.valid
  have hvalue : c.val.toNat = c.toNat := rfl
  unfold String.utf8EncodeChar
  simp only [hvalue]
  generalize c.toNat = v at hvalid
  have hsix : ∀ m, m % 64 < 64 := fun m => Nat.mod_lt m (by decide)
  split
  · rename_i h
    exact ⟨_, _, rfl, readHead_ofNat_of_le h⟩
  split
  · refine ⟨_, _, rfl, ?_⟩
    rw [readHead_of_two (by omega) (by omega), List.cons_append,
      readSecond_ofNat (hsix _) (Nat.le_add_left 128 _)
        (Nat.add_le_add_right (Nat.le_of_lt_succ (hsix _)) 128), readTail]
    congr
    omega
  split
  · refine ⟨_, _, rfl, ?_⟩
    -- The bounds on the second byte are wider than its six bits unless the first one carries the
    -- least or the greatest value, and then `v` is where the encoding or the surrogates let it be.
    have hlow : (if v / 4096 % 16 = 0 then 0xa0 else 0x80 : UInt8).toNat ≤ v / 64 % 64 + 128 := by
      split
      · change 160 ≤ _
        omega
      · exact Nat.le_add_left 128 _
    have hhigh : v / 64 % 64 + 128 ≤ (if v / 4096 % 16 = 13 then 0x9f else 0xbf : UInt8).toNat := by
      split
      · change _ ≤ 159
        omega
      · exact Nat.add_le_add_right (Nat.le_of_lt_succ (hsix _)) 128
    rw [readHead_of_three (by omega), List.cons_append, readSecond_ofNat (hsix _) hlow hhigh,
      List.cons_append, readTail_ofNat (hsix _), readTail]
    congr
    omega
  · refine ⟨_, _, rfl, ?_⟩
    have hlow : (if v / 262144 % 8 = 0 then 0x90 else 0x80 : UInt8).toNat ≤
        v / 4096 % 64 + 128 := by
      split
      · change 144 ≤ _
        omega
      · exact Nat.le_add_left 128 _
    have hhigh : v / 4096 % 64 + 128 ≤
        (if v / 262144 % 8 = 4 then 0x8f else 0xbf : UInt8).toNat := by
      split
      · change _ ≤ 143
        omega
      · exact Nat.add_le_add_right (Nat.le_of_lt_succ (hsix _)) 128
    rw [readHead_of_four (by omega), List.cons_append, readSecond_ofNat (hsix _) hlow hhigh,
      List.cons_append, readTail_ofNat (hsix _), List.cons_append, readTail_ofNat (hsix _),
      readTail]
    congr
    omega

theorem exists_readHead_encode (c : Char) (text : List Char) :
    ∃ lead bs, encode (c :: text) = lead :: (bs ++ encode text) ∧
      readHead lead (bs ++ encode text) = .char c (bs.length + 1) := by
  obtain ⟨lead, bs, hencode, hread⟩ := readHead_utf8EncodeChar c (encode text)
  refine ⟨lead, bs, ?_, hread⟩
  rw [encode, List.flatMap_cons, hencode]
  rfl

theorem decodeFrom_encode (text done : List Char) (index : Nat) :
    decodeFrom done index (encode text) = .ok (done.reverse ++ text) := by
  induction text generalizing done index with
  | nil => rw [encode, List.flatMap_nil, decodeFrom, List.append_nil]
  | cons c text ih =>
    obtain ⟨lead, bs, hencode, hread⟩ := exists_readHead_encode c text
    rw [hencode, decodeFrom, hread]
    simp only [Nat.add_sub_cancel, List.drop_left]
    rw [ih, List.reverse_cons, List.append_assoc, List.singleton_append]

@[simp] theorem decode_encode (text : List Char) : decode (encode text) = .ok text :=
  decodeFrom_encode text [] 0

theorem mendFrom_of_decodeFrom {mark done text : List Char} {index : Nat} {bs : Bytes}
    (h : decodeFrom done index bs = .ok text) : mendFrom mark done bs = text := by
  fun_induction decodeFrom done index bs with
  | case1 done index =>
    rw [mendFrom]
    exact Except.ok.inj h
  | case2 done index lead rest c size hread ih =>
    rw [mendFrom, hread]
    exact ih h
  | case3 => contradiction
  | case4 => contradiction

theorem repair_of_decode {bs : Bytes} {text : List Char} (h : decode bs = .ok text) :
    repair bs = text :=
  mendFrom_of_decodeFrom h

theorem mendFrom_encode (mark text done : List Char) :
    mendFrom mark done (encode text) = done.reverse ++ text :=
  mendFrom_of_decodeFrom (decodeFrom_encode text done 0)

@[simp] theorem repair_encode (text : List Char) : repair (encode text) = text :=
  repair_of_decode (decode_encode text)

section Cut

variable {value size more n : Nat} {low high lead : UInt8} {bs rest : Bytes} {c : Char}
  {text : List Char}

theorem readTail_of_cut (h : readTail value size more (bs ++ rest) = .char c n)
    (hshort : size + bs.length < n) : readTail value size more bs = .incomplete := by
  induction more generalizing value size bs with
  | zero =>
    rw [readTail] at h
    obtain ⟨-, rfl⟩ := Head.char.inj h
    omega
  | succ more ih =>
    cases bs with
    | nil => rfl
    | cons b bs =>
      rw [List.cons_append, readTail] at h
      rw [readTail]
      split at h
      · rename_i hwithin
        rw [if_pos hwithin]
        rw [List.length_cons] at hshort
        exact ih h (by omega)
      · contradiction

theorem readSecond_of_cut (h : readSecond value low high more (bs ++ rest) = .char c n)
    (hshort : 1 + bs.length < n) : readSecond value low high more bs = .incomplete := by
  cases bs with
  | nil => rfl
  | cons b bs =>
    rw [List.cons_append, readSecond] at h
    rw [readSecond]
    split at h
    · rename_i hwithin
      rw [if_pos hwithin]
      rw [List.length_cons] at hshort
      exact readTail_of_cut h (by omega)
    · contradiction

theorem readHead_of_cut (h : readHead lead (bs ++ rest) = .char c n)
    (hshort : 1 + bs.length < n) : readHead lead bs = .incomplete := by
  unfold readHead at h ⊢
  split_ifs at h ⊢
  · obtain ⟨-, rfl⟩ := Head.char.inj h
    omega
  all_goals exact readSecond_of_cut h hshort

/-- A text that was cut off ends behind a character, or with a mark for the one cut through. -/
theorem mendFrom_of_cut (mark done : List Char) (h : bs <+: encode text) :
    ∃ front, front <+: text ∧
      (bs = encode front ∨ mendFrom mark done bs = done.reverse ++ front ++ mark) := by
  induction text generalizing bs done with
  | nil => exact ⟨[], List.nil_prefix, .inl (List.prefix_nil.1 h)⟩
  | cons c text ih =>
    obtain ⟨lead, tail, hspelt, hread⟩ := readHead_utf8EncodeChar c []
    have hencode (text : List Char) : encode (c :: text) = lead :: (tail ++ encode text) := by
      rw [encode, List.flatMap_cons, hspelt]
      rfl
    rw [hencode] at h
    cases bs with
    | nil => exact ⟨[], List.nil_prefix, .inl rfl⟩
    | cons b bs =>
      obtain ⟨hlead, hrest⟩ := List.cons_prefix_cons.1 h
      subst hlead
      by_cases hwhole : tail.length ≤ bs.length
      · obtain ⟨bs, rfl⟩ := List.prefix_of_prefix_length_le (List.prefix_append tail _) hrest hwhole
        obtain ⟨front, hfront, hcut⟩ := ih (c :: done)
          ((List.prefix_append_right_inj tail).1 hrest)
        refine ⟨c :: front, List.cons_prefix_cons.2 ⟨rfl, hfront⟩, hcut.imp ?_ fun hmend => ?_⟩
        · rintro rfl
          exact (hencode front).symm
        · obtain ⟨lead', tail', hspelt', hread'⟩ := readHead_utf8EncodeChar c bs
          obtain ⟨rfl, rfl⟩ := List.cons.inj (hspelt.symm.trans hspelt')
          rw [mendFrom, hread']
          simp only [Nat.add_sub_cancel, List.drop_left]
          rw [hmend, List.reverse_cons, ← List.append_cons]
      · refine ⟨[], List.nil_prefix, .inr ?_⟩
        obtain ⟨rest, rfl⟩ := List.prefix_of_prefix_length_le hrest (List.prefix_append tail _)
          (Nat.le_of_not_le hwhole)
        rw [List.append_nil] at hread
        rw [List.length_append] at hwhole
        rw [mendFrom, readHead_of_cut hread (by rw [List.length_append]; omega)]
        simp only [List.reverse_append, List.reverse_reverse, List.append_nil]

end Cut

section Null

theorem zero_ne_ofNat {n : Nat} (hpos : 0 < n) (hlt : n < 256) : 0 ≠ UInt8.ofNat n := by
  intro h
  have hvalue := congrArg UInt8.toNat h
  rw [UInt8.toNat_ofNat_of_lt' hlt] at hvalue
  exact Nat.ne_of_lt hpos hvalue

/-- Lead bytes and those behind them carry a mark of their own, so only the null character has a
zero byte. -/
theorem eq_null_of_zero_mem {c : Char} (h : 0 ∈ String.utf8EncodeChar c) : c = '\x00' := by
  suffices c.val.toNat = 0 from Char.ext (UInt32.toNat_inj.1 this)
  unfold String.utf8EncodeChar at h
  dsimp only at h
  generalize c.val.toNat = v at h ⊢
  repeat' split at h
  · apply Nat.eq_zero_of_not_pos
    intro hv
    exact zero_ne_ofNat hv (by omega) (List.mem_singleton.1 h)
  all_goals
    refine absurd h ?_
    simp only [List.mem_cons, List.not_mem_nil, or_false, not_or]
    repeat' apply And.intro
    all_goals exact zero_ne_ofNat (by omega) (by omega)

theorem zero_not_mem_encode {text : List Char} (h : '\x00' ∉ text) : 0 ∉ encode text := by
  intro hzero
  obtain ⟨c, hc, hzero⟩ := List.mem_flatMap.1 hzero
  rw [eq_null_of_zero_mem hzero] at hc
  exact h hc

variable {value size size' more : Nat} {c : Char} {rest : Bytes}

theorem exists_value_of_readTail (h : readTail value size more rest = .char c size') :
    ∃ v, c = Char.ofNat v ∧ 64 ^ more * value ≤ v ∧ v < 64 ^ more * (value + 1) := by
  induction more generalizing value size rest with
  | zero =>
    obtain ⟨rfl, -⟩ := Head.char.inj h
    exact ⟨value, rfl, by omega, by omega⟩
  | succ more ih =>
    match rest with
    | [] => contradiction
    | b :: rest =>
      rw [readTail] at h
      split at h
      · rename_i hb
        have hb' : b.toNat ≤ 191 := UInt8.le_iff_toNat_le.1 hb.2
        obtain ⟨v, hc, hlow, hhigh⟩ := ih h
        refine ⟨v, hc, ?_, ?_⟩
        · calc
            64 ^ (more + 1) * value = 64 ^ more * (64 * value) := by
              rw [Nat.pow_succ, Nat.mul_assoc]
            _ ≤ 64 ^ more * (64 * value + (b.toNat - 0x80)) :=
              Nat.mul_le_mul_left _ (Nat.le_add_right _ _)
            _ ≤ v := hlow
        · calc
            v < 64 ^ more * (64 * value + (b.toNat - 0x80) + 1) := hhigh
            _ ≤ 64 ^ more * (64 * (value + 1)) := Nat.mul_le_mul_left _ (by omega)
            _ = 64 ^ (more + 1) * (value + 1) := by rw [Nat.pow_succ, Nat.mul_assoc]
      · contradiction

theorem exists_value_of_readSecond {low high : UInt8}
    (h : readSecond value low high more rest = .char c size) :
    ∃ v, c = Char.ofNat v ∧ 64 ^ more * (64 * value + (low.toNat - 128)) ≤ v ∧
      v < 64 ^ more * (64 * value + (high.toNat - 128) + 1) := by
  match rest with
  | [] => contradiction
  | b :: rest =>
    rw [readSecond] at h
    split at h
    · rename_i hb
      have hb' := And.imp UInt8.le_iff_toNat_le.1 UInt8.le_iff_toNat_le.1 hb
      obtain ⟨v, hc, hlow, hhigh⟩ := exists_value_of_readTail h
      refine ⟨v, hc, Nat.le_trans (Nat.mul_le_mul_left _ ?_) hlow,
        Nat.lt_of_lt_of_le hhigh (Nat.mul_le_mul_left _ ?_)⟩
      · omega
      · omega
    · contradiction

theorem ofNat_ne_null {v : Nat} (hpos : 0 < v) (hvalid : v.isValidChar) :
    Char.ofNat v ≠ '\x00' := by
  intro h
  have hvalue : (Char.ofNat v).toNat = v := by
    rw [Char.ofNat, dif_pos hvalid]
    rfl
  rw [h] at hvalue
  exact Nat.ne_of_lt hpos hvalue

theorem ne_null_of_readSecond {low high : UInt8}
    (h : readSecond value low high more rest = .char c size)
    (hpos : 0 < 64 ^ more * (64 * value + (low.toNat - 128)))
    (hvalid : ∀ v, 64 ^ more * (64 * value + (low.toNat - 128)) ≤ v →
      v < 64 ^ more * (64 * value + (high.toNat - 128) + 1) → v.isValidChar) : c ≠ '\x00' := by
  obtain ⟨v, rfl, hlow, hhigh⟩ := exists_value_of_readSecond h
  exact ofNat_ne_null (Nat.lt_of_lt_of_le hpos hlow) (hvalid v hlow hhigh)

/-- Longer sequences do not spell the null character: their second byte is bounded from below. -/
theorem eq_zero_of_readHead {lead : UInt8} (h : readHead lead rest = .char '\x00' size) :
    lead = 0 := by
  unfold readHead at h
  simp only [UInt8.lt_iff_toNat_lt, ← UInt8.toNat_inj] at h ⊢
  have hlead := lead.toNat_lt
  generalize lead.toNat = n at h hlead ⊢
  simp only [UInt8.reduceToNat] at h ⊢
  repeat' split at h
  · by_contra hzero
    exact ofNat_ne_null (Nat.pos_of_ne_zero hzero) (.inl (by omega)) (Head.char.inj h).1
  any_goals contradiction
  all_goals
    refine absurd rfl (ne_null_of_readSecond h ?_ fun v hlow hhigh => ?_)
    · simp only [UInt8.reduceToNat]; omega
    · simp only [UInt8.reduceToNat] at hlow hhigh
      change v < 0xd800 ∨ 0xdfff < v ∧ v < 0x110000
      omega

theorem null_not_mem_of_decodeFrom {done text : List Char} {index : Nat} {bs : Bytes}
    (hdone : '\x00' ∉ done) (hzero : 0 ∉ bs) (h : decodeFrom done index bs = .ok text) :
    '\x00' ∉ text := by
  fun_induction decodeFrom done index bs with
  | case1 done index =>
    obtain rfl := Except.ok.inj h
    rwa [List.mem_reverse]
  | case2 done index lead rest c size hread ih =>
    refine ih ?_ (fun hmem => hzero (.tail _ (List.mem_of_mem_drop hmem))) h
    rw [List.mem_cons, not_or]
    refine ⟨?_, hdone⟩
    rintro rfl
    exact hzero (eq_zero_of_readHead hread ▸ List.mem_cons_self)
  | case3 => contradiction
  | case4 => contradiction

theorem null_not_mem_of_decode {bs : Bytes} {text : List Char} (hzero : 0 ∉ bs)
    (h : decode bs = .ok text) : '\x00' ∉ text :=
  null_not_mem_of_decodeFrom List.not_mem_nil hzero h

theorem null_not_mem_mendFrom {mark done : List Char} {bs : Bytes} (hmark : '\x00' ∉ mark)
    (hdone : '\x00' ∉ done) (hzero : 0 ∉ bs) : '\x00' ∉ mendFrom mark done bs := by
  have hmarked : ∀ done : List Char, '\x00' ∉ done → '\x00' ∉ mark.reverse ++ done := by
    intro done hdone
    rw [List.mem_append, List.mem_reverse, not_or]
    exact ⟨hmark, hdone⟩
  fun_induction mendFrom mark done bs with
  | case1 done => rwa [List.mem_reverse]
  | case2 done lead rest c size hread ih =>
    refine ih ?_ fun hmem => hzero (.tail _ (List.mem_of_mem_drop hmem))
    rw [List.mem_cons, not_or]
    refine ⟨?_, hdone⟩
    rintro rfl
    exact hzero (eq_zero_of_readHead hread ▸ List.mem_cons_self)
  | case3 done lead rest size hread ih =>
    rw [List.unattach_reverse, List.unattach_attach] at ih
    exact ih (hmarked done hdone) fun hmem => hzero (.tail _ (List.mem_of_mem_drop hmem))
  | case4 done lead rest hread =>
    rw [List.mem_reverse]
    exact hmarked done hdone

theorem null_not_mem_repair {bs : Bytes} (hzero : 0 ∉ bs) : '\x00' ∉ repair bs :=
  null_not_mem_mendFrom (by decide) List.not_mem_nil hzero

end Null

end AccessTrace.Text.Utf8
