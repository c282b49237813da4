import AccessTrace.Proofs.Word
import AccessTrace.Record

/-!
Records and the bytes they are kept in. What is written is read back; a buffer is read when it holds
whole records with tags that are known; and writing what was read changes only the bytes that
reading passes over, and a write flag above one.
-/

namespace AccessTrace.Record

variable {bs bytes rest : Bytes} {ps : List Bytes} {r : Record} {rs done : List Record}

theorem wordAt_flatMap {ws : List UInt64} {index : Nat} (h : index < ws.length) :
    wordAt (ws.flatMap Word.encode) index = ws[index] := by
  induction ws generalizing index with
  | nil => contradiction
  | cons w rest ih =>
    have hwidth : (Word.encode w).length = 8 := Word.length_encode w
    cases index with
    | zero =>
      rw [wordAt, List.flatMap_cons, Nat.mul_zero, List.drop_zero, List.take_left' hwidth,
        Word.decode_encode]
      rfl
    | succ index =>
      have hdrop : (Word.encode w ++ rest.flatMap Word.encode).drop (8 * (index + 1)) =
          (rest.flatMap Word.encode).drop (8 * index) := by
        rw [Nat.mul_succ, Nat.add_comm, ← List.drop_drop, List.drop_left' hwidth]
      rw [wordAt, List.flatMap_cons, hdrop]
      exact ih (Nat.lt_of_succ_lt_succ h)

theorem length_words (r : Record) : r.words.length = 7 := by
  cases r <;> rfl

theorem length_encodeOne (r : Record) : (encodeOne r).length = width := by
  cases r <;> simp [encodeOne, words, width]

theorem decodeOne_encodeOne (r : Record) : decodeOne (encodeOne r) = .ok r := by
  have hlength := length_words r
  have hword : ∀ index (h : index < r.words.length), wordAt (encodeOne r) index = r.words[index] :=
    fun _ h => wordAt_flatMap h
  rw [decodeOne, hword 0 (by omega), hword 1 (by omega), hword 2 (by omega), hword 3 (by omega),
    hword 4 (by omega), hword 5 (by omega), hword 6 (by omega)]
  cases r with
  | access a => cases a with | mk time pc bp sp addr isWrite => cases isWrite <;> rfl
  | enter function => rfl
  | exit function => rfl

theorem isEmpty_append (h : bytes.length = width) : (bytes ++ rest).isEmpty = false := by
  rw [List.isEmpty_eq_false_iff, ← List.length_pos_iff, List.length_append, h]
  exact Nat.lt_of_lt_of_le (by decide) (Nat.le_add_right width _)

theorem decodeFrom_of_ok (h : bytes.length = width) (hr : decodeOne bytes = .ok r) :
    decodeFrom done (bytes ++ rest) = decodeFrom (r :: done) rest := by
  rw [decodeFrom, isEmpty_append h, if_neg Bool.false_ne_true, List.take_left' h,
    List.drop_left' h]
  simp only [hr]

theorem decodeFrom_of_error {t : Int} (h : bytes.length = width) (ht : decodeOne bytes = .error t) :
    decodeFrom done (bytes ++ rest) = .error (.unknownTag t done.length) := by
  rw [decodeFrom, isEmpty_append h, if_neg Bool.false_ne_true, List.take_left' h]
  simp only [ht]

theorem decodeFrom_encode (done rs : List Record) :
    decodeFrom done (encode rs) = .ok (done.reverse ++ rs) := by
  induction rs generalizing done with
  | nil => rw [encode, List.flatMap_nil, decodeFrom, List.append_nil]; rfl
  | cons r rest ih =>
    rw [encode, List.flatMap_cons, ← encode,
      decodeFrom_of_ok (length_encodeOne r) (decodeOne_encodeOne r), ih, List.reverse_cons,
      List.append_assoc, List.singleton_append]

theorem length_encode (rs : List Record) : (encode rs).length = width * rs.length := by
  induction rs with
  | nil => rfl
  | cons r rest ih =>
    rw [encode, List.flatMap_cons, ← encode, List.length_append, ih, length_encodeOne,
      List.length_cons, Nat.mul_succ, Nat.add_comm]

theorem decode_encode (rs : List Record) : decode (encode rs) = .ok rs := by
  rw [decode, length_encode, Nat.mul_mod_right, if_neg (by simp), decodeFrom_encode]
  rfl

def pieces (bs : Bytes) : List Bytes :=
  (List.range (bs.length / width)).map fun position => (bs.drop (width * position)).take width

def tag (bytes : Bytes) : Int :=
  Word.signed (wordAt bytes 0)

def Known (tag : Int) : Prop :=
  tag = 0 ∨ tag = 1 ∨ tag = 2

/-- The bytes of a record with a write flag that is zero or one, or with nothing behind the function
of an entry or exit. -/
def tidied (bytes : Bytes) : Bytes :=
  if tag bytes = 0 then
    bytes.take 48 ++ if wordAt bytes 6 = 0 then bytes.drop 48 else Word.encode 1
  else bytes.take 16 ++ List.replicate 40 0

structure FirstUnknown (ps : List Bytes) (position : Nat) (bytes : Bytes) : Prop where
  atPosition : ps[position]? = some bytes
  unknown : ¬ Known (tag bytes)
  knownBefore : ∀ earlier ∈ ps.take position, Known (tag earlier)

def Tidy (bytes : Bytes) : Prop :=
  (tag bytes = 0 → wordAt bytes 6 = 0 ∨ wordAt bytes 6 = 1) ∧
    (tag bytes ≠ 0 → bytes.drop 16 = List.replicate 40 0)

theorem pieces_append (h : bytes.length = width) :
    pieces (bytes ++ rest) = bytes :: pieces rest := by
  have hcount : (bytes ++ rest).length / width = rest.length / width + 1 := by
    rw [List.length_append, h, Nat.add_comm, Nat.add_div_right _ (by decide)]
  have hlater (position : Nat) : ((bytes ++ rest).drop (width * (position + 1))).take width =
      (rest.drop (width * position)).take width := by
    rw [Nat.mul_succ, Nat.add_comm, ← List.drop_drop, List.drop_left' h]
  rw [pieces, hcount, List.range_succ_eq_map, List.map_cons, List.map_map, Nat.mul_zero,
    List.drop_zero, List.take_left' h]
  exact congrArg _ (List.map_congr_left fun position _ => hlater position)

theorem pieces_flatten (h : ∀ bytes ∈ ps, bytes.length = width) : pieces ps.flatten = ps := by
  induction ps with
  | nil => rfl
  | cons bytes ps ih =>
    rw [List.forall_mem_cons] at h
    rw [List.flatten_cons, pieces_append h.1, ih h.2]

theorem exists_flatten_eq (h : bs.length % width = 0) :
    ∃ ps : List Bytes, bs = ps.flatten ∧ ∀ bytes ∈ ps, bytes.length = width := by
  obtain ⟨n, hn⟩ := Nat.dvd_of_mod_eq_zero h
  clear h
  induction n generalizing bs with
  | zero => exact ⟨[], List.length_eq_zero_iff.1 hn, by simp⟩
  | succ n ih =>
    rw [Nat.mul_succ] at hn
    have hrest : (bs.drop width).length = width * n := by rw [List.length_drop]; omega
    obtain ⟨ps, hps, hlength⟩ := ih hrest
    refine ⟨bs.take width :: ps, ?_, List.forall_mem_cons.2 ⟨?_, hlength⟩⟩
    · rw [List.flatten_cons, ← hps, List.take_append_drop]
    · rw [List.length_take]
      omega

theorem flatMap_wordAt {n : Nat} (h : bytes.length = 8 * n) :
    ((List.range n).map (wordAt bytes)).flatMap Word.encode = bytes := by
  induction n generalizing bytes with
  | zero => exact (List.length_eq_zero_iff.1 h).symm
  | succ n ih =>
    have hfront : (bytes.take 8).length = 8 := by rw [List.length_take]; omega
    have hback : (bytes.drop 8).length = 8 * n := by rw [List.length_drop]; omega
    have hfirst : Word.encode (wordAt bytes 0) = bytes.take 8 := Word.encode_decode hfront
    have hlater : wordAt bytes ∘ Nat.succ = wordAt (bytes.drop 8) := by
      funext index
      rw [Function.comp_apply, wordAt, wordAt, Nat.mul_succ, Nat.add_comm, List.drop_drop]
    rw [List.range_succ_eq_map, List.map_cons, List.map_map, List.flatMap_cons, hfirst, hlater,
      ih hback, List.take_append_drop]

theorem length_flatMap_encode (ws : List UInt64) :
    (ws.flatMap Word.encode).length = 8 * ws.length := by
  induction ws with
  | nil => rfl
  | cons w ws ih =>
    rw [List.flatMap_cons, List.length_append, ih, Word.length_encode, List.length_cons]
    omega

def tidiedWords (bytes : Bytes) : List UInt64 :=
  if tag bytes = 0 then
    [wordAt bytes 0, wordAt bytes 1, wordAt bytes 2, wordAt bytes 3, wordAt bytes 4, wordAt bytes 5,
      if wordAt bytes 6 = 0 then 0 else 1]
  else [wordAt bytes 0, wordAt bytes 1, 0, 0, 0, 0, 0]

theorem take_flatMap_encode {n : Nat} (ws ws' : List UInt64) (h : n = 8 * ws.length) :
    ((ws ++ ws').flatMap Word.encode).take n = ws.flatMap Word.encode := by
  rw [List.flatMap_append, List.take_left' (h ▸ length_flatMap_encode ws)]

theorem drop_flatMap_encode {n : Nat} (ws ws' : List UInt64) (h : n = 8 * ws.length) :
    ((ws ++ ws').flatMap Word.encode).drop n = ws'.flatMap Word.encode := by
  rw [List.flatMap_append, List.drop_left' (h ▸ length_flatMap_encode ws)]

theorem tidied_eq (h : bytes.length = width) :
    tidied bytes = (tidiedWords bytes).flatMap Word.encode := by
  have hwords := flatMap_wordAt (n := 7) h
  have hfront : bytes.take 48 = [wordAt bytes 0, wordAt bytes 1, wordAt bytes 2, wordAt bytes 3,
      wordAt bytes 4, wordAt bytes 5].flatMap Word.encode := by
    rw [← take_flatMap_encode _ [wordAt bytes 6] rfl]
    exact congrArg _ hwords.symm
  have hflag : bytes.drop 48 = [wordAt bytes 6].flatMap Word.encode := by
    rw [← drop_flatMap_encode [wordAt bytes 0, wordAt bytes 1, wordAt bytes 2, wordAt bytes 3,
      wordAt bytes 4, wordAt bytes 5] _ rfl]
    exact congrArg _ hwords.symm
  have hpointer : bytes.take 16 = [wordAt bytes 0, wordAt bytes 1].flatMap Word.encode := by
    rw [← take_flatMap_encode _ [wordAt bytes 2, wordAt bytes 3, wordAt bytes 4, wordAt bytes 5,
      wordAt bytes 6] rfl]
    exact congrArg _ hwords.symm
  have hzeros : List.replicate 40 (0 : UInt8) = [0, 0, 0, 0, 0].flatMap Word.encode := by
    decide +kernel
  rw [tidied, tidiedWords]
  split
  · split
    · rename_i hzero
      rw [hfront, hflag, hzero, ← List.flatMap_append]
      rfl
    · rw [hfront]
      rfl
  · rw [hpointer, hzeros, ← List.flatMap_append]
    rfl

theorem length_tidied (h : bytes.length = width) : (tidied bytes).length = width := by
  rw [tidied_eq h, length_flatMap_encode, tidiedWords]
  split <;> rfl

theorem take_append_eq_self_iff {n : Nat} {back : Bytes} :
    bytes.take n ++ back = bytes ↔ bytes.drop n = back := by
  constructor
  · intro h
    exact (List.append_cancel_left (h.trans (List.take_append_drop n bytes).symm)).symm
  · rintro rfl
    exact List.take_append_drop n bytes

theorem tidied_eq_self_iff (h : bytes.length = width) : tidied bytes = bytes ↔ Tidy bytes := by
  have hflag : Word.encode (wordAt bytes 6) = bytes.drop 48 := by
    have hlength : (bytes.drop 48).length = 8 := by rw [List.length_drop, h]; rfl
    rw [wordAt, List.take_of_length_le (Nat.le_of_eq hlength)]
    exact Word.encode_decode hlength
  have hone : wordAt bytes 6 = 1 ↔ bytes.drop 48 = Word.encode 1 := by
    rw [← hflag]
    exact ⟨congrArg Word.encode, fun heq => by
      rw [← Word.decode_encode (wordAt bytes 6), heq, Word.decode_encode]⟩
  rw [tidied, Tidy]
  split
  · rename_i htag
    simp only [htag, forall_true_left, ne_eq, not_true_eq_false, false_imp_iff, and_true]
    split
    · rename_i hzero
      simp [hzero]
    · rename_i hset
      rw [take_append_eq_self_iff, hone, or_iff_right hset]
  · rename_i htag
    simp only [htag, false_imp_iff, true_and, ne_eq, not_false_eq_true, forall_true_left]
    exact take_append_eq_self_iff

theorem tag_eq_iff {n : Nat} (h : n < 2 ^ 63) :
    tag bytes = n ↔ wordAt bytes 0 = UInt64.ofNat n := by
  rw [tag, ← Word.signed_ofNat h, Word.signed_inj]

/-- What one record gives: its tag decides whether it can be read, and the record read has the words
that writing leaves. -/
theorem decodeOne_cases (bytes : Bytes) :
    (Known (tag bytes) ∧ ∃ r, decodeOne bytes = .ok r ∧ r.words = tidiedWords bytes) ∨
      ¬ Known (tag bytes) ∧ decodeOne bytes = .error (tag bytes) := by
  have haccess : tag bytes = 0 ↔ wordAt bytes 0 = 0 := tag_eq_iff (n := 0) (by decide)
  have henter : tag bytes = 1 ↔ wordAt bytes 0 = 1 := tag_eq_iff (n := 1) (by decide)
  have hexit : tag bytes = 2 ↔ wordAt bytes 0 = 2 := tag_eq_iff (n := 2) (by decide)
  simp only [Known, tidiedWords, haccess, henter, hexit, decodeOne, ofWords]
  by_cases h₀ : wordAt bytes 0 = 0
  · refine .inl ⟨.inl h₀, _, if_pos h₀, ?_⟩
    rw [if_pos h₀, words, h₀]
    by_cases hwrite : wordAt bytes 6 = 0 <;> simp [hwrite]
  · by_cases h₁ : wordAt bytes 0 = 1
    · refine .inl ⟨.inr (.inl h₁), .enter (wordAt bytes 1), ?_, ?_⟩
      · rw [if_neg h₀, if_pos h₁]
      · rw [if_neg h₀, words, h₁]
    · by_cases h₂ : wordAt bytes 0 = 2
      · refine .inl ⟨.inr (.inr h₂), .exit (wordAt bytes 1), ?_, ?_⟩
        · rw [if_neg h₀, if_neg h₁, if_pos h₂]
        · rw [if_neg h₀, words, h₂]
      · refine .inr ⟨by simp [h₀, h₁, h₂], ?_⟩
        rw [if_neg h₀, if_neg h₁, if_neg h₂]
        rfl

theorem encodeOne_of_decodeOne (hlength : bytes.length = width) (h : decodeOne bytes = .ok r) :
    encodeOne r = tidied bytes := by
  rcases decodeOne_cases bytes with ⟨-, r', hr, hwords⟩ | ⟨-, herror⟩
  · obtain rfl := Except.ok.inj (h.symm.trans hr)
    rw [encodeOne, hwords, tidied_eq hlength]
  · rw [herror] at h
    contradiction

theorem FirstUnknown.unique {position position' : Nat} {bytes bytes' : Bytes}
    (h : FirstUnknown ps position bytes) (h' : FirstUnknown ps position' bytes') :
    position = position' ∧ bytes = bytes' := by
  have hnot {i j : Nat} {b c : Bytes} (hi : FirstUnknown ps i b) (hj : FirstUnknown ps j c) :
      ¬ i < j := fun hlt =>
    hi.unknown (hj.knownBefore b (List.mem_take_iff_getElem.2 (by
      obtain ⟨hlength, heq⟩ := List.getElem?_eq_some_iff.1 hi.atPosition
      exact ⟨i, by omega, heq⟩)))
  obtain rfl : position = position' := by
    have := hnot h h'
    have := hnot h' h
    omega
  exact ⟨rfl, Option.some.inj (h.atPosition.symm.trans h'.atPosition)⟩

/-- Either every record is read, and writing them gives the tidied bytes, or the first one with an
unknown tag is reported. -/
theorem decodeFrom_cases (h : ∀ bytes ∈ ps, bytes.length = width) (done : List Record) :
    ((∀ bytes ∈ ps, Known (tag bytes)) ∧ ∃ read,
        decodeFrom done ps.flatten = .ok (done.reverse ++ read) ∧
          encode read = ps.flatMap tidied) ∨
      ∃ position bytes, FirstUnknown ps position bytes ∧
        decodeFrom done ps.flatten = .error (.unknownTag (tag bytes) (done.length + position)) := by
  induction ps generalizing done with
  | nil =>
    refine .inl ⟨by simp, [], ?_, rfl⟩
    rw [List.flatten_nil, decodeFrom, List.append_nil]
    rfl
  | cons bytes ps ih =>
    rw [List.forall_mem_cons] at h
    rw [List.flatten_cons]
    rcases decodeOne_cases bytes with ⟨hknown, r, hr, -⟩ | ⟨hunknown, herror⟩
    · rw [decodeFrom_of_ok h.1 hr]
      rcases ih h.2 (r :: done) with
        ⟨hall, read, hread, hencode⟩ | ⟨position, bytes', hfirst, herror⟩
      · refine .inl ⟨List.forall_mem_cons.2 ⟨hknown, hall⟩, r :: read, ?_, ?_⟩
        · rw [hread, List.reverse_cons, List.append_assoc, List.singleton_append]
        · rw [encode, List.flatMap_cons, ← encode, hencode, List.flatMap_cons,
            encodeOne_of_decodeOne h.1 hr]
      · refine .inr ⟨position + 1, bytes', ⟨hfirst.atPosition, hfirst.unknown, ?_⟩, ?_⟩
        · rw [List.take_succ_cons]
          exact List.forall_mem_cons.2 ⟨hknown, hfirst.knownBefore⟩
        · rw [herror, List.length_cons, Nat.add_assoc, Nat.add_comm 1]
    · exact .inr ⟨0, bytes, ⟨rfl, hunknown, by simp⟩, decodeFrom_of_error h.1 herror⟩

theorem flatMap_tidied_eq_flatten_iff (h : ∀ bytes ∈ ps, bytes.length = width) :
    ps.flatMap tidied = ps.flatten ↔ ∀ bytes ∈ ps, Tidy bytes := by
  induction ps with
  | nil => simp
  | cons bytes ps ih =>
    rw [List.forall_mem_cons] at h
    rw [List.flatMap_cons, List.flatten_cons, List.forall_mem_cons, ← ih h.2,
      ← tidied_eq_self_iff h.1]
    constructor
    · exact fun heq => List.append_inj heq ((length_tidied h.1).trans h.1.symm)
    · rintro ⟨hbytes, hps⟩
      rw [hbytes, hps]

/-- How a buffer and the records in it belong together. -/
structure Reads (bs : Bytes) : Prop where
  accepted : (∃ rs, decode bs = .ok rs) ↔
    bs.length % 56 = 0 ∧ ∀ bytes ∈ pieces bs, Known (tag bytes)
  refused : ∀ e, decode bs = .error e ↔
    (bs.length % 56 ≠ 0 ∧ e = .length bs.length) ∨
      bs.length % 56 = 0 ∧ ∃ position bytes, FirstUnknown (pieces bs) position bytes ∧
        e = .unknownTag (tag bytes) position
  rewritten : ∀ rs, decode bs = .ok rs → encode rs = (pieces bs).flatMap tidied
  unchanged : ∀ rs, decode bs = .ok rs → (encode rs = bs ↔ ∀ bytes ∈ pieces bs, Tidy bytes)

theorem Reads.of_error {e : DecodeError} (h : decode bs = .error e)
    (haccepted : ¬ (bs.length % 56 = 0 ∧ ∀ bytes ∈ pieces bs, Known (tag bytes)))
    (hrefused : ∀ e', e = e' ↔ (bs.length % 56 ≠ 0 ∧ e' = .length bs.length) ∨
      bs.length % 56 = 0 ∧ ∃ position bytes, FirstUnknown (pieces bs) position bytes ∧
        e' = .unknownTag (tag bytes) position) : Reads bs := by
  have hnone : ∀ rs, decode bs ≠ .ok rs := by simp [h]
  constructor
  case accepted => exact ⟨fun ⟨rs, hrs⟩ => absurd hrs (hnone rs), fun h => absurd h haccepted⟩
  case refused =>
    intro e'
    rw [h, Except.error.injEq]
    exact hrefused e'
  case rewritten => exact fun rs hrs => absurd hrs (hnone rs)
  case unchanged => exact fun rs hrs => absurd hrs (hnone rs)

theorem reads_of_ragged (h : bs.length % width ≠ 0) : Reads bs := by
  refine .of_error (e := .length bs.length) (by rw [decode, if_pos h]) (fun hwhole => h hwhole.1)
    fun e' => ⟨?_, ?_⟩
  · rintro rfl
    exact .inl ⟨h, rfl⟩
  · rintro (⟨-, rfl⟩ | ⟨hwhole, -⟩)
    · rfl
    · exact absurd hwhole h

theorem reads_of_firstUnknown {position : Nat} (h : bs.length % width = 0)
    (hfirst : FirstUnknown (pieces bs) position bytes)
    (herror : decode bs = .error (.unknownTag (tag bytes) position)) : Reads bs := by
  refine .of_error herror (fun hall => ?_) fun e' => ⟨?_, ?_⟩
  · exact hfirst.unknown (hall.2 bytes (List.mem_of_getElem? hfirst.atPosition))
  · rintro rfl
    exact .inr ⟨h, position, bytes, hfirst, rfl⟩
  · rintro (⟨hragged, -⟩ | ⟨-, position', bytes', hfirst', rfl⟩)
    · exact absurd h hragged
    · obtain ⟨rfl, rfl⟩ := hfirst.unique hfirst'
      rfl

theorem reads_of_known (h : bs.length % width = 0)
    (hall : ∀ bytes ∈ pieces bs, Known (tag bytes)) (hread : decode bs = .ok rs)
    (hencode : encode rs = (pieces bs).flatMap tidied)
    (hunchanged : encode rs = bs ↔ ∀ bytes ∈ pieces bs, Tidy bytes) : Reads bs := by
  constructor
  case accepted => exact ⟨fun _ => ⟨h, hall⟩, fun _ => ⟨rs, hread⟩⟩
  case refused =>
    intro e
    rw [hread]
    refine ⟨fun heq => by contradiction, ?_⟩
    rintro (⟨hragged, -⟩ | ⟨-, position, bytes, hfirst, -⟩)
    · exact absurd h hragged
    · exact absurd (hall bytes (List.mem_of_getElem? hfirst.atPosition)) hfirst.unknown
  case rewritten =>
    intro rs' hrs
    rwa [Except.ok.inj (hrs.symm.trans hread)]
  case unchanged =>
    intro rs' hrs
    rwa [Except.ok.inj (hrs.symm.trans hread)]

theorem reads_of_whole (h : bs.length % width = 0) : Reads bs := by
  obtain ⟨ps, rfl, hlength⟩ := exists_flatten_eq h
  have hdecode : decode ps.flatten = decodeFrom [] ps.flatten := by
    rw [decode, if_neg (not_not_intro h)]
  have hpieces := pieces_flatten hlength
  rcases decodeFrom_cases hlength [] with
    ⟨hall, read, hread, hencode⟩ | ⟨position, bytes, hfirst, herror⟩
  · refine reads_of_known h (hpieces.symm ▸ hall) (hdecode.trans hread) ?_ ?_
    · rw [hpieces]
      exact hencode
    · rw [hpieces, ← flatMap_tidied_eq_flatten_iff hlength, ← hencode]
      rfl
  · rw [← hdecode, List.length_nil, Nat.zero_add] at herror
    exact reads_of_firstUnknown h (hpieces.symm ▸ hfirst) herror

/-- Records survive as they are, whatever bits their times have; and of every buffer it is known
whether it can be read, what is wrong with it, and what writing its records again makes of it. -/
theorem reads_and_restores (rs : List Record) (bs : Bytes) :
    decode (encode rs) = .ok rs ∧ (encode rs).length = 56 * rs.length ∧ Reads bs := by
  refine ⟨decode_encode rs, length_encode rs, ?_⟩
  by_cases h : bs.length % width = 0
  · exact reads_of_whole h
  · exact reads_of_ragged h

/-- An exit with a byte behind its function, and an access with two for a write flag. -/
theorem reads_and_restores_untidy :
    let bs := [2, 5, 0, 0, 0, 0, 9, 0, 1, 2, 3, 4, 5, 2].flatMap Word.encode
    let rs := [.exit 5, .access ⟨1, 2, 3, 4, 5, true⟩]
    decode bs = .ok rs ∧ encode rs = (pieces bs).flatMap tidied ∧ encode rs ≠ bs := by
  intro bs rs
  obtain ⟨-, -, hreads⟩ := reads_and_restores [] bs
  have hread : decode bs = .ok rs := by cbv
  refine ⟨hread, hreads.rewritten rs hread, fun h => ?_⟩
  have htidy := (hreads.unchanged rs hread).1 h
  have hmem : [2, 5, 0, 0, 0, 0, 9].flatMap Word.encode ∈ pieces bs := by decide +kernel
  have hzeros := (htidy _ hmem).2 (by decide +kernel)
  revert hzeros
  decide +kernel

end AccessTrace.Record
