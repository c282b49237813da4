import Mathlib.Logic.Function.Iterate
import AccessTrace.Proofs.TraceFile.RoundTrip

/-!
The bytes behind a header, taken apart. Whatever they are, they are whole blocks one behind the
other and a rest at the front of which no block stands, in one way only; reading returns those
blocks, ends with what the rest deserves, and can be taken up at the start of any block.
-/

namespace AccessTrace.TraceFile

/-- No whole block stands at the front: the length is cut short or negative, or says more than there
is. -/
def Unframed (rest : Bytes) : Prop :=
  rest.length < 8 ∨ declared rest < 0 ∨ rest.length < 8 + declared rest

/-- Bytes taken apart into the payloads of whole blocks and a rest. -/
structure Framed (bytes : Bytes) (payloads : List Bytes) (rest : Bytes) : Prop where
  bytes_eq : bytes = payloads.flatMap frame ++ rest
  fits : ∀ payload ∈ payloads, payload.length < 2 ^ 63
  unframed : Unframed rest

/-- How a reading ends that finds a rest at an offset. A payload of eight bytes that is cut short
lacks as many bytes as a length would; the number of those present tells the two apart. -/
structure EndsAt (offset : Nat) (rest : Bytes) (fault : Option Error) : Prop where
  clean_iff : fault = none ↔ rest = []
  shortLength_iff : fault = some (.truncatedBlock offset 8 rest.length) ↔
    0 < rest.length ∧ rest.length < 8
  negative_iff : fault = some (.negativeLength (declared rest) offset) ↔
    8 ≤ rest.length ∧ declared rest < 0
  shortPayload_iff : fault = some (.truncatedBlock offset (declared rest).toNat (rest.length - 8)) ↔
    8 ≤ rest.length ∧ 0 ≤ declared rest ∧ rest.length < 8 + declared rest

section Frame

variable {payload payload' rest rest' : Bytes}

theorem not_unframed_frame (h : payload.length < 2 ^ 63) (rest : Bytes) :
    ¬Unframed (frame payload ++ rest) := by
  rw [Unframed, declared_frame h, List.length_append, length_frame]
  omega

theorem frame_append_inj (h : payload.length < 2 ^ 63) (h' : payload'.length < 2 ^ 63)
    (heq : frame payload ++ rest = frame payload' ++ rest') : payload = payload' ∧ rest = rest' := by
  have hnext := Blocks.next_frame 0 h rest
  rw [heq, Blocks.next_frame 0 h' rest'] at hnext
  simp only [Prod.mk.injEq, Except.ok.injEq, Option.some.injEq, RawBlock.mk.injEq, true_and,
    Blocks.mk.injEq] at hnext
  exact ⟨hnext.1.symm, hnext.2.2.symm⟩

end Frame

namespace Framed

variable {bytes rest rest' : Bytes} {payloads payloads' : List Bytes}

theorem nil (h : Unframed rest) : Framed rest [] rest :=
  ⟨rfl, by simp, h⟩

theorem cons {payload : Bytes} (hlength : payload.length < 2 ^ 63) (h : Framed bytes payloads rest) :
    Framed (frame payload ++ bytes) (payload :: payloads) rest where
  bytes_eq := by rw [h.bytes_eq, List.flatMap_cons, List.append_assoc]
  fits := List.forall_mem_cons.2 ⟨hlength, h.fits⟩
  unframed := h.unframed

theorem unique (h : Framed bytes payloads rest) (h' : Framed bytes payloads' rest') :
    payloads' = payloads ∧ rest' = rest := by
  obtain ⟨hbytes, hfits, hends⟩ := h
  obtain ⟨hbytes', hfits', hends'⟩ := h'
  rw [hbytes] at hbytes'
  clear hbytes
  induction payloads generalizing payloads' with
  | nil =>
    cases payloads' with
    | nil => exact ⟨rfl, hbytes'.symm⟩
    | cons payload' tail' =>
      rw [List.flatMap_nil, List.nil_append, List.flatMap_cons, List.append_assoc] at hbytes'
      exact absurd (hbytes' ▸ hends) (not_unframed_frame (hfits' _ List.mem_cons_self) _)
  | cons payload tail ih =>
    rw [List.forall_mem_cons] at hfits
    rw [List.flatMap_cons, List.append_assoc] at hbytes'
    cases payloads' with
    | nil =>
      rw [List.flatMap_nil, List.nil_append] at hbytes'
      exact absurd (hbytes'.symm ▸ hends') (not_unframed_frame hfits.1 _)
    | cons payload' tail' =>
      rw [List.forall_mem_cons] at hfits'
      rw [List.flatMap_cons, List.append_assoc] at hbytes'
      obtain ⟨rfl, htail⟩ := frame_append_inj hfits.1 hfits'.1 hbytes'
      obtain ⟨rfl, rfl⟩ := ih hfits.2 htail hfits'.2
      exact ⟨rfl, rfl⟩

end Framed

namespace Blocks

variable {s : Blocks}

theorem exists_next_of_framed (h : ¬Unframed s.rest) : ∃ raw t, s.next = (.ok (some raw), t) := by
  simp only [Unframed, not_or, Int.not_lt] at h
  obtain ⟨hwhole, hsign, hfits⟩ := h
  have hne : s.rest ≠ [] := by
    intro hnil
    simp [hnil] at hwhole
  have hnext := s.next_eq
  rw [if_neg hne, if_neg hwhole, if_neg (Int.not_lt.2 hsign), if_neg (Int.not_lt.2 hfits)] at hnext
  exact ⟨_, s.next.2, Prod.ext hnext rfl⟩

theorem exists_fault_of_unframed (h : Unframed s.rest) :
    ∃ fault, s.remaining = ([], fault) ∧ EndsAt s.offset s.rest fault := by
  have hnext := s.next_eq
  split_ifs at hnext with hnil hwhole hsign hshort
  · refine ⟨none, remaining_of_none (Prod.ext hnext rfl), ?_⟩
    constructor <;> simp [hnil]
  -- The rest is not empty; which fault it is depends on its length and on what it declares.
  any_goals
    have hpos : 0 < s.rest.length := List.length_pos_iff.2 hnil
    refine ⟨_, remaining_of_error (Prod.ext hnext rfl), ?_⟩
    constructor
    all_goals simp only [reduceCtorEq, hnil, Option.some.injEq, Error.truncatedBlock.injEq,
      true_and, false_iff, true_iff]
    all_goals omega
  · unfold Unframed at h
    omega

theorem exists_framed (s : Blocks) : ∃ payloads rest, Framed s.rest payloads rest := by
  by_cases h : Unframed s.rest
  · exact ⟨[], s.rest, .nil h⟩
  · obtain ⟨raw, t, hnext⟩ := exists_next_of_framed h
    have hlt := length_lt_of_next hnext
    obtain ⟨-, hlength, hrest, -⟩ := next_eq_some_iff.1 hnext
    obtain ⟨payloads, rest, hframed⟩ := exists_framed t
    exact ⟨raw.payload :: payloads, rest, hrest ▸ hframed.cons hlength⟩
termination_by s.rest.length

def behind (count : Nat) (s : Blocks) : Blocks :=
  (fun s => s.next.2)^[count] s

theorem behind_frames (offset : Nat) {payloads : List Bytes}
    (h : ∀ payload ∈ payloads, payload.length < 2 ^ 63) (rest : Bytes) {count : Nat}
    (hcount : count ≤ payloads.length) :
    behind count ⟨offset, payloads.flatMap frame ++ rest⟩ =
      ⟨offset + ((payloads.take count).flatMap frame).length,
        (payloads.drop count).flatMap frame ++ rest⟩ := by
  induction count generalizing offset payloads with
  | zero => rfl
  | succ count ih =>
    cases payloads with
    | nil => simp at hcount
    | cons payload tail =>
      rw [List.forall_mem_cons] at h
      have hstep : behind (count + 1) ⟨offset, (payload :: tail).flatMap frame ++ rest⟩ =
          behind count ⟨offset + 8 + payload.length, tail.flatMap frame ++ rest⟩ := by
        rw [behind, Function.iterate_succ_apply, List.flatMap_cons, List.append_assoc,
          next_frame offset h.1]
        rfl
      rw [hstep, ih _ h.2 (Nat.le_of_succ_le_succ hcount), List.take_succ_cons, List.drop_succ_cons,
        List.flatMap_cons, List.length_append, length_frame]
      simp only [Nat.add_assoc]

end Blocks

theorem drop_layOut (offset count : Nat) (payloads : List Bytes) :
    (layOut offset payloads).drop count =
      layOut (offset + ((payloads.take count).flatMap frame).length) (payloads.drop count) := by
  induction count generalizing offset payloads with
  | zero => rfl
  | succ count ih =>
    cases payloads with
    | nil => rfl
    | cons payload tail =>
      rw [layOut, List.drop_succ_cons, ih, List.take_succ_cons, List.drop_succ_cons,
        List.flatMap_cons, List.length_append, length_frame]
      simp only [Nat.add_assoc]

theorem drop_flatMap_frame (payloads : List Bytes) (rest : Bytes) (count : Nat) :
    (payloads.flatMap frame ++ rest).drop ((payloads.take count).flatMap frame).length =
      (payloads.drop count).flatMap frame ++ rest := by
  conv => lhs; rw [← List.take_append_drop count payloads, List.flatMap_append, List.append_assoc]
  rw [List.take_append_drop, List.drop_left]

theorem remaining_startingAt {file : Bytes} {start : Nat} {payloads : List Bytes} {rest : Bytes}
    (h : Framed (file.drop start) payloads rest) :
    ∃ fault, EndsAt (start + (payloads.flatMap frame).length) rest fault ∧
      ∀ count ≤ payloads.length, ∃ offset,
        offset = start + ((payloads.take count).flatMap frame).length ∧
          (Blocks.startingAt file start).behind count = .startingAt file offset ∧
          (Blocks.startingAt file offset).remaining = ((layOut start payloads).drop count, fault) := by
  obtain ⟨fault, hrest, hends⟩ := Blocks.exists_fault_of_unframed
    (s := ⟨start + (payloads.flatMap frame).length, rest⟩) h.unframed
  refine ⟨fault, hends, fun count hcount => ⟨_, rfl, ?_, ?_⟩⟩
  · rw [Blocks.startingAt, h.bytes_eq, Blocks.behind_frames start h.fits rest hcount,
      Blocks.startingAt, ← List.drop_drop, h.bytes_eq, drop_flatMap_frame]
  · have hfits : ∀ payload ∈ payloads.drop count, payload.length < 2 ^ 63 :=
      fun payload hmem => h.fits payload (List.mem_of_mem_drop hmem)
    have htotal : ((payloads.take count).flatMap frame).length +
        ((payloads.drop count).flatMap frame).length = (payloads.flatMap frame).length := by
      rw [← List.length_append, ← List.flatMap_append, List.take_append_drop]
    rw [Blocks.startingAt, ← List.drop_drop, h.bytes_eq, drop_flatMap_frame,
      remaining_append _ hfits, Nat.add_assoc, htotal, hrest, drop_layOut]
    simp only [List.append_nil]

/-- The offset behind the first zero byte that follows the magic bytes. -/
def dataStart (file : Bytes) : Nat :=
  magic.length + (file.drop magic.length).idxOf 0 + 1

section File

variable {file : Bytes}

theorem dataStart_eq {text : Bytes} (htext : 0 ∉ text) (rest : Bytes) :
    dataStart (magic ++ text ++ 0 :: rest) = magic.length + text.length + 1 := by
  rw [dataStart, List.append_assoc, List.drop_left, List.idxOf_append_of_notMem htext,
    List.idxOf_cons_self]
  rfl

theorem exists_text_of_terminated (hmagic : magic <+: file) (hzero : 0 ∈ file.drop magic.length) :
    ∃ text rest, file = magic ++ text ++ 0 :: rest ∧ 0 ∉ text := by
  obtain ⟨body, rfl⟩ := hmagic
  rw [List.drop_left] at hzero
  obtain ⟨text, rest, rfl, htext⟩ := List.eq_append_cons_of_mem hzero
  exact ⟨text, rest, (List.append_assoc _ _ _).symm, htext⟩

theorem read_of_terminated {strict : Bool} {text : Bytes} (htext : 0 ∉ text) (rest : Bytes) :
    read strict (magic ++ text ++ 0 :: rest) =
      (regionText strict text).bind fun chars =>
        ((Region.Table.ofText? strict chars).mapError .regions).map fun regions =>
          ⟨text.length, regions,
            .startingAt (magic ++ text ++ 0 :: rest) (dataStart (magic ++ text ++ 0 :: rest))⟩ := by
  have hlength : magic.length + text.length + 1 = (magic ++ text ++ [0]).length := by
    rw [List.length_append, List.length_append]
    rfl
  rw [read_terminated htext, dataStart_eq htext, Blocks.startingAt, List.append_cons, hlength,
    List.drop_left]

theorem dataOffset_of_read {strict : Bool} {opened : Opened} (h : read strict file = .ok opened) :
    opened.dataOffset = dataStart file := by
  obtain ⟨text, rest, rfl, htext, hlength, -⟩ := split_of_read h
  rw [dataStart_eq htext, Opened.dataOffset, hlength]

/-- Behind the magic bytes the text up to the first zero byte decides whether a file opens, and what
stands behind that byte is read block by block. The bytes there can be taken apart in one way, and
every block and the end of the reading are found again from the start of any block. -/
theorem remaining_of_terminated (hmagic : magic <+: file) (hzero : 0 ∈ file.drop magic.length) :
    (∃ text, file.take (dataStart file) = magic ++ text ++ [0] ∧ 0 ∉ text ∧
      ∀ strict, read strict file =
        (regionText strict text).bind fun chars =>
          ((Region.Table.ofText? strict chars).mapError .regions).map fun regions =>
            ⟨text.length, regions, .startingAt file (dataStart file)⟩) ∧
      (∀ strict opened, read strict file = .ok opened →
        opened.dataOffset = dataStart file ∧
          opened.blocks = .startingAt file (dataStart file)) ∧
      ∃ payloads rest fault,
        Framed (file.drop (dataStart file)) payloads rest ∧
          (∀ payloads' rest', Framed (file.drop (dataStart file)) payloads' rest' →
            payloads' = payloads ∧ rest' = rest) ∧
          (Blocks.startingAt file (dataStart file)).remaining =
            (layOut (dataStart file) payloads, fault) ∧
          EndsAt (dataStart file + (payloads.flatMap frame).length) rest fault ∧
          ∀ count ≤ payloads.length, ∃ offset,
            offset = dataStart file + ((payloads.take count).flatMap frame).length ∧
              (Blocks.startingAt file (dataStart file)).behind count = .startingAt file offset ∧
              (Blocks.startingAt file offset).remaining =
                ((layOut (dataStart file) payloads).drop count, fault) := by
  refine ⟨?_, fun strict opened hopened => ?_, ?_⟩
  · obtain ⟨text, rest, rfl, htext⟩ := exists_text_of_terminated hmagic hzero
    refine ⟨text, ?_, htext, fun strict => read_of_terminated htext rest⟩
    rw [dataStart_eq htext, List.append_cons, List.take_left']
    rw [List.length_append, List.length_append]
    rfl
  · have hoffset := dataOffset_of_read hopened
    exact ⟨hoffset, hoffset ▸ (blocks_of_read hopened).1⟩
  · obtain ⟨payloads, rest, hframed⟩ := Blocks.exists_framed (.startingAt file (dataStart file))
    obtain ⟨fault, hends, hseek⟩ := remaining_startingAt hframed
    obtain ⟨offset, rfl, -, hremaining⟩ := hseek 0 (Nat.zero_le _)
    exact ⟨payloads, rest, fault, hframed, fun _ _ h => hframed.unique h, hremaining, hends, hseek⟩

end File

/-- Region text that is not UTF-8, a whole block, and a payload of eight bytes of which three are
there. -/
theorem remaining_of_terminated_cut_payload :
    ∃ file, file = magic ++ [0xff, 0] ++ frame [1, 2, 3] ++ (Word.encode 8 ++ [5, 5, 5]) ∧
      magic <+: file ∧ 0 ∈ file.drop magic.length ∧
      (Blocks.startingAt file 10).remaining =
        ([⟨10, [1, 2, 3]⟩], some (.truncatedBlock 21 8 3)) ∧
      (Blocks.startingAt file 21).remaining = ([], some (.truncatedBlock 21 8 3)) := by
  have hmagic : magic <+: magic ++ [0xff, 0] ++ frame [1, 2, 3] ++ (Word.encode 8 ++ [5, 5, 5]) := by
    decide +kernel
  have hzero : 0 ∈ (magic ++ [0xff, 0] ++ frame [1, 2, 3] ++
      (Word.encode 8 ++ [5, 5, 5])).drop magic.length := by
    decide +kernel
  refine ⟨_, rfl, hmagic, hzero, ?_⟩
  obtain ⟨-, -, payloads, rest, fault, -, hunique, hremaining, hends, hseek⟩ :=
    remaining_of_terminated hmagic hzero
  obtain ⟨rfl, rfl⟩ := hunique [[1, 2, 3]] (Word.encode 8 ++ [5, 5, 5])
    ⟨by decide +kernel, by decide +kernel, .inr (.inr (by decide +kernel))⟩
  obtain rfl := hends.shortPayload_iff.2 (by decide +kernel)
  obtain ⟨_, rfl, -, hcut⟩ := hseek 1 (by decide +kernel)
  exact ⟨hremaining, hcut⟩

end AccessTrace.TraceFile
