import AccessTrace.Proofs.TraceFile.Blocks
import AccessTrace.Proofs.TraceFile.Header

/-!
A trace file that was cut off. It opens as before when the cut lies behind the header, and does not
open otherwise. The blocks that end in front of the cut are read as they were, and the next is
missing when the cut is in front of it, and truncated when the cut goes through it.
-/

namespace AccessTrace.TraceFile

def RawBlock.stop (raw : RawBlock) : Nat :=
  raw.fileOffset + 8 + raw.payload.length

def RawBlock.truncation (raw : RawBlock) (cut : Nat) : Error :=
  if cut < raw.fileOffset + 8 then .truncatedBlock raw.fileOffset 8 (cut - raw.fileOffset)
  else .truncatedBlock raw.fileOffset raw.payload.length (cut - raw.fileOffset - 8)

def Blocks.upTo (s : Blocks) (cut : Nat) : Blocks :=
  { s with rest := s.rest.take (cut - s.offset) }

def Opened.upTo (o : Opened) (cut : Nat) : Opened :=
  { o with blocks := o.blocks.upTo cut }

namespace Blocks

variable {s t : Blocks} {raw : RawBlock} {cut : Nat}

theorem next_upTo_of_stop_le (h : s.next = (.ok (some raw), t)) (hstop : raw.stop ≤ cut) :
    (s.upTo cut).next = (.ok (some raw), t.upTo cut) := by
  obtain ⟨hoffset, hlength, hrest, hbehind⟩ := next_eq_some_iff.1 h
  rw [RawBlock.stop] at hstop
  refine next_eq_some_iff.2 ⟨hoffset, hlength, ?_, hbehind⟩
  have hframe := length_frame raw.payload
  have hcut : cut - s.offset = (frame raw.payload).length + (cut - t.offset) := by omega
  rw [upTo, hrest, hcut, List.take_append, List.take_of_length_le (Nat.le_add_right _ _),
    Nat.add_sub_cancel_left]
  rfl

theorem next_take_frame {offset present : Nat} {payload : Bytes} (hlength : payload.length < 2 ^ 63)
    (hcut : present < 8 + payload.length) :
    (next ⟨offset, (frame payload).take present⟩).1 =
      if present = 0 then .ok none
      else .error (RawBlock.truncation ⟨offset, payload⟩ (offset + present)) := by
  have htake : ((frame payload).take present).length = present := by
    rw [List.length_take_of_le]
    rw [length_frame]
    omega
  have hnil : (frame payload).take present = [] ↔ present = 0 := by
    rw [← List.length_eq_zero_iff, htake]
  simp only [next_eq, htake, hnil, RawBlock.truncation, Nat.add_sub_cancel_left,
    Nat.add_lt_add_iff_left]
  by_cases hfield : present < 8
  · simp only [hfield, if_true]
  · have hdeclared : declared ((frame payload).take present) = payload.length := by
      have hwhole := declared_frame hlength []
      rw [List.append_nil] at hwhole
      rw [← hwhole, declared, declared, List.take_take, Nat.min_eq_left (Nat.le_of_not_lt hfield)]
    have hsign : ¬(payload.length : Int) < 0 := by omega
    have hshort : (present : Int) < 8 + payload.length := by omega
    simp only [hfield, hdeclared, hsign, hshort, if_false, if_true, Int.toNat_natCast]

theorem next_upTo_of_lt_stop (h : s.next = (.ok (some raw), t)) (hcut : raw.fileOffset ≤ cut)
    (hstop : cut < raw.stop) :
    (s.upTo cut).next.1 =
      if cut = raw.fileOffset then .ok none else .error (raw.truncation cut) := by
  obtain ⟨hoffset, hlength, hrest, -⟩ := next_eq_some_iff.1 h
  obtain ⟨present, rfl⟩ := Nat.exists_eq_add_of_le hcut
  have hpresent : present < 8 + raw.payload.length := by
    rw [RawBlock.stop] at hstop
    omega
  have hupTo : s.upTo (raw.fileOffset + present) =
      ⟨raw.fileOffset, (frame raw.payload).take present⟩ := by
    rw [upTo, hrest, ← hoffset, Nat.add_sub_cancel_left, List.take_append_of_le_length]
    rw [length_frame]
    exact Nat.le_of_lt hpresent
  rw [hupTo, next_take_frame hlength hpresent]
  simp only [Nat.add_eq_left]

theorem offset_le_of_mem_remaining {s : Blocks} {raw : RawBlock} (h : raw ∈ s.remaining.1) :
    s.offset ≤ raw.fileOffset := by
  match hnext : s.next with
  | (.error e, _) => simp [remaining_of_error hnext] at h
  | (.ok none, t) => simp [remaining_of_none hnext] at h
  | (.ok (some first), t) =>
    have hlt := length_lt_of_next hnext
    obtain ⟨hoffset, -, -, hbehind⟩ := next_eq_some_iff.1 hnext
    rw [remaining_of_some hnext] at h
    rcases List.mem_cons.1 h with rfl | h
    · exact Nat.le_of_eq hoffset.symm
    · have := offset_le_of_mem_remaining h
      omega
termination_by s.rest.length

theorem eq_of_mem_remaining {s : Blocks} {a b : RawBlock} {cut : Nat} (ha : a ∈ s.remaining.1)
    (hb : b ∈ s.remaining.1) (hacut : a.fileOffset ≤ cut ∧ cut < a.stop)
    (hbcut : b.fileOffset ≤ cut ∧ cut < b.stop) : a = b := by
  match hnext : s.next with
  | (.error e, _) => simp [remaining_of_error hnext] at ha
  | (.ok none, t) => simp [remaining_of_none hnext] at ha
  | (.ok (some first), t) =>
    have hlt := length_lt_of_next hnext
    obtain ⟨hoffset, -, -, hbehind⟩ := next_eq_some_iff.1 hnext
    have hstop : t.offset = first.stop := by rw [RawBlock.stop, hoffset, hbehind]
    rw [remaining_of_some hnext] at ha hb
    rcases List.mem_cons.1 ha with rfl | ha' <;> rcases List.mem_cons.1 hb with rfl | hb'
    · rfl
    · have := offset_le_of_mem_remaining hb'
      omega
    · have := offset_le_of_mem_remaining ha'
      omega
    · exact eq_of_mem_remaining ha' hb' hacut hbcut
termination_by s.rest.length

end Blocks

section Header

variable {strict : Bool} {file text : Bytes} {opened : Opened} {cut : Nat}

theorem read_unterminated (hzero : 0 ∉ text) :
    read strict (magic ++ text) = .error .unterminatedRegions := by
  have hdrop := dropWhile_append_nonzero hzero []
  rw [List.append_nil, List.dropWhile_nil] at hdrop
  simp only [read, List.take_left, ne_eq, not_true_eq_false, if_false, List.drop_left, hdrop]

theorem length_of_read (h : read strict file = .ok opened) :
    opened.blocks.offset = opened.dataOffset ∧
      file.length = opened.dataOffset + opened.blocks.rest.length := by
  obtain ⟨hblocks, hwithin⟩ := blocks_of_read h
  rw [hblocks, Blocks.startingAt, List.length_drop]
  exact ⟨rfl, (Nat.add_sub_cancel' hwithin).symm⟩

theorem read_take_of_lt_magic (hcut : cut < magic.length) :
    read strict (file.take cut) = .error (.badMagic (file.take cut)) := by
  have hshort : (file.take cut).length < magic.length := by
    rw [List.length_take]
    omega
  have hfound : (file.take cut).take magic.length = file.take cut :=
    List.take_of_length_le (Nat.le_of_lt hshort)
  have hmagic : file.take cut ≠ magic := fun h => Nat.ne_of_lt hshort (congrArg List.length h)
  simp only [read, hfound, if_pos hmagic]

theorem read_take_of_lt_dataOffset (h : read strict file = .ok opened) (hmagic : magic.length ≤ cut)
    (hcut : cut < opened.dataOffset) : read strict (file.take cut) = .error .unterminatedRegions := by
  obtain ⟨text, rest, rfl, hzero, hlength, -⟩ := split_of_read h
  obtain ⟨present, rfl⟩ := Nat.exists_eq_add_of_le hmagic
  have hpresent : present ≤ text.length := by
    rw [Opened.dataOffset, hlength] at hcut
    omega
  rw [List.append_assoc, List.take_append, List.take_of_length_le (Nat.le_add_right _ _),
    Nat.add_sub_cancel_left, List.take_append_of_le_length hpresent]
  exact read_unterminated fun hmem => hzero (List.mem_of_mem_take hmem)

theorem read_take_of_dataOffset_le (h : read strict file = .ok opened)
    (hcut : opened.dataOffset ≤ cut) : read strict (file.take cut) = .ok (opened.upTo cut) := by
  obtain ⟨text, rest, rfl, hzero, hlength, -⟩ := split_of_read h
  have hheader : (magic ++ text ++ [0]).length = opened.dataOffset := by
    rw [Opened.dataOffset, hlength, List.length_append, List.length_append]
    rfl
  obtain ⟨present, rfl⟩ := Nat.exists_eq_add_of_le hcut
  rw [List.append_cons, ← hheader, List.take_append, List.take_of_length_le (Nat.le_add_right _ _),
    Nat.add_sub_cancel_left, ← List.append_cons, read_terminated hzero]
  rw [read_terminated hzero] at h
  cases hchars : regionText strict text with
  | error e => simp [hchars, Except.bind] at h
  | ok chars =>
    cases hregions : Region.Table.ofText? strict chars with
    | error e => simp [hchars, hregions, Except.bind, Except.map, Except.mapError] at h
    | ok regions =>
      simp only [hchars, hregions, Except.bind, Except.map, Except.mapError] at h ⊢
      obtain rfl := Except.ok.inj h
      simp only [hheader, Opened.upTo, Blocks.upTo, Opened.dataOffset, Nat.add_sub_cancel_left]

end Header

end AccessTrace.TraceFile
