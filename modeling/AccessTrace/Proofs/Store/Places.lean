import Mathlib.Data.List.Permutation
import Mathlib.Data.Prod.Lex
import Mathlib.Order.Fin.Basic
import Mathlib.Order.Hom.Set
import AccessTrace.Proofs.Store.Position

/-!
Positions and places. The positions of a store number the places of its chunks in order and without
a gap; an empty chunk has no place, and so none of the positions at which it begins is its own.
-/

namespace AccessTrace.Store

variable {s : Store} {c d : Chunk} {position later index behind place next first : Nat}

/-- A chunk of a store and a place in it, in the order of the trace. -/
abbrev Place (s : Store) : Type :=
  { place : ℕ ×ₗ ℕ // ∃ c, s.chunk? (ofLex place).1 = some c ∧ (ofLex place).2 < c.recordCount }

theorem split_of_chunk? (hc : s.chunk? index = some c) :
    index < s.chunks.toList.length ∧
      s.chunks.toList = s.chunks.toList.take index ++ c :: s.chunks.toList.drop (index + 1) := by
  rw [chunk?_eq] at hc
  obtain ⟨hindex, rfl⟩ := List.getElem?_eq_some_iff.1 hc
  rw [← List.drop_eq_getElem_cons hindex, List.take_append_drop]
  exact ⟨hindex, rfl⟩

section Consecutive

variable (consecutive : Chunk.Consecutive first s.chunks.toList)

include consecutive

theorem le_firstRecord_of_lt (hc : s.chunk? index = some c) (hd : s.chunk? behind = some d)
    (hlt : index < behind) : c.firstRecord + c.recordCount ≤ d.firstRecord := by
  rw [(split_of_chunk? hc).2] at consecutive
  rw [chunk?_eq] at hd
  refine consecutive.split.2 d (List.mem_of_getElem? (i := behind - (index + 1)) ?_)
  rwa [List.getElem?_drop, Nat.add_sub_cancel' hlt]

theorem locate_eq_some_iff : s.locate position = some (index, place) ↔
    ∃ c, s.chunk? index = some c ∧ position = c.firstRecord + place ∧ place < c.recordCount := by
  refine ⟨eq_add_of_locate, ?_⟩
  rintro ⟨c, hc, rfl, hplace⟩
  obtain ⟨hindex, hsplit⟩ := split_of_chunk? hc
  have hlocate := locate_of_split hsplit consecutive hplace
  rwa [List.length_take, Nat.min_eq_left (Nat.le_of_lt hindex)] at hlocate

theorem contains_iff (hc : s.chunk? index = some c) :
    c.contains position = true ↔ ∃ place, s.locate position = some (index, place) := by
  simp only [locate_eq_some_iff consecutive, hc, Option.some.injEq, exists_eq_left']
  simp only [Chunk.contains, Bool.and_eq_true, decide_eq_true_eq]
  constructor
  · rintro ⟨hle, hlt⟩
    exact ⟨position - c.firstRecord, (Nat.add_sub_cancel' hle).symm, hlt⟩
  · rintro ⟨place, rfl, hlt⟩
    exact ⟨Nat.le_add_right _ _, by rwa [Nat.add_sub_cancel_left]⟩

theorem place_lt (hplace : s.locate position = some (index, place))
    (hnext : s.locate later = some (behind, next)) (hlt : position < later) :
    index < behind ∨ index = behind ∧ place < next := by
  obtain ⟨c, hc, hposition, hplace⟩ := eq_add_of_locate hplace
  obtain ⟨d, hd, hlater, hnext⟩ := eq_add_of_locate hnext
  rcases Nat.lt_trichotomy index behind with hfront | rfl | hback
  · exact .inl hfront
  · obtain rfl := Option.some.inj (hc.symm.trans hd)
    exact .inr ⟨rfl, by omega⟩
  · have hle := le_firstRecord_of_lt consecutive hd hc hback
    omega

theorem exists_order (hevery : ∀ position < s.totalRecords, (s.locate position).isSome) :
    ∃ order : Fin s.totalRecords ≃o s.Place,
      ∀ position : Fin s.totalRecords, s.locate position = some (ofLex (order position).1) := by
  have hplace (position : Fin s.totalRecords) :
      ∃ place : s.Place, s.locate position = some (ofLex place.1) := by
    obtain ⟨⟨index, place⟩, hlocate⟩ := Option.isSome_iff_exists.1 (hevery position position.2)
    obtain ⟨c, hc, -, hlt⟩ := eq_add_of_locate hlocate
    exact ⟨⟨toLex (index, place), c, hc, hlt⟩, hlocate⟩
  choose order horder using hplace
  have hmono : StrictMono order := by
    intro a b hlt
    exact Prod.Lex.lt_iff.2 (place_lt consecutive (horder a) (horder b) hlt)
  have hsurjective : Function.Surjective order := by
    rintro ⟨place, c, hc, hlt⟩
    have hmem : c ∈ s.chunks.toList := by
      rw [chunk?_eq] at hc
      exact List.mem_of_getElem? hc
    have hle := le_totalRecords consecutive c hmem
    have hlocate := (locate_eq_some_iff consecutive).2 ⟨c, hc, rfl, hlt⟩
    refine ⟨⟨c.firstRecord + (ofLex place).2, by omega⟩, Subtype.ext ?_⟩
    exact ofLex.injective (Option.some.inj ((horder _).symm.trans hlocate))
  exact ⟨hmono.orderIsoOfSurjective _ hsurjective, horder⟩

end Consecutive

theorem isSome_locate_of_run {p last : Processor} {batches : List Batch} {chunks : List Chunk}
    (hrun : p.Run batches chunks last) (hrecord : p.nextRecord = 0)
    (hchunks : s.chunks.toList = chunks) (h : position < s.totalRecords) :
    (s.locate position).isSome := by
  rw [totalRecords_eq_length hrun hrecord hchunks] at h
  obtain ⟨front, batch, rest, place, rfl, rfl, hplace⟩ := Batch.exists_split_of_lt h
  obtain ⟨-, -, -, -, -, -, -, hlocate⟩ := chunk_of_run hrun hrecord hchunks
  rw [hlocate place hplace, Option.isSome_some]

/-- The positions of a store and the places of its chunks, whichever batches are refused or
empty. -/
theorem places_of_feed (pages : PageConfig) (retainDetail rereads : Bool) (regions : Region.Table)
    (hydratedLimit : Nat) (batches : List Batch) :
    let s := (Store.start regions rereads hydratedLimit).appendAll
      ((Processor.start pages retainDetail regions).feed batches).1
    (∃ order : Fin s.totalRecords ≃o s.Place,
      ∀ position : Fin s.totalRecords, s.locate position = some (ofLex (order position).1)) ∧
    (∀ position, s.totalRecords ≤ position → s.locate position = none) ∧
    ∀ index c, s.chunk? index = some c →
      (∀ position place, s.locate position = some (index, place) →
        position = c.firstRecord + place) ∧
      ∀ position, c.contains position = true ↔ ∃ place, s.locate position = some (index, place) := by
  intro s
  have hrun := Processor.run_taken (Processor.start pages retainDetail regions) batches
  have hchunks : s.chunks.toList =
      ((Processor.start pages retainDetail regions).feed batches).1 :=
    toList_chunks_appendAll _ _
  have hconsecutive : Chunk.Consecutive 0 s.chunks.toList := by
    rw [hchunks]
    exact Chunk.consecutive_of_run hrun
  refine ⟨?_, ?_, fun index c hc => ⟨?_, ?_⟩⟩
  · exact exists_order hconsecutive fun position => isSome_locate_of_run hrun rfl hchunks
  · exact fun position => locate_eq_none hconsecutive
  · intro position place hlocate
    obtain ⟨d, hd, hposition, -⟩ := eq_add_of_locate hlocate
    rwa [Option.some.inj (hc.symm.trans hd)]
  · exact fun position => contains_iff hconsecutive hc

/-- Between empty chunks: position one lies in the fourth chunk and not in the third, which begins
there as well, and position three is past the last. -/
theorem places_of_feed_between_empty :
    let s := (Store.start .empty true 4).appendAll ((Processor.start {} false .empty).feed
      [⟨9, []⟩, ⟨17, [.enter 7]⟩, ⟨34, []⟩, ⟨42, [.exit 7, .enter 8]⟩, ⟨68, []⟩]).1
    (∃ place, s.locate 1 = some (3, place)) ∧ (¬∃ place, s.locate 1 = some (2, place)) ∧
      s.totalRecords ≤ 3 ∧ s.locate 3 = none := by
  intro s
  obtain ⟨-, hpast, hchunks⟩ := places_of_feed {} false true .empty 4
    [⟨9, []⟩, ⟨17, [.enter 7]⟩, ⟨34, []⟩, ⟨42, [.exit 7, .enter 8]⟩, ⟨68, []⟩]
  have hholds : (s.chunk? 3).map (fun c => c.contains 1) = some true := by cbv
  have hempty : (s.chunk? 2).map (fun c => c.contains 1) = some false := by cbv
  have htotal : s.totalRecords ≤ 3 := by cbv
  obtain ⟨c, hc, hcontains⟩ := Option.map_eq_some_iff.1 hholds
  obtain ⟨d, hd, hnot⟩ := Option.map_eq_some_iff.1 hempty
  refine ⟨((hchunks 3 c hc).2 1).1 hcontains, fun hlocate => ?_, htotal, hpast 3 htotal⟩
  exact Bool.false_ne_true (hnot.symm.trans (((hchunks 2 d hd).2 1).2 hlocate))

end AccessTrace.Store
