import Mathlib.Data.Stream.Init
import AccessTrace.Proofs.Files.Delivery
import AccessTrace.Proofs.Summary.Storage

/-!
What is left of a summary in a file that may fail at any moment. The file holds the front of the
document, and all of it unless it refused some bytes; only the whole of it is read as a summary. But
when it refuses the last that the buffer held, the summary passes for kept.
-/

namespace AccessTrace

namespace Files

/-- A single file that answers as was laid down for it: how many bytes at most it takes, or with a
fault. -/
structure Script where
  content? : Option Bytes
  answers : Stream' (Except Fault Nat)

namespace Script

def append (bytes : Bytes) : StateM Script (Except Fault Nat) := fun script =>
  match script.content?, script.answers.head with
  | none, _ => (.error .notFound, script)
  | some content, .error fault => (.error fault, ⟨some content, script.answers.tail⟩)
  | some content, .ok most =>
    let n := min most bytes.length
    (.ok n, ⟨some (content ++ bytes.take n), script.answers.tail⟩)

instance : FileSystem (StateM Script) where
  kind _ script := (if script.content?.isSome then .ok .file else .error .notFound, script)
  read _ script := (script.content?.elim (.error .notFound) .ok, script)
  makeDirectory _ := return .error .alreadyExists
  create _ script := (.ok (), { script with content? := some [] })
  append _ := append

end Script

structure FileSystem.Shows {σ : Type} [FileSystem (StateM σ)] (path : String)
    (holds : Bytes → σ → Prop) : Prop where
  read : ∀ content machine, holds content machine →
    (FileSystem.read path : StateM σ _).run machine = (.ok content, machine)
  records : Buffer.Records (FileSystem.append path : Buffer.Sink (StateM σ)) holds

theorem Script.shows (path : String) :
    FileSystem.Shows path fun content (script : Script) => script.content? = some content where
  read := by
    rintro content ⟨content?, answers⟩ rfl
    rfl
  records := by
    rintro content bytes ⟨content?, answers⟩ rfl
    change Buffer.Takes _ content bytes (Script.append bytes ⟨some content, answers⟩)
    rw [Script.append]
    cases hanswer : Stream'.head answers with
    | error fault => exact .none rfl
    | ok most => exact .some (Nat.min_le_right _ _) rfl

theorem Script.idle_append (path : String) (content : Bytes) (fault : Fault) :
    Buffer.Idle (FileSystem.append path : Buffer.Sink (StateM Script))
      ⟨some content, Stream'.const (.error fault)⟩ :=
  fun _ => ⟨.error fault, rfl⟩

end Files

namespace Summary

open Files Host

/-- A file that was made holds the front of the document in the end, whatever it answered and
however the document was cut. -/
theorem run_saveIn_of_shows {σ : Type} [FileSystem (StateM σ)] {path : String}
    {holds : Bytes → σ → Prop} {machine asked before made : σ} (s : Summary) (pieces : List Bytes)
    (hpieces : pieces.flatten = s.encode) (hempty : path.isEmpty = false)
    (hkind : (FileSystem.hasKind .directory path : StateM σ _).run machine = (false, asked))
    (hroom : (makeRoom path : StateM σ _).run asked = (.ok (), before))
    (hcreate : (FileSystem.create path : StateM σ _).run before = (.ok (), made))
    (hmade : holds [] made) (hshows : FileSystem.Shows path holds) :
    ∃ answer held missing last,
      (saveIn pieces path : StateM σ _).run machine = (answer, last) ∧ holds held last ∧
      held ++ missing = s.encode ∧
      (missing ≠ [] → Buffer.Refuses (FileSystem.append path : Buffer.Sink (StateM σ))) ∧
      (missing = [] → answer = .ok ()) ∧
      (load path : StateM σ _).run last =
        (if missing = [] then .ok s else .error .malformed, last) ∧
      (answer = .ok () ∨ ∃ fault, answer = .error (.document fault)) ∧
      (answer = .ok () → missing.length ≤ Buffer.capacity ∧
        (missing ≠ [] → Buffer.LosesAtEnd (FileSystem.append path) pieces made missing)) ∧
      (s.encode.length < Buffer.capacity → answer = .ok ()) := by
  obtain ⟨answer, held, missing, last, hwrite, hheld, hmissing, hrefuses, hfault, hok⟩ :=
    Buffer.write_of_records hshows.records hmade pieces
  have hsave := run_saveIn hempty hkind hroom hcreate hwrite
  rw [List.nil_append, hpieces] at hmissing
  have hread := hshows.read held last hheld
  refine ⟨_, held, missing, last, hsave, hheld, hmissing, hrefuses, ?_, ?_, ?_, ?_, ?_⟩
  · rintro rfl
    cases answer with
    | error fault => exact absurd rfl (hfault fault rfl)
    | ok => rfl
  · split
    · rename_i hwhole
      rw [hwhole, List.append_nil] at hmissing
      exact load_of_read (hmissing ▸ hread)
    · rename_i hcut
      exact load_of_read_cut hread hmissing hcut
  · cases answer with
    | error fault => exact .inr ⟨fault, rfl⟩
    | ok => exact .inl rfl
  · intro hanswer
    exact hok (mapError_eq_ok.1 hanswer)
  · intro hfits
    have hanswer := Buffer.write_of_fits (FileSystem.append path : Buffer.Sink (StateM σ)) made
      (hpieces ▸ hfits)
    obtain rfl : answer = .ok () := by rwa [hwrite] at hanswer
    rfl

/-- The disk is full, and the document so short that it only shows when nobody looks any more. -/
theorem run_saveIn_of_shows_full :
    let full : Stream' (Except Fault Nat) := .const (.error .noSpace)
    untidy.pieces.flatten = untidy.encode ∧
      (untidy.save "s.json" : StateM Script _).run ⟨none, full⟩ = (.ok (), ⟨some [], full⟩) ∧
      Buffer.LosesAtEnd (FileSystem.append "s.json" : Buffer.Sink (StateM Script)) untidy.pieces
        ⟨some [], full⟩ untidy.encode ∧
      (load "s.json" : StateM Script _).run ⟨some [], full⟩ =
        (.error .malformed, ⟨some [], full⟩) := by
  intro full
  have hpieces := flatten_pieces untidy
  have hempty : "s.json".isEmpty = false := rfl
  have hkind : (FileSystem.hasKind .directory "s.json" : StateM Script _).run ⟨none, full⟩ =
      (false, ⟨none, full⟩) := rfl
  obtain ⟨answer, held, missing, last, hsave, hheld, hmissing, -, -, hload, -, hok, hfits⟩ :=
    run_saveIn_of_shows untidy untidy.pieces hpieces hempty hkind rfl rfl rfl (Script.shows "s.json")
  obtain rfl := hfits (by decide +kernel)
  obtain ⟨answer, hwrite⟩ :=
    Buffer.write_of_idle (Script.idle_append "s.json" [] .noSpace) untidy.pieces
  have hlast := run_saveIn hempty hkind rfl rfl hwrite
  obtain ⟨-, rfl⟩ := Prod.mk.inj (hsave.symm.trans hlast)
  obtain rfl : [] = held := Option.some.inj hheld
  rw [List.nil_append] at hmissing
  subst hmissing
  have hcut : untidy.encode ≠ [] := by decide +kernel
  rw [if_neg hcut] at hload
  exact ⟨hpieces, hsave, (hok rfl).2 hcut, hload⟩

/-- A device without any room passes for a file that the summary was kept in. -/
theorem not_load_of_save_full :
    let full : Model :=
      ⟨⟨.directory [("dev", .directory [("full", .device [0] (some .noSpace))])], []⟩,
        ⟨[], ⟨none, false⟩⟩, "", ""⟩
    (FileSystem.append "/dev/full" [0] : StateM Model _).run full = (.error .noSpace, full) ∧
      (untidy.save "/dev/full" : StateM Model _).run full = (.ok (), full) ∧
      (load "/dev/full" : StateM Model _).run full = (.error .malformed, full) := by
  intro full
  refine ⟨rfl, ?_, ?_⟩
  · have hdevice : full.files.DeviceAt "/dev/full" := ⟨_, _, _, rfl⟩
    have hfits : untidy.pieces.flatten.length < Buffer.capacity := by
      rw [flatten_pieces]
      decide +kernel
    have hwritten := Buffer.write_of_fits (FileSystem.append "/dev/full") full hfits
    obtain ⟨answer, hwrite⟩ := Buffer.write_of_idle (idle_append hdevice) untidy.pieces
    obtain rfl : answer = .ok () := by rwa [hwrite] at hwritten
    exact run_saveIn rfl rfl rfl rfl hwrite
  · have hread : (FileSystem.read "/dev/full" : StateM Model _).run full = (.ok [0], full) := rfl
    have hnone : decode? [0] = none := by
      rw [← Option.isNone_iff_eq_none]
      decide +kernel
    rw [load, run_bind_of_run hread]
    simp only [hnone]
    rfl

end Summary

end AccessTrace
