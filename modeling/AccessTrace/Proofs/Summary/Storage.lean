import AccessTrace.Host.Model
import AccessTrace.Proofs.Files.Buffer
import AccessTrace.Proofs.Files.Tree
import AccessTrace.Proofs.Summary.Document
import AccessTrace.Summary.Storage

/-!
A summary that was kept in a file is taken from it again.
-/

namespace AccessTrace.Summary

open Files Host

section Steps

variable {σ : Type} [FileSystem (StateM σ)] {path : String} {pieces : List Bytes}
  {machine asked before made last : σ} {answer : Except Fault Unit} {s : Summary}

theorem run_saveIn (hempty : path.isEmpty = false)
    (hkind : (FileSystem.hasKind .directory path : StateM σ _).run machine = (false, asked))
    (hroom : (makeRoom path : StateM σ _).run asked = (.ok (), before))
    (hcreate : (FileSystem.create path : StateM σ _).run before = (.ok (), made))
    (hwrite : (Buffer.write (FileSystem.append path) pieces : StateM σ _).run made =
      (answer, last)) :
    (saveIn pieces path : StateM σ _).run machine = (answer.mapError .document, last) := by
  rw [saveIn, hempty, if_neg Bool.false_ne_true, run_bind_of_run hkind, if_neg Bool.false_ne_true,
    run_bind_of_run hroom]
  simp only
  rw [run_bind_of_run hcreate]
  simp only
  rw [run_bind_of_run hwrite]
  rfl

theorem load_of_read
    (hread : (FileSystem.read path : StateM σ _).run machine = (.ok s.encode, machine)) :
    (load path : StateM σ _).run machine = (.ok s, machine) := by
  rw [load, run_bind_of_run hread]
  simp only [decode?_encode]
  rfl

theorem load_of_read_cut {held missing : Bytes}
    (hread : (FileSystem.read path : StateM σ _).run machine = (.ok held, machine))
    (h : held ++ missing = s.encode) (hmissing : missing ≠ []) :
    (load path : StateM σ _).run machine = (.error .malformed, machine) := by
  rw [load, run_bind_of_run hread]
  simp only [decode?_of_cut h hmissing]
  rfl

end Steps

section File

variable {path : String} {machine machine' : Model}

theorem accepts_append (path : String) :
    Buffer.Accepts (FileSystem.append path : Buffer.Sink (StateM Model))
      fun content machine => machine.files.HoldsAt path content := by
  intro content bytes machine h
  obtain ⟨files, happend, hholds⟩ := Tree.exists_append h bytes
  refine ⟨{ machine with files }, ?_, hholds⟩
  change Model.change bytes.length (·.append path bytes) machine = _
  rw [Model.change, happend]

theorem idle_append (h : machine.files.DeviceAt path) :
    Buffer.Idle (FileSystem.append path) machine := by
  intro bytes
  change ∃ answer, Model.change bytes.length (·.append path bytes) machine = (answer, machine)
  rcases Tree.append_device h bytes with happend | ⟨fault, happend⟩
  · exact ⟨_, by rw [Model.change, happend]⟩
  · exact ⟨_, by rw [Model.change, happend]⟩

theorem holdsAt_of_create
    (h : (FileSystem.create path : StateM Model _).run machine = (.ok (), machine')) :
    machine'.files.HoldsAt path [] ∨ machine'.files.DeviceAt path := by
  change Model.change () (·.create path) machine = _ at h
  rw [Model.change] at h
  split at h
  · rename_i files hcreate
    obtain rfl := (Prod.mk.inj h).2
    rcases Tree.holdsAt_of_create hcreate with hholds | ⟨rfl, hdevice⟩
    · exact .inl hholds
    · exact .inr hdevice
  · cases (Prod.mk.inj h).1

theorem exists_create_of_save {s : Summary}
    (h : (s.save path : StateM Model _).run machine = (.ok (), machine')) :
    ∃ before made, (FileSystem.create path : StateM Model _).run before = (.ok (), made) ∧
      (Buffer.write (FileSystem.append path) s.pieces : StateM Model _).run made =
        (.ok (), machine') := by
  unfold save saveIn at h
  split at h
  · cases (Prod.mk.inj h).1
  · obtain ⟨isDirectory, _, -, h⟩ := exists_of_run_bind h
    split at h
    · cases (Prod.mk.inj h).1
    · obtain ⟨room, before, -, h⟩ := exists_of_run_bind h
      split at h
      · cases (Prod.mk.inj h).1
      · obtain ⟨answer, made, hmade, h⟩ := exists_of_run_bind h
        split at h
        · cases (Prod.mk.inj h).1
        · obtain ⟨answer, after, hwritten, h⟩ := exists_of_run_bind h
          obtain ⟨hanswer, rfl⟩ := Prod.mk.inj h
          exact ⟨before, made, hmade, mapError_eq_ok.1 hanswer ▸ hwritten⟩

theorem holdsAt_of_save {s : Summary}
    (h : (s.save path : StateM Model _).run machine = (.ok (), machine'))
    (hfile : machine'.files.kind path = .ok .file) : machine'.files.HoldsAt path s.encode := by
  obtain ⟨before, made, hcreate, hwrite⟩ := exists_create_of_save h
  rcases holdsAt_of_create hcreate with hholds | hdevice
  · obtain ⟨after, hwrite', hafter⟩ := Buffer.write_of_accepts (accepts_append path) hholds s.pieces
    obtain ⟨-, rfl⟩ := Prod.mk.inj (hwrite.symm.trans hwrite')
    rw [List.nil_append, flatten_pieces] at hafter
    exact hafter
  · obtain ⟨answer, hwrite'⟩ := Buffer.write_of_idle (idle_append hdevice) s.pieces
    obtain ⟨-, rfl⟩ := Prod.mk.inj (hwrite.symm.trans hwrite')
    rw [hdevice.kind_eq] at hfile
    cases hfile

theorem exists_run_save (s : Summary) {before made : Model} (hempty : path.isEmpty = false)
    (hkind : (FileSystem.hasKind .directory path : StateM Model _).run machine = (false, machine))
    (hroom : (makeRoom path : StateM Model _).run machine = (.ok (), before))
    (hcreate : (FileSystem.create path : StateM Model _).run before = (.ok (), made))
    (hholds : made.files.HoldsAt path []) :
    ∃ machine', (s.save path : StateM Model _).run machine = (.ok (), machine') ∧
      machine'.files.HoldsAt path s.encode := by
  obtain ⟨machine', hwrite, hafter⟩ :=
    Buffer.write_of_accepts (accepts_append path) hholds s.pieces
  rw [List.nil_append, flatten_pieces] at hafter
  exact ⟨machine', run_saveIn hempty hkind hroom hcreate hwrite, hafter⟩

theorem load_of_holdsAt {s : Summary} (h : machine.files.HoldsAt path s.encode) :
    (load path : StateM Model _).run machine = (.ok s, machine) := by
  have hread : (FileSystem.read path : StateM Model _).run machine = (.ok s.encode, machine) := by
    change Model.look (·.read path) machine = _
    rw [Model.look, h.read_eq]
  exact load_of_read hread

end File

/-- A summary is read back as it was: from its text, from the bytes of its document, and from any
file that it was kept in. -/
theorem read_of_written (s : Summary) :
    (Json.Value.ofText? s.text).bind ofJson? = some s ∧ decode? s.encode = some s ∧
      ∀ (path : String) (machine machine' : Model),
        (s.save path : StateM Model _).run machine = (.ok (), machine') →
          machine'.files.kind path = .ok .file →
            machine'.files.read path = .ok s.encode ∧
              (load path : StateM Model _).run machine' = (.ok s, machine') := by
  refine ⟨s.ofText?_text, s.decode?_encode, fun path machine machine' hsave hfile => ?_⟩
  have hholds := holdsAt_of_save hsave hfile
  exact ⟨hholds.read_eq, load_of_holdsAt hholds⟩

/-- Strings with every kind of escape, words up to the last, and a region without a path. -/
def untidy : Summary where
  version := ""
  trace := "a\"b\\c\n\x01é😀"
  pageSize := 4096
  chunkCount := 1
  totalRecords := 0xffffffffffffffff
  counts := ⟨0, 9, 10, 0xfffffffffffffffe, 0xffffffffffffffff⟩
  activePages := 0
  quietPages := 1
  touchedRegions := [⟨0, 0x1000, 0x2000, "r-xp", ""⟩, ⟨1, 0x2000, 0x3000, "", "/bin/\x1f"⟩]
  openFrames := ["", "\t\x7f"]
  chunks := [⟨0, 1, 2, 3, 4, 5, 6, 7, 8⟩]
  generatedAt := "\x00"

theorem read_of_written_untidy :
    ∃ machine', (untidy.save "s.json" : StateM Model _).run ⟨.empty, ⟨[], ⟨none, false⟩⟩, "", ""⟩ =
        (.ok (), machine') ∧
      machine'.files.kind "s.json" = .ok .file ∧
      machine'.files.read "s.json" = .ok untidy.encode ∧
      (load "s.json" : StateM Model _).run machine' = (.ok untidy, machine') := by
  have hempty : "s.json".isEmpty = false := rfl
  have hkind : (FileSystem.hasKind .directory "s.json" : StateM Model _).run
      ⟨.empty, ⟨[], ⟨none, false⟩⟩, "", ""⟩ =
        (false, ⟨.empty, ⟨[], ⟨none, false⟩⟩, "", ""⟩) := rfl
  obtain ⟨machine', hsave, hholds⟩ := exists_run_save untidy hempty hkind rfl rfl ⟨_, rfl⟩
  obtain ⟨-, -, hload⟩ := read_of_written untidy
  exact ⟨machine', hsave, hholds.kind_eq, hload "s.json" _ machine' hsave hholds.kind_eq⟩

end AccessTrace.Summary
