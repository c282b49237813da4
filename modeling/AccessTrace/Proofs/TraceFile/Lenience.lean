import AccessTrace.Proofs.Region.Lenience
import AccessTrace.Proofs.TraceFile.Header

/-!
Strict and lenient opening side by side. They differ only in what they make of a region text that is
not UTF-8 or has a bad line: strict opening refuses the file, and lenient opening reads the lines
that are left when the text is repaired.
-/

namespace AccessTrace.TraceFile

open Region (legible FirstIllegible)

def regionBytes (file : Bytes) : Bytes :=
  (file.drop magic.length).takeWhile (· ≠ 0)

/-- The lines of the region text, with a replacement character for each broken sequence. -/
def regionLines (file : Bytes) : List (List Char) :=
  Text.splitOn '\n' (Text.Utf8.repair (regionBytes file))

inductive Error.Shared : Error → Prop
  | badMagic (found : Bytes) : Shared (.badMagic found)
  | unterminatedRegions : Shared .unterminatedRegions
  | disorder (d : Region.Disorder) : Shared (.regions (.disorder d))

inductive Error.Forgiven : Error → Prop
  | regionsNotUtf8 (e : Text.Utf8.Error) : Forgiven (.regionsNotUtf8 e)
  | line (number : Nat) (text : String) (fault : Region.LineFault) :
    Forgiven (.regions (.line number text fault))

/-- How the two ways of opening a file belong together. -/
structure Agree (file : Bytes) : Prop where
  opened : ∀ o, read true file = .ok o → read false file = .ok o
  shared : ∀ e, e.Shared → read true file = .error e → read false file = .error e
  forgiven : ∀ e, e.Forgiven → read true file = .error e →
    (read false file).map Opened.regions =
      (Region.Table.ofList (legible (regionLines file))).mapError fun d => .regions (.disorder d)
  numbered : ∀ number text fault, read true file = .error (.regions (.line number text fault)) →
    ∃ index line, FirstIllegible (regionLines file) index line fault ∧ number = index + 1 ∧
      text = String.ofList line
  complete : ∀ e, read true file = .error e → e.Shared ∨ e.Forgiven
  lenient : ∀ e, read false file = .error e → ¬ e.Forgiven

variable {file text : Bytes}

theorem Error.Shared.not_forgiven {e : Error} (h : e.Shared) : ¬ e.Forgiven := by
  rintro ⟨⟩ <;> cases h

theorem Agree.of_eq (h : read true file = read false file)
    (hshared : ∀ e, read false file = .error e → e.Shared) : Agree file := by
  have hforgiven : ∀ e, read true file = .error e → ¬ e.Forgiven := fun e he =>
    (hshared e (h ▸ he)).not_forgiven
  constructor
  case opened => exact fun o ho => h ▸ ho
  case shared => exact fun e _ he => h ▸ he
  case forgiven => exact fun e hf he => absurd hf (hforgiven e he)
  case numbered => exact fun _ _ _ he => absurd (.line _ _ _) (hforgiven _ he)
  case complete => exact fun e he => .inl (hshared e (h ▸ he))
  case lenient => exact fun e he => (hshared e he).not_forgiven

theorem shared_of_lenient {e : Error} {table : Except Region.Disorder Region.Table}
    (h : (read false file).map Opened.regions = table.mapError fun d => .regions (.disorder d))
    (he : read false file = .error e) : e.Shared := by
  rw [he] at h
  cases table with
  | error d =>
    obtain rfl := Except.error.inj h
    exact .disorder d
  | ok t => contradiction

theorem Agree.of_forgiven {e : Error} (h : read true file = .error e) (hforgiven : e.Forgiven)
    (hlenient : (read false file).map Opened.regions =
      (Region.Table.ofList (legible (regionLines file))).mapError fun d => .regions (.disorder d))
    (hnumbered : ∀ number text fault, e = .regions (.line number text fault) →
      ∃ index line, FirstIllegible (regionLines file) index line fault ∧ number = index + 1 ∧
        text = String.ofList line) : Agree file := by
  have hsame : ∀ e', read true file = .error e' → e = e' := fun e' he =>
    Except.error.inj (h.symm.trans he)
  constructor
  case opened => exact fun o ho => by simp [h] at ho
  case shared => exact fun e' hs he => absurd (hsame e' he ▸ hforgiven) hs.not_forgiven
  case forgiven => exact fun _ _ _ => hlenient
  case numbered => exact fun number text fault he => hnumbered number text fault (hsame _ he)
  case complete => exact fun e' he => .inr (hsame e' he ▸ hforgiven)
  case lenient => exact fun e' he => (shared_of_lenient hlenient he).not_forgiven

section Terminated

variable (hzero : 0 ∉ text) (rest : Bytes)
include hzero

theorem regionBytes_eq : regionBytes (magic ++ text ++ 0 :: rest) = text := by
  rw [regionBytes, List.append_assoc, List.drop_left]
  exact (takeWhile_append_nonzero hzero _).trans (List.append_nil text)

theorem read_lenient :
    (read false (magic ++ text ++ 0 :: rest)).map Opened.regions =
      (Region.Table.ofList (legible (regionLines (magic ++ text ++ 0 :: rest)))).mapError
        fun d => .regions (.disorder d) := by
  rw [read_terminated hzero, regionText, if_neg Bool.false_ne_true, Except.bind,
    Region.Table.ofText?_lenient, regionLines, regionBytes_eq hzero]
  cases Region.Table.ofList _ <;> rfl

theorem read_strict_cases :
    read true (magic ++ text ++ 0 :: rest) = read false (magic ++ text ++ 0 :: rest) ∨
    (∃ e, read true (magic ++ text ++ 0 :: rest) = .error (.regionsNotUtf8 e)) ∨
    ∃ index line fault,
      FirstIllegible (regionLines (magic ++ text ++ 0 :: rest)) index line fault ∧
      read true (magic ++ text ++ 0 :: rest) =
        .error (.regions (.line (index + 1) (String.ofList line) fault)) := by
  rw [read_terminated hzero, read_terminated hzero, regionText, regionText, if_pos rfl,
    if_neg Bool.false_ne_true, regionLines, regionBytes_eq hzero]
  cases hchars : Text.Utf8.decode text with
  | error e => exact .inr (.inl ⟨e, rfl⟩)
  | ok chars =>
    rw [Text.Utf8.repair_of_decode hchars]
    rcases Region.Table.ofText?_strict_cases chars with
      hsame | ⟨index, line, fault, hfirst, herror⟩
    · left
      simp only [Except.mapError, Except.bind, hsame]
    · exact .inr (.inr ⟨index, line, fault, hfirst, by
        simp only [Except.mapError, Except.bind, herror, Except.map]⟩)

end Terminated

/-- Whatever strict opening makes of a file, lenient opening does the same, or passes over the fault
and reads the lines that are left. -/
theorem strict_lenient_agree (file : Bytes) : Agree file := by
  rcases read_cases file with ⟨found, hread⟩ | hread | ⟨text, rest, rfl, hzero⟩
  · refine .of_eq (by rw [hread, hread]) fun e he => ?_
    obtain rfl := Except.error.inj ((hread false).symm.trans he)
    exact .badMagic found
  · refine .of_eq (by rw [hread, hread]) fun e he => ?_
    obtain rfl := Except.error.inj ((hread false).symm.trans he)
    exact .unterminatedRegions
  · have hlenient := read_lenient hzero rest
    rcases read_strict_cases hzero rest with
      hsame | ⟨e, hstrict⟩ | ⟨index, line, fault, hfirst, hstrict⟩
    · exact .of_eq hsame fun e he => shared_of_lenient hlenient he
    · exact .of_forgiven hstrict (.regionsNotUtf8 e) hlenient fun _ _ _ he => by contradiction
    · refine .of_forgiven hstrict (.line _ _ _) hlenient fun number text' fault' he => ?_
      obtain ⟨rfl, rfl, rfl⟩ := Region.TableError.line.inj (Error.regions.inj he)
      exact ⟨index, line, hfirst, rfl, rfl⟩

/-- Without the bad line between them, the regions that are left are out of order. -/
example :
    let file := magic ++ Text.Utf8.encode "2-3 r 0 0 0\n\nbad\n1-2 r 0 0 0".toList ++ [0]
    [true, false].map (fun strict => (read strict file).map Opened.dataOffset) =
      [.error (.regions (.line 3 "bad" .missingFields)),
        .error (.regions (.disorder ⟨1, 1, 3⟩))] := by
  decide +kernel

end AccessTrace.TraceFile
