import Mathlib.Tactic.SplitIfs
import AccessTrace.Files.Tree
import AccessTrace.Proofs.Computation

/-!
What a change at one place does to a tree of files. Directories elsewhere stay directories, so the
path that led to the place still does, and what was put there is found.
-/

namespace AccessTrace.Files

namespace Members

variable {members : Members} {name other : String} {e : Entry}

theorem lookup_insert_self : (insert members name e).lookup name = some e :=
  List.lookup_cons_self

theorem lookup_erase_of_ne (h : other ≠ name) :
    (erase members name).lookup other = members.lookup other := by
  induction members with
  | nil => rfl
  | cons m members ih =>
    obtain ⟨key, e⟩ := m
    unfold erase at ih ⊢
    by_cases hkey : key = name
    · have hother : (other == key) = false := beq_false_of_ne (hkey ▸ h)
      rw [List.filter_cons_of_neg (by simpa using hkey), ih, List.lookup_cons, hother]
    · rw [List.filter_cons_of_pos (by simpa using hkey), List.lookup_cons, List.lookup_cons, ih]

theorem lookup_insert_of_ne (h : other ≠ name) :
    (insert members name e).lookup other = members.lookup other := by
  rw [insert, List.lookup_cons, beq_false_of_ne h, lookup_erase_of_ne h]

end Members

namespace Entry

/-- What stands under an entry behind some names, the last name first. -/
def at? (root : Entry) : List String → Option Entry
  | [] => some root
  | name :: above =>
    match at? root above with
    | some (.directory members) => members.lookup name
    | _ => none

variable {root : Entry} {members : Members} {above below : List String}

theorem at?_append (root : Entry) (below above : List String) :
    root.at? (below ++ above) = (root.at? above).bind fun e => e.at? below := by
  induction below with
  | nil =>
    rw [List.nil_append]
    cases root.at? above <;> rfl
  | cons name below ih =>
    rw [List.cons_append, at?, ih]
    cases root.at? above <;> rfl

theorem exists_members_of_at? (h : root.at? below = some (.directory members)) :
    ∃ members', root = .directory members' := by
  induction below generalizing members with
  | nil => exact ⟨members, Option.some.inj h⟩
  | cons name below ih =>
    rw [at?] at h
    split at h
    · rename_i hdirectory
      exact ih hdirectory
    · contradiction

end Entry

namespace Place

def names (p : Place) : List String :=
  p.trail.map Prod.fst

/-- The places in a tree: the members kept on the way are those of the tree. -/
inductive Reached (root : Entry) : Place → Prop
  | root : Reached root ⟨[], some root⟩
  | enter {trail : List (String × Members)} {members : Members} (name : String)
    (h : Reached root ⟨trail, some (.directory members)⟩) :
    Reached root ⟨(name, members) :: trail, members.lookup name⟩

section Enter

variable {root : Entry} {p q : Place} {name : String} {members : Members}

theorem Reached.entry?_eq (h : Reached root p) : p.entry? = root.at? p.names := by
  induction h with
  | root => rfl
  | @enter trail members name h ih =>
    have habove : root.at? (trail.map Prod.fst) = some (.directory members) := ih.symm
    rw [names, List.map_cons, Entry.at?, habove]

theorem Reached.parent (h : Reached root p) : Reached root p.parent := by
  cases h with
  | root => exact .root
  | enter name h => exact h

theorem names_parent (p : Place) : p.parent.names = p.names.tail := by
  obtain ⟨trail, e⟩ := p
  cases trail <;> rfl

theorem exists_members_of_enter (h : p.enter name = .ok q) :
    ∃ members, p.entry? = some (.directory members) := by
  unfold enter Place.members at h
  split at h
  · contradiction
  · exact ⟨_, ‹_›⟩
  · contradiction

theorem enter_eq (h : p.entry? = some (.directory members)) (name : String) :
    p.enter name =
      if name = "." then .ok p
      else if name = ".." then .ok p.parent
      else if maxNameLength < name.utf8ByteSize then .error .nameTooLong
      else .ok ⟨(name, members) :: p.trail, members.lookup name⟩ := by
  simp only [enter, Place.members, h]
  rfl

theorem Reached.of_enter (hp : Reached root p) (h : p.enter name = .ok q) : Reached root q := by
  obtain ⟨members, hdirectory⟩ := exists_members_of_enter h
  rw [enter_eq hdirectory] at h
  split_ifs at h
  · exact Except.ok.inj h ▸ hp
  · exact Except.ok.inj h ▸ hp.parent
  · obtain ⟨trail, e⟩ := p
    obtain rfl : e = _ := hdirectory
    exact Except.ok.inj h ▸ .enter name hp

theorem Reached.of_walk {text : List String} (hp : Reached root p) (h : p.walk text = .ok q) :
    Reached root q := by
  induction text generalizing p with
  | nil => exact Except.ok.inj h ▸ hp
  | cons name text ih =>
    rw [walk, List.foldlM_cons] at h
    obtain ⟨p', hstep, h⟩ := exists_of_bind_eq_ok h
    exact ih (hp.of_enter hstep) h

end Enter

section Put

variable {root e : Entry} {p q q' r : Place} {members : Members} {names : List String}

theorem Reached.at?_put_self (h : Reached root p) (e : Entry) : (p.put e).at? p.names = some e := by
  induction h generalizing e with
  | root => rfl
  | @enter trail members name h ih =>
    have hput : Entry.at? (Place.put ⟨(name, members) :: trail, members.lookup name⟩ e)
        (trail.map Prod.fst) = some (.directory (members.insert name e)) := ih _
    rw [Place.names, List.map_cons, Entry.at?, hput]
    exact Members.lookup_insert_self

theorem Reached.exists_members_put (h : Reached root p) (e : Entry) (hnames : ¬p.names <:+ names)
    (hdirectory : root.at? names = some (.directory members)) :
    ∃ members', (p.put e).at? names = some (.directory members') := by
  induction h generalizing e with
  | root => exact absurd (List.nil_suffix) hnames
  | @enter trail members₀ name h ih =>
    by_cases habove : trail.map Prod.fst <:+ names
    · obtain ⟨below, rfl⟩ := habove
      have hput : Entry.at? (Place.put ⟨(name, members₀) :: trail, members₀.lookup name⟩ e)
          (trail.map Prod.fst) = some (.directory (members₀.insert name e)) := h.at?_put_self _
      have hroot : root.at? (trail.map Prod.fst) = some (.directory members₀) := h.entry?_eq.symm
      rw [Entry.at?_append, hroot, Option.bind_some] at hdirectory
      rw [Entry.at?_append, hput, Option.bind_some]
      -- In the directory of the change every other name means what it meant.
      rcases List.eq_nil_or_concat below with rfl | ⟨below, other, rfl⟩
      · exact ⟨_, rfl⟩
      · have hother : other ≠ name := by
          rintro rfl
          exact hnames ⟨below, by simp [Place.names]⟩
        rw [List.concat_eq_append, Entry.at?_append, Entry.at?, Entry.at?] at hdirectory ⊢
        simp only [Members.lookup_insert_of_ne hother]
        exact ⟨members, hdirectory⟩
    · exact ih _ habove

/-- A step that a tree allows is still allowed after a change where no directory was. -/
theorem Reached.exists_enter_put {name : String} (hp : Reached root p)
    (hplain : ∀ members, p.entry? ≠ some (.directory members)) (hq : Reached root q)
    (hq' : Reached (p.put e) q') (hnames : q'.names = q.names) (h : q.enter name = .ok r) :
    ∃ r', q'.enter name = .ok r' ∧ Reached (p.put e) r' ∧ r'.names = r.names := by
  obtain ⟨members, hdirectory⟩ := exists_members_of_enter h
  have hat : root.at? q.names = some (.directory members) := hq.entry?_eq.symm.trans hdirectory
  -- A directory at or under the place of the change would make that a directory.
  have hbehind : ¬p.names <:+ q.names := by
    rintro ⟨below, hbelow⟩
    rw [← hbelow, Entry.at?_append, ← hp.entry?_eq] at hat
    obtain ⟨e, he, hunder⟩ := Option.bind_eq_some_iff.1 hat
    obtain ⟨members', rfl⟩ := Entry.exists_members_of_at? hunder
    exact hplain members' he
  obtain ⟨members', hat'⟩ := hp.exists_members_put e hbehind hat
  have hdirectory' : q'.entry? = some (.directory members') := by
    rw [hq'.entry?_eq, hnames, hat']
  suffices ∃ r', q'.enter name = .ok r' ∧ r'.names = r.names by
    obtain ⟨r', hr', hsame⟩ := this
    exact ⟨r', hr', hq'.of_enter hr', hsame⟩
  rw [enter_eq hdirectory] at h
  rw [enter_eq hdirectory']
  split_ifs at h ⊢
  · exact ⟨q', rfl, Except.ok.inj h ▸ hnames⟩
  · refine ⟨q'.parent, rfl, ?_⟩
    rw [← Except.ok.inj h, names_parent, names_parent, hnames]
  · refine ⟨_, rfl, ?_⟩
    rw [← Except.ok.inj h]
    exact congrArg (List.cons name) hnames

theorem Reached.exists_walk_put (hp : Reached root p)
    (hplain : ∀ members, p.entry? ≠ some (.directory members)) (hq : Reached root q)
    (hq' : Reached (p.put e) q') (hnames : q'.names = q.names) (h : q.walk names = .ok r) :
    ∃ r', q'.walk names = .ok r' ∧ Reached (p.put e) r' ∧ r'.names = r.names := by
  induction names generalizing q q' with
  | nil => exact ⟨q', rfl, hq', Except.ok.inj h ▸ hnames⟩
  | cons name names ih =>
    rw [walk, List.foldlM_cons] at h
    obtain ⟨q₁, hstep, h⟩ := exists_of_bind_eq_ok h
    obtain ⟨q₁', hstep', hq₁', hnames₁⟩ := hp.exists_enter_put hplain hq hq' hnames hstep
    rw [walk, List.foldlM_cons, hstep']
    exact ih (hq.of_enter hstep) hq₁' hnames₁ h

end Put

end Place

namespace Tree

open Place (Reached)

variable {t t' : Tree} {text : String} {path : Path} {names : List String} {place above : Place}
  {content : Bytes}

theorem follow_eq (t : Tree) (path : Path) (names : List String) :
    t.follow path names =
      (Place.walk ⟨[], some t.root⟩ (if path.start = .root then [] else t.current)).bind
        fun origin => origin.walk names := by
  unfold follow
  split <;> rfl

theorem follow_concat (t : Tree) (path : Path) (names : List String) (name : String) :
    t.follow path (names ++ [name]) = (t.follow path names).bind fun above => above.enter name := by
  rw [follow_eq, follow_eq]
  cases Place.walk ⟨[], some t.root⟩ (if path.start = .root then [] else t.current) with
  | error fault => rfl
  | ok origin =>
    simp only [Except.bind, Place.walk, List.foldlM_append]
    cases names.foldlM Place.enter origin with
    | error fault => rfl
    | ok above =>
      change (above.enter name).bind pure = above.enter name
      cases above.enter name <;> rfl

theorem reached_of_follow (h : t.follow path names = .ok place) : Reached t.root place := by
  rw [follow_eq] at h
  obtain ⟨origin, horigin, h⟩ := exists_of_bind_eq_ok h
  exact (Reached.root.of_walk horigin).of_walk h

theorem exists_follow_put (h : t.follow path names = .ok place)
    (hplain : ∀ members, place.entry? ≠ some (.directory members)) (e : Entry) :
    ∃ place', Tree.follow { t with root := place.put e } path names = .ok place' ∧
      place'.entry? = some e := by
  have hreached := reached_of_follow h
  rw [follow_eq] at h ⊢
  obtain ⟨origin, horigin, h⟩ := exists_of_bind_eq_ok h
  obtain ⟨origin', horigin', hreached', hnames'⟩ :=
    hreached.exists_walk_put (e := e) hplain .root .root rfl horigin
  obtain ⟨place', hplace', hput, hnames⟩ :=
    hreached.exists_walk_put hplain (Reached.root.of_walk horigin) hreached' hnames' h
  refine ⟨place', ?_, ?_⟩
  · simp only [horigin', Except.bind, hplace']
  · rw [hput.entry?_eq, hnames, hreached.at?_put_self]

theorem find_eq_ok_iff {e : Entry} (hplain : ∀ members, e ≠ .directory members) :
    t.find text = .ok (place, e) ↔ ∃ path, path? text = .ok path ∧
      t.follow path path.names = .ok place ∧ place.entry? = some e ∧ path.endsInSlash = false := by
  constructor
  · intro h
    unfold find at h
    obtain ⟨path, hpath, h⟩ := exists_of_bind_eq_ok h
    obtain ⟨found, hfollow, h⟩ := exists_of_bind_eq_ok h
    refine ⟨path, hpath, ?_⟩
    split at h
    · contradiction
    · obtain ⟨-, rfl⟩ := Prod.mk.inj (Except.ok.inj h)
      exact absurd rfl (hplain _)
    · split at h
      · contradiction
      · rename_i hentry hslash
        obtain ⟨rfl, rfl⟩ := Prod.mk.inj (Except.ok.inj h)
        exact ⟨hfollow, hentry, Bool.eq_false_iff.2 hslash⟩
  · rintro ⟨path, hpath, hfollow, hentry, hslash⟩
    simp only [find, hpath, hfollow, bind, Except.bind, hentry, hslash]
    cases e with
    | directory members => exact absurd rfl (hplain members)
    | file content => rfl
    | device content refusal => rfl

def HoldsAt (t : Tree) (text : String) (content : Bytes) : Prop :=
  ∃ place, t.find text = .ok (place, .file content)

def DeviceAt (t : Tree) (text : String) : Prop :=
  ∃ place content refusal, t.find text = .ok (place, .device content refusal)

theorem HoldsAt.read_eq (h : t.HoldsAt text content) : t.read text = .ok content := by
  obtain ⟨place, hfind⟩ := h
  rw [read, hfind]
  rfl

theorem HoldsAt.kind_eq (h : t.HoldsAt text content) : t.kind text = .ok .file := by
  obtain ⟨place, hfind⟩ := h
  rw [kind, hfind]
  rfl

theorem DeviceAt.kind_eq (h : t.DeviceAt text) : t.kind text = .ok .device := by
  obtain ⟨place, content, refusal, hfind⟩ := h
  rw [kind, hfind]
  rfl

theorem holdsAt_put (hpath : path? text = .ok path) (h : t.follow path path.names = .ok place)
    (hplain : ∀ members, place.entry? ≠ some (.directory members))
    (hslash : path.endsInSlash = false) (content : Bytes) :
    HoldsAt { t with root := place.put (.file content) } text content := by
  obtain ⟨place', hfollow, hentry⟩ := exists_follow_put h hplain (.file content)
  exact ⟨place', (find_eq_ok_iff (by simp)).2 ⟨path, hpath, hfollow, hentry, hslash⟩⟩

theorem exists_append (h : t.HoldsAt text content) (bytes : Bytes) :
    ∃ t', t.append text bytes = .ok t' ∧ t'.HoldsAt text (content ++ bytes) := by
  obtain ⟨place, hfind⟩ := h
  obtain ⟨path, hpath, hfollow, hentry, hslash⟩ := (find_eq_ok_iff (by simp)).1 hfind
  refine ⟨{ t with root := place.put (.file (content ++ bytes)) }, ?_, ?_⟩
  · rw [append, hfind]
    rfl
  · exact holdsAt_put hpath hfollow (by simp [hentry]) hslash _

theorem append_device (h : t.DeviceAt text) (bytes : Bytes) :
    t.append text bytes = .ok t ∨ ∃ fault, t.append text bytes = .error fault := by
  obtain ⟨place, content, refusal, hfind⟩ := h
  rw [append, hfind]
  cases refusal with
  | none => exact .inl rfl
  | some fault => exact .inr ⟨fault, rfl⟩

theorem split_of_lastName? {name : String} (h : t.lastName? path = .ok (some (above, name))) :
    path.names = path.names.dropLast ++ [name] ∧
      t.follow path path.names.dropLast = .ok above := by
  unfold lastName? at h
  split at h
  · cases h
  · rename_i last hlast
    obtain ⟨names, hnames⟩ := List.getLast?_eq_some_iff.1 hlast
    obtain ⟨place, hfollow, h⟩ := exists_of_bind_eq_ok h
    obtain ⟨members, -, h⟩ := exists_of_bind_eq_ok h
    split at h
    · cases h
    · obtain ⟨rfl, rfl⟩ := Prod.mk.inj (Option.some.inj (Except.ok.inj h))
      refine ⟨?_, hfollow⟩
      rw [hnames, List.dropLast_concat]

theorem holdsAt_of_create (h : t.create text = .ok t') :
    t'.HoldsAt text [] ∨ t' = t ∧ t.DeviceAt text := by
  unfold create at h
  obtain ⟨path, hpath, h⟩ := exists_of_bind_eq_ok h
  obtain ⟨last, hlast, h⟩ := exists_of_bind_eq_ok h
  split at h
  · contradiction
  · rename_i above name
    split at h
    · contradiction
    · rename_i hslash
      have hslash : path.endsInSlash = false := Bool.eq_false_iff.2 hslash
      obtain ⟨place, henter, h⟩ := exists_of_bind_eq_ok h
      obtain ⟨hnames, habove⟩ := split_of_lastName? hlast
      have hfollow : t.follow path path.names = .ok place := by
        rw [hnames, follow_concat, habove]
        exact henter
      split at h
      · contradiction
      · rename_i content refusal hentry
        exact .inr ⟨(Except.ok.inj h).symm, place, content, refusal,
          (find_eq_ok_iff (by simp)).2 ⟨path, hpath, hfollow, hentry, hslash⟩⟩
      · rename_i hdirectory _
        exact .inl (Except.ok.inj h ▸ holdsAt_put hpath hfollow hdirectory hslash [])

end Tree

end AccessTrace.Files
