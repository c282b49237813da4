import AccessTrace.Json
import AccessTrace.Proofs.Json.Token

/-!
A value is read back from its text, however deep it goes.
-/

namespace AccessTrace.Json

/-- Values whose strings and numbers are read as they stand. -/
inductive Legible : Value → Prop
  | null : Legible .null
  | bool (b : Bool) : Legible (.bool b)
  | number {literal : List Char} (h : Token.Literal literal) : Legible (.number literal)
  | string {body : List Char} (h : Text.Closed body) : Legible (.string body)
  | array {items : List Value} (h : ∀ v ∈ items, Legible v) : Legible (.array items)
  | object {members : List Member} (hnames : ∀ m ∈ members, Text.Closed m.1)
    (h : ∀ m ∈ members, Legible m.2) : Legible (.object members)

namespace State

def readOn? (s : State) (text : List Char) : Option State :=
  (Token.ofText? text).bind fun tokens => tokens.foldlM step? s

def Begins (s : State) (outer : List Frame) : Prop :=
  ∀ t, t ≠ .closeBracket → s.step? t = begin? outer t

/-- The text of a value takes a reader from its beginning to its end, and no further. -/
def ReadsOver (v : Value) : Prop :=
  ∀ {s : State} {outer : List Frame} {depth : Nat} {rest : List Char}, s.Begins outer →
    Token.Delimited rest → s.readOn? (v.pretty depth ++ rest) = (complete v outer).readOn? rest

section ReadOn

variable {s s' : State} {outer : List Frame} {text rest : List Char} {t : Token}

theorem begins_value (outer : List Frame) : (value outer).Begins outer :=
  fun _ _ => rfl

theorem begins_firstItem (outer : List Frame) :
    (firstItem outer).Begins (.array [] :: outer) := by
  intro t ht
  cases t with
  | closeBracket => exact absurd rfl ht
  | _ => rfl

@[simp] theorem readOn?_nil (s : State) : s.readOn? [] = some s := by
  rw [readOn?, Token.ofText?, Token.readAll]
  rfl

theorem readOn?_of_read (h : Token.read text = some (t, rest)) (hstep : s.step? t = some s') :
    s.readOn? text = s'.readOn? rest := by
  rw [readOn?, readOn?, Token.ofText?_of_read h]
  cases Token.ofText? rest with
  | none => rfl
  | some tokens => simp [hstep]

theorem readOn?_newline (s : State) (depth : Nat) (text : List Char) :
    s.readOn? (Value.newline depth ++ text) = s.readOn? text := by
  have hblank : ∀ c ∈ Value.newline depth, Token.isBlank c = true := by
    intro c hc
    rcases List.mem_cons.1 hc with rfl | hc
    · rfl
    · rw [List.eq_of_mem_replicate hc]
      rfl
  rw [readOn?, readOn?, Token.ofText?_blanks hblank]

theorem readOn?_space (s : State) (text : List Char) : s.readOn? (' ' :: text) = s.readOn? text := by
  have hspace : Token.ofText? ([' '] ++ text) = Token.ofText? text :=
    Token.ofText?_blanks (List.forall_mem_singleton.2 rfl)
  rw [List.singleton_append] at hspace
  rw [readOn?, readOn?, hspace]

theorem readOn?_of_begin (hs : s.Begins outer) {v : Value} (ht : t ≠ .closeBracket)
    (hbegin : begin? outer t = some (complete v outer)) (h : Token.read text = some (t, rest)) :
    s.readOn? text = (complete v outer).readOn? rest :=
  readOn?_of_read h ((hs t ht).trans hbegin)

end ReadOn

section Containers

variable {outer : List Frame} {rest : List Char}

theorem delimited_prettyItems (depth : Nat) (items : List Value) (rest : List Char) :
    Token.Delimited (Value.prettyItems depth items ++ rest) := by
  cases items with
  | nil =>
    rw [Value.prettyItems]
    exact Token.delimited_cons (by decide) _
  | cons v items =>
    rw [Value.prettyItems]
    exact Token.delimited_cons (by decide) _

theorem delimited_prettyMembers (depth : Nat) (members : List Member) (rest : List Char) :
    Token.Delimited (Value.prettyMembers depth members ++ rest) := by
  cases members with
  | nil =>
    rw [Value.prettyMembers]
    exact Token.delimited_cons (by decide) _
  | cons m members =>
    rw [Value.prettyMembers]
    exact Token.delimited_cons (by decide) _

theorem readOn?_prettyItems {items : List Value} (h : ∀ v ∈ items, ReadsOver v)
    (done : List Value) (depth : Nat) :
    (afterItem done outer).readOn? (Value.prettyItems depth items ++ rest) =
      (complete (.array (done.reverse ++ items)) outer).readOn? rest := by
  induction items generalizing done with
  | nil =>
    rw [Value.prettyItems, List.append_assoc, readOn?_newline, List.append_nil]
    exact readOn?_of_read rfl rfl
  | cons v items ih =>
    rw [List.forall_mem_cons] at h
    simp only [Value.prettyItems, List.append_assoc, List.cons_append]
    rw [readOn?_of_read rfl rfl, readOn?_newline,
      h.1 (begins_value _) (delimited_prettyItems depth items rest)]
    rw [complete, ih h.2, List.reverse_cons, List.append_assoc, List.singleton_append]

theorem readOn?_member {s : State} {members : List Member} {name : List Char} {v : Value}
    (hs : s.step? (.string name) = some (colon members name outer)) (hname : Text.Closed name)
    (hv : ReadsOver v) (depth : Nat) (hrest : Token.Delimited rest) :
    s.readOn? ('"' :: (name ++ '"' :: ':' :: ' ' :: (v.pretty depth ++ rest))) =
      (afterMember ((name, v) :: members) outer).readOn? rest := by
  rw [readOn?_of_read (Token.read_of_closed hname _) hs, readOn?_of_read rfl rfl, readOn?_space,
    hv (begins_value _) hrest]
  rfl

theorem readOn?_prettyMembers {members : List Member} (hnames : ∀ m ∈ members, Text.Closed m.1)
    (h : ∀ m ∈ members, ReadsOver m.2) (done : List Member) (depth : Nat) :
    (afterMember done outer).readOn? (Value.prettyMembers depth members ++ rest) =
      (complete (.object (done.reverse ++ members)) outer).readOn? rest := by
  induction members generalizing done with
  | nil =>
    rw [Value.prettyMembers, List.append_assoc, readOn?_newline, List.append_nil]
    exact readOn?_of_read rfl rfl
  | cons m members ih =>
    obtain ⟨name, v⟩ := m
    rw [List.forall_mem_cons] at h hnames
    simp only [Value.prettyMembers, List.append_assoc, List.cons_append]
    rw [readOn?_of_read rfl rfl, readOn?_newline,
      readOn?_member rfl hnames.1 h.1 _ (delimited_prettyMembers depth members rest),
      ih hnames.2 h.2, List.reverse_cons, List.append_assoc, List.singleton_append]

end Containers

theorem readsOver_of_legible {v : Value} (h : Legible v) : ReadsOver v := by
  intro s outer depth rest hs hrest
  induction h generalizing s outer depth rest with
  | null =>
    rw [Value.pretty]
    exact readOn?_of_begin (t := .null) hs (by decide) rfl rfl
  | bool b =>
    cases b with
    | true =>
      rw [Value.pretty]
      exact readOn?_of_begin (t := .bool true) hs (by decide) rfl rfl
    | false =>
      rw [Value.pretty]
      exact readOn?_of_begin (t := .bool false) hs (by decide) rfl rfl
  | number h =>
    rw [Value.pretty]
    exact readOn?_of_begin hs (by simp) rfl (Token.read_of_literal h hrest)
  | string h =>
    simp only [Value.pretty, List.cons_append, List.append_assoc, List.nil_append]
    exact readOn?_of_begin hs (by simp) rfl (Token.read_of_closed h rest)
  | @array items h ih =>
    cases items with
    | nil =>
      rw [Value.pretty]
      exact (readOn?_of_read rfl (hs _ (by decide))).trans (readOn?_of_read rfl rfl)
    | cons v items =>
      -- The first item stands where the closing bracket of an empty array could.
      rw [List.forall_mem_cons] at ih
      simp only [Value.pretty, List.cons_append, List.append_assoc]
      rw [readOn?_of_read rfl (hs _ (by decide)), readOn?_newline,
        ih.1 (begins_firstItem _) (delimited_prettyItems depth items rest)]
      exact readOn?_prettyItems ih.2 [v] depth
  | @object members hnames h ih =>
    cases members with
    | nil =>
      rw [Value.pretty]
      exact (readOn?_of_read rfl (hs _ (by decide))).trans (readOn?_of_read rfl rfl)
    | cons m members =>
      obtain ⟨name, v⟩ := m
      rw [List.forall_mem_cons] at ih hnames
      simp only [Value.pretty, List.cons_append, List.append_assoc]
      rw [readOn?_of_read rfl (hs _ (by decide)), readOn?_newline,
        readOn?_member rfl hnames.1 ih.1 _ (delimited_prettyMembers depth members rest)]
      exact readOn?_prettyMembers hnames.2 ih.2 [(name, v)] depth

end State

namespace Value

theorem ofText?_eq (text : List Char) :
    ofText? text = ((State.value []).readOn? text).bind fun
      | .finished v => some v
      | _ => none := by
  rw [ofText?, State.readOn?]
  cases Token.ofText? text with
  | none => rfl
  | some tokens =>
    simp only [Option.bind_some, ofTokens?]
    cases tokens.foldlM State.step? (.value []) with
    | none => rfl
    | some s => cases s <;> rfl

theorem ofText?_text {v : Value} (h : Legible v) : ofText? v.text = some v := by
  have hread : (State.value []).readOn? (v.pretty 0 ++ []) = (State.complete v []).readOn? [] :=
    State.readsOver_of_legible h (State.begins_value []) Token.delimited_nil
  rw [List.append_nil] at hread
  rw [ofText?_eq, text, hread, State.readOn?_nil]
  rfl

@[simp] theorem string?_ofString (s : String) : (ofString s).string? = some s := by
  rw [ofString, string?, Text.unescape_escape, Option.map_some, String.ofList_toList]

@[simp] theorem word?_ofWord (w : UInt64) : (ofWord w).word? = some w := by
  have hdigits : ∀ c ∈ Nat.toDigits 10 w.toNat, Token.isDigit c = true :=
    (Token.numeral_toDigits w.toNat).all_isDigit
  have hvalue : (Nat.toDigits 10 w.toNat).foldl (fun n c => 10 * n + (c.toNat - '0'.toNat)) 0 =
      w.toNat := by
    rw [← Nat.ofDigitChars_eq_foldl, Nat.ofDigitChars_ten_toDigits]
  rw [ofWord, word?, Nat.toString_eq_ofList_toDigits, String.toList_ofList,
    if_pos (List.all_eq_true.2 hdigits)]
  simp only [hvalue]
  rw [if_pos w.toNat_lt, UInt64.ofNat_toNat]

@[simp] theorem legible_ofString (s : String) : Legible (ofString s) :=
  .string (Text.closed_escape s.toList)

@[simp] theorem legible_ofWord (w : UInt64) : Legible (ofWord w) := by
  rw [ofWord, Nat.toString_eq_ofList_toDigits, String.toList_ofList]
  exact .number (Token.numeral_toDigits w.toNat).isLiteral

/-- Names of different fields, none of which needs an escape. -/
def Names (names : List String) : Prop :=
  names.Nodup ∧ ∀ name ∈ names, Text.escape name.toList = name.toList

instance (names : List String) : Decidable (Names names) :=
  inferInstanceAs (Decidable (_ ∧ _))

def present (fields : List (String × Option Value)) : List (String × Value) :=
  fields.filterMap fun (name, v) => v.map (Prod.mk name)

def ofFields (fields : List (String × Option Value)) : Value :=
  .object ((present fields).map fun (name, v) => (name.toList, v))

section Fields

variable {α β γ : Type} {fields : List (String × Option Value)} {name : String} {v : Option Value}

theorem mapM_map_eq_some {f : β → Option γ} {g : α → β} {h : α → γ} {xs : List α}
    (hf : ∀ x ∈ xs, f (g x) = some (h x)) : (xs.map g).mapM f = some (xs.map h) := by
  induction xs with
  | nil => rfl
  | cons x xs ih =>
    rw [List.forall_mem_cons] at hf
    rw [List.map_cons, List.mapM_cons, hf.1, ih hf.2]
    rfl

theorem mapM_map_of_inverse {write : α → Value} {read? : Value → Option α}
    (h : ∀ x, read? (write x) = some x) (xs : List α) : (xs.map write).mapM read? = some xs := by
  rw [mapM_map_eq_some fun x _ => h x, List.map_id']

theorem legible_array {write : α → Value} (h : ∀ x, Legible (write x)) (xs : List α) :
    Legible (.array (xs.map write)) :=
  .array (List.forall_mem_map.2 fun x _ => h x)

theorem present_cons_some (name : String) (v : Value) (fields : List (String × Option Value)) :
    present ((name, some v) :: fields) = (name, v) :: present fields :=
  rfl

theorem mem_names_of_mem_present {m : String × Value} (hm : m ∈ present fields) :
    m.1 ∈ fields.map Prod.fst := by
  obtain ⟨⟨name, v⟩, hfield, hv⟩ := List.mem_filterMap.1 hm
  obtain ⟨v', rfl, rfl⟩ := Option.map_eq_some_iff.1 hv
  exact List.mem_map_of_mem hfield

theorem filter_present_of_notMem (h : name ∉ fields.map Prod.fst) :
    ((present fields).filter fun (key, _) => key == name) = [] := by
  rw [List.filter_eq_nil_iff]
  intro m hm hkey
  exact h (eq_of_beq hkey ▸ mem_names_of_mem_present hm)

theorem filter_present (hnodup : (fields.map Prod.fst).Nodup) (hmem : (name, v) ∈ fields) :
    ((present fields).filter fun (key, _) => key == name) = (v.map (Prod.mk name)).toList := by
  induction fields with
  | nil => contradiction
  | cons first fields ih =>
    obtain ⟨name', v'⟩ := first
    rw [List.map_cons, List.nodup_cons] at hnodup
    rcases List.mem_cons.1 hmem with heq | hmem
    · obtain ⟨rfl, rfl⟩ := Prod.mk.inj heq
      have htail : (present fields).filter (fun (key, _) => key == name) = [] :=
        filter_present_of_notMem hnodup.1
      cases v with
      | none => exact htail
      | some v =>
        rw [present_cons_some, List.filter_cons_of_pos (by simp), htail]
        rfl
    · have hne : name' ≠ name := by
        rintro rfl
        exact hnodup.1 (List.mem_map.2 ⟨_, hmem, rfl⟩)
      rw [← ih hnodup.2 hmem]
      cases v' with
      | none => rfl
      | some v' => rw [present_cons_some, List.filter_cons_of_neg (by simpa using hne)]

theorem field?_present (hnodup : (fields.map Prod.fst).Nodup) (hmem : (name, v) ∈ fields) :
    field? (present fields) name = some v := by
  rw [field?, filter_present hnodup hmem]
  cases v <;> rfl

/-- Every field that was written is found again, and those left out are known to be missing. -/
theorem fields?_ofFields (h : Names (fields.map Prod.fst)) :
    (ofFields fields).fields? (fields.map Prod.fst) = some (fields.map Prod.snd) := by
  rw [ofFields, fields?]
  simp only
  rw [mapM_map_eq_some (h := id)]
  · rw [List.map_id, Option.bind_eq_bind, Option.bind_some]
    apply mapM_map_eq_some
    rintro ⟨name, v⟩ hmem
    exact field?_present h.1 hmem
  · rintro ⟨name, v⟩ hm
    have hname := h.2 name (mem_names_of_mem_present hm)
    simp only
    rw [← hname, Text.unescape_escape]
    simp

theorem legible_ofFields (h : Names (fields.map Prod.fst))
    (hvalues : ∀ field ∈ fields, ∀ v ∈ field.2, Legible v) : Legible (ofFields fields) := by
  apply Legible.object
  · intro m hm
    obtain ⟨⟨name, v⟩, hpresent, rfl⟩ := List.mem_map.1 hm
    have hname := h.2 name (mem_names_of_mem_present hpresent)
    simp only
    rw [← hname]
    exact Text.closed_escape name.toList
  · intro m hm
    obtain ⟨⟨name, v⟩, hpresent, rfl⟩ := List.mem_map.1 hm
    obtain ⟨field, hfield, hv⟩ := List.mem_filterMap.1 hpresent
    obtain ⟨v', hv', heq⟩ := Option.map_eq_some_iff.1 hv
    obtain ⟨rfl, rfl⟩ := Prod.mk.inj heq
    exact hvalues field hfield _ hv'

end Fields

end Value

end AccessTrace.Json
