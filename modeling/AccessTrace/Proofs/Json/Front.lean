import AccessTrace.Proofs.Json
import AccessTrace.Proofs.Text.Utf8

/-!
The front of a text. A token does not depend on what stands behind it, unless it is a number at the
very end. An array or an object ends with its own bracket, so that nothing but blanks may follow,
and no part of such a document is a document when its end is missing.
-/

namespace AccessTrace.Json

namespace Text

variable {done text body rest : List Char}

theorem readBody_extend (h : readBody done text = some (body, rest)) (more : List Char) :
    readBody done (text ++ more) = some (body, rest ++ more) := by
  fun_induction readBody done text with
  | case1 => contradiction
  | case2 done tail =>
    obtain ⟨rfl, rfl⟩ := Prod.mk.inj (Option.some.inj h)
    rfl
  | case3 done a b c d tail hunit ih =>
    simp only [List.cons_append, readBody, if_pos hunit]
    exact ih h
  | case4 => contradiction
  | case5 done c tail hshort hletter ih =>
    have hunit : c ≠ 'u' := by
      rintro rfl
      contradiction
    rw [List.cons_append, List.cons_append, readBody, if_pos hletter]
    · exact ih h
    · simp [hunit]
  | case6 => contradiction
  | case7 => contradiction
  | case8 done c tail hquote hunit hletter hplain ih =>
    have hbackslash : c ≠ '\\' := by
      rintro rfl
      simp at hplain
    rw [List.cons_append, readBody, if_neg hplain]
    · exact ih h
    · exact hquote
    all_goals simp [hbackslash]

theorem suffix_of_readBody (h : readBody done text = some (body, rest)) : rest <:+ text := by
  fun_induction readBody done text with
  | case1 => contradiction
  | case2 done tail =>
    obtain ⟨-, rfl⟩ := Prod.mk.inj (Option.some.inj h)
    exact List.suffix_cons _ _
  | case3 done a b c d tail hunit ih =>
    exact (ih h).trans ⟨['\\', 'u', a, b, c, d], rfl⟩
  | case4 => contradiction
  | case5 done c tail hshort hletter ih => exact (ih h).trans ⟨['\\', c], rfl⟩
  | case6 => contradiction
  | case7 => contradiction
  | case8 done c tail hquote hunit hletter hplain ih => exact (ih h).trans (List.suffix_cons _ _)

end Text

namespace Token

variable {text digits part literal rest : List Char} {t : Token}

section Number

theorem digits_extend (h : text.dropWhile isDigit ≠ []) (more : List Char) :
    (text ++ more).takeWhile isDigit = text.takeWhile isDigit ∧
      (text ++ more).dropWhile isDigit = text.dropWhile isDigit ++ more := by
  constructor
  · rw [List.takeWhile_append, if_neg]
    intro hall
    have hsplit := congrArg List.length (List.takeWhile_append_dropWhile (p := isDigit) (l := text))
    rw [List.length_append, hall] at hsplit
    exact h (List.eq_nil_of_length_eq_zero (by omega))
  · rw [List.dropWhile_append, if_neg]
    simpa using h

theorem readMinus_extend (h : text ≠ []) (more : List Char) :
    readMinus (text ++ more) = ((readMinus text).1, (readMinus text).2 ++ more) := by
  cases text with
  | nil => contradiction
  | cons c text =>
    by_cases hc : c = '-'
    · subst hc
      rfl
    · rw [List.cons_append, readMinus, readMinus]
      all_goals simp [hc]

theorem readSign_extend (h : text ≠ []) (more : List Char) :
    readSign (text ++ more) = ((readSign text).1, (readSign text).2 ++ more) := by
  cases text with
  | nil => contradiction
  | cons c text =>
    by_cases hc : c = '+'
    · subst hc
      rfl
    · rw [List.cons_append, readSign, readSign, ← List.cons_append, readMinus_extend h]
      all_goals simp [hc]

theorem readWhole_extend (h : readWhole text = some (digits, rest)) (hrest : rest ≠ [])
    (more : List Char) : readWhole (text ++ more) = some (digits, rest ++ more) := by
  unfold readWhole at h ⊢
  dsimp only at h ⊢
  split at h
  · rename_i hdigits
    obtain ⟨rfl, rfl⟩ := Prod.mk.inj (Option.some.inj h)
    obtain ⟨htake, hdrop⟩ := digits_extend hrest more
    rw [htake, hdrop, if_pos hdigits]
  · contradiction

theorem readFraction_extend (h : readFraction text = some (part, rest)) (hrest : rest ≠ [])
    (more : List Char) : readFraction (text ++ more) = some (part, rest ++ more) := by
  unfold readFraction at h
  split at h
  · rename_i tail
    dsimp only at h
    split at h
    · contradiction
    · rename_i hdigits
      obtain ⟨rfl, rfl⟩ := Prod.mk.inj (Option.some.inj h)
      obtain ⟨htake, hdrop⟩ := digits_extend hrest more
      simp only [List.cons_append, readFraction, htake, hdrop, if_neg hdigits]
  · rename_i hpoint
    obtain ⟨rfl, rfl⟩ := Prod.mk.inj (Option.some.inj h)
    rw [readFraction]
    intro tail htail
    cases text with
    | nil => contradiction
    | cons c text => exact hpoint text (by rw [(List.cons.inj htail).1])

theorem readExponent_extend (h : readExponent text = some (part, rest)) (hrest : rest ≠ [])
    (more : List Char) : readExponent (text ++ more) = some (part, rest ++ more) := by
  cases text with
  | nil =>
    obtain ⟨-, rfl⟩ := Prod.mk.inj (Option.some.inj h)
    contradiction
  | cons c text =>
    rw [List.cons_append, readExponent]
    rw [readExponent] at h
    split at h
    · rename_i hletter
      rw [if_pos hletter]
      dsimp only at h ⊢
      split at h
      · contradiction
      · rename_i hdigits
        obtain ⟨rfl, rfl⟩ := Prod.mk.inj (Option.some.inj h)
        have htext : text ≠ [] := by
          rintro rfl
          exact hrest rfl
        obtain ⟨htake, hdrop⟩ := digits_extend hrest more
        rw [readSign_extend htext]
        dsimp only
        rw [htake, hdrop, if_neg hdigits]
    · rename_i hletter
      obtain ⟨rfl, rfl⟩ := Prod.mk.inj (Option.some.inj h)
      rw [if_neg hletter]
      rfl

theorem readNumber_extend (h : readNumber text = some (literal, rest)) (hrest : rest ≠ [])
    (more : List Char) : readNumber (text ++ more) = some (literal, rest ++ more) := by
  simp only [readNumber, Option.bind_eq_bind, Option.bind_eq_some_iff, Prod.exists] at h
  obtain ⟨whole, t₁, hwhole, fraction, t₂, hfraction, exponent, t₃, hexponent, h⟩ := h
  obtain ⟨hliteral, rfl⟩ := Prod.mk.inj (Option.some.inj h)
  -- Each part is followed by the next one, and the last by something.
  have h₂ : t₂ ≠ [] := by
    rw [← readExponent_append hexponent]
    exact List.append_ne_nil_of_right_ne_nil _ hrest
  have h₁ : t₁ ≠ [] := by
    rw [← readFraction_append hfraction]
    exact List.append_ne_nil_of_right_ne_nil _ h₂
  have htext : text ≠ [] := by
    rintro rfl
    have hdigits := (readWhole_append hwhole).1
    exact h₁ (List.append_eq_nil_iff.1 hdigits).2
  rw [← hliteral]
  simp only [readNumber, readMinus_extend htext, readWhole_extend hwhole h₁,
    readFraction_extend hfraction h₂, readExponent_extend hexponent hrest, Option.bind_eq_bind,
    Option.bind_some, Option.pure_def]

end Number

/-- What stands behind a token makes no difference to it, unless it is a number that ends a text. -/
theorem read_extend (h : read text = some (t, rest))
    (hends : rest ≠ [] ∨ ∀ literal, t ≠ number literal) (more : List Char) :
    read (text ++ more) = some (t, rest ++ more) := by
  unfold read at h
  split at h
  case h_10 tail =>
    obtain ⟨⟨body, behind⟩, hbody, heq⟩ := Option.map_eq_some_iff.1 h
    obtain ⟨rfl, rfl⟩ := Prod.mk.inj heq
    rw [List.cons_append, read, Text.readBody_extend hbody, Option.map_some]
  case h_11 =>
    obtain ⟨⟨literal, behind⟩, hnumber, heq⟩ := Option.map_eq_some_iff.1 h
    obtain ⟨rfl, rfl⟩ := Prod.mk.inj heq
    have hrest : behind ≠ [] := hends.resolve_right fun hnone => hnone literal rfl
    exact read_of_readNumber (readNumber_extend hnumber hrest more)
  all_goals
    obtain ⟨rfl, rfl⟩ := Prod.mk.inj (Option.some.inj h)
    rfl

theorem suffix_of_read (h : read text = some (t, rest)) : rest <:+ text := by
  unfold read at h
  split at h
  case h_10 tail =>
    obtain ⟨⟨body, behind⟩, hbody, heq⟩ := Option.map_eq_some_iff.1 h
    obtain ⟨-, rfl⟩ := Prod.mk.inj heq
    exact (Text.suffix_of_readBody hbody).trans (List.suffix_cons _ _)
  case h_11 =>
    obtain ⟨⟨literal, behind⟩, hnumber, heq⟩ := Option.map_eq_some_iff.1 h
    obtain ⟨-, rfl⟩ := Prod.mk.inj heq
    exact ⟨literal, (readNumber_append hnumber).1⟩
  all_goals
    obtain ⟨-, rfl⟩ := Prod.mk.inj (Option.some.inj h)
    simp [List.suffix_cons_iff]

def Closes (t : Token) : Prop :=
  t = closeBrace ∨ t = closeBracket

theorem Closes.text_eq (ht : t.Closes) (h : read text = some (t, rest)) :
    text = '\x7d' :: rest ∨ text = ']' :: rest := by
  unfold read at h
  split at h
  case h_2 => exact .inl (by rw [(Prod.mk.inj (Option.some.inj h)).2])
  case h_4 => exact .inr (by rw [(Prod.mk.inj (Option.some.inj h)).2])
  case h_10 | h_11 =>
    obtain ⟨part, -, heq⟩ := Option.map_eq_some_iff.1 h
    obtain ⟨rfl, -⟩ := Prod.mk.inj heq
    rcases ht with ht | ht <;> cases ht
  all_goals
    obtain ⟨rfl, -⟩ := Prod.mk.inj (Option.some.inj h)
    rcases ht with ht | ht <;> cases ht

section ReadAll

variable {done tokens : List Token}

theorem readAll_extend (h : readAll done text = some tokens)
    (hlast : ∀ literal, tokens.getLast? ≠ some (number literal)) (more : List Char) :
    readAll done (text ++ more) = readAll tokens.reverse more := by
  fun_induction readAll done text with
  | case1 done =>
    obtain rfl := Option.some.inj h
    rw [List.nil_append, List.reverse_reverse]
  | case2 done c rest hblank ih =>
    rw [List.cons_append, readAll, if_pos hblank]
    exact ih h
  | case3 => contradiction
  | case4 done c rest hblank t rest' hread _ ih =>
    have hends : rest' ≠ [] ∨ ∀ literal, t ≠ number literal := by
      rw [or_iff_not_imp_left, not_not]
      rintro rfl literal rfl
      rw [readAll] at h
      obtain rfl := Option.some.inj h
      exact hlast literal (by rw [List.reverse_cons, List.getLast?_concat])
    rw [← ih h]
    exact readAll_of_read done (read_extend hread hends more)

theorem blank_of_readAll (h : readAll done text = some done.reverse) :
    ∀ c ∈ text, isBlank c = true := by
  fun_induction readAll done text with
  | case1 => simp
  | case2 done c rest hblank ih => exact List.forall_mem_cons.2 ⟨hblank, ih h⟩
  | case3 => contradiction
  | case4 done c rest hblank t rest' hread _ ih =>
    have hmore := readAll_append [] (t :: done) rest'
    rw [List.nil_append, h] at hmore
    obtain ⟨tokens, -, htokens⟩ := Option.map_eq_some_iff.1 hmore.symm
    have hlength := congrArg List.length htokens
    simp only [List.length_append, List.length_reverse, List.length_cons] at hlength
    omega

theorem getLast?_of_readAll (h : readAll done text = some tokens)
    (hlast : ∃ t, tokens.getLast? = some t ∧ t.Closes) {c : Char} (hc : text.getLast? = some c) :
    isBlank c = true ∨ c = '\x7d' ∨ c = ']' := by
  fun_induction readAll done text with
  | case1 => contradiction
  | case2 done first rest hblank ih =>
    cases rest with
    | nil => exact .inl (Option.some.inj hc ▸ hblank)
    | cons second rest => exact ih h (by rwa [List.getLast?_cons_cons] at hc)
  | case3 => contradiction
  | case4 done first rest hblank t rest' hread _ ih =>
    by_cases hrest : rest' = []
    · subst hrest
      rw [readAll] at h
      obtain rfl := Option.some.inj h
      obtain ⟨last, hlast, hcloses⟩ := hlast
      rw [List.reverse_cons, List.getLast?_concat] at hlast
      obtain rfl := Option.some.inj hlast
      rcases hcloses.text_eq hread with heq | heq <;> rw [heq] at hc
      · exact .inr (.inl (Option.some.inj hc).symm)
      · exact .inr (.inr (Option.some.inj hc).symm)
    · obtain ⟨front, hfront⟩ := suffix_of_read hread
      rw [← hfront, List.getLast?_append_of_ne_nil _ hrest] at hc
      exact ih h hc

end ReadAll

end Token

namespace Value

def IsContainer : Value → Prop
  | .array _ | .object _ => True
  | _ => False

theorem isContainer_of_fields? {v : Value} {names : List String} {fields : List (Option Value)}
    (h : v.fields? names = some fields) : v.IsContainer := by
  cases v with
  | array | object => trivial
  | _ => contradiction

end Value

namespace State

variable {s : State} {v : Value} {outer : List Frame} {text : List Char} {t : Token}

theorem eq_of_complete_eq {w : Value} (h : complete v outer = finished w) : v = w := by
  cases outer with
  | nil => exact finished.inj h
  | cons frame outer => cases frame <;> contradiction

theorem begin?_ne_finished (hv : v.IsContainer) : begin? outer t ≠ some (finished v) := by
  intro h
  cases t with
  | null | bool | number | string =>
    obtain rfl := eq_of_complete_eq (Option.some.inj h)
    exact hv
  | _ => cases h

theorem closes_of_step? (h : s.step? t = some (finished v)) (hv : v.IsContainer) : t.Closes := by
  cases s with
  | value outer => exact absurd h (begin?_ne_finished hv)
  | firstItem outer =>
    by_cases ht : t = .closeBracket
    · exact .inr ht
    · exact absurd ((begins_firstItem outer t ht).symm.trans h) (begin?_ne_finished hv)
  | _ =>
    cases t with
    | closeBrace => exact .inl rfl
    | closeBracket => exact .inr rfl
    | _ => cases h

theorem closes_of_foldlM {tokens : List Token} (h : tokens.foldlM step? s = some (finished v))
    (hv : v.IsContainer) (hlast : tokens.getLast? = some t) : t.Closes := by
  obtain ⟨front, rfl⟩ := List.getLast?_eq_some_iff.1 hlast
  rw [List.foldlM_append] at h
  obtain ⟨s', -, hstep⟩ := Option.bind_eq_some_iff.1 h
  rw [List.foldlM_cons] at hstep
  obtain ⟨s'', hstep, hs''⟩ := Option.bind_eq_some_iff.1 hstep
  obtain rfl := Option.some.inj hs''
  exact closes_of_step? hstep hv

/-- Nothing can follow a container that would change how it is read. -/
theorem readOn?_extend (h : s.readOn? text = some (finished v)) (hv : v.IsContainer)
    (more : List Char) : s.readOn? (text ++ more) = (finished v).readOn? more := by
  obtain ⟨tokens, htokens, hfold⟩ := Option.bind_eq_some_iff.1 h
  have hlast (literal : List Char) : tokens.getLast? ≠ some (.number literal) := by
    intro hlast
    rcases closes_of_foldlM hfold hv hlast with ht | ht <;> cases ht
  have hmore : Token.ofText? (text ++ more) = (Token.ofText? more).map (tokens ++ ·) := by
    have happend := Token.readAll_append [] tokens.reverse more
    rw [List.nil_append, List.reverse_reverse] at happend
    exact (Token.readAll_extend htokens hlast more).trans happend
  rw [readOn?, readOn?, hmore]
  cases Token.ofText? more with
  | none => rfl
  | some rest =>
    simp only [Option.map_some, Option.bind_some, List.foldlM_append, hfold, Option.bind_eq_bind]

theorem blank_of_readOn? {s' : State} (h : (finished v).readOn? text = some s') :
    ∀ c ∈ text, Token.isBlank c = true := by
  obtain ⟨tokens, htokens, hfold⟩ := Option.bind_eq_some_iff.1 h
  cases tokens with
  | nil => exact Token.blank_of_readAll htokens
  | cons t rest =>
    rw [List.foldlM_cons] at hfold
    obtain ⟨s'', hstep, -⟩ := Option.bind_eq_some_iff.1 hfold
    contradiction

theorem getLast?_of_readOn? (h : s.readOn? text = some (finished v)) (hv : v.IsContainer)
    (hs : s ≠ finished v) {c : Char} (hc : text.getLast? = some c) :
    Token.isBlank c = true ∨ c = '\x7d' ∨ c = ']' := by
  obtain ⟨tokens, htokens, hfold⟩ := Option.bind_eq_some_iff.1 h
  refine Token.getLast?_of_readAll htokens ?_ hc
  cases hlast : tokens.getLast? with
  | none =>
    rw [List.getLast?_eq_none_iff.1 hlast] at hfold
    exact absurd (Option.some.inj hfold) hs
  | some t => exact ⟨t, rfl, closes_of_foldlM hfold hv hlast⟩

end State

namespace Value

open AccessTrace.Text.Utf8

theorem getLast?_prettyItems (depth : Nat) (items : List Value) :
    (prettyItems depth items).getLast? = some ']' := by
  induction items with
  | nil => rw [prettyItems, List.getLast?_concat]
  | cons v items ih => rw [prettyItems, List.getLast?_append, ih, Option.some_or]

theorem getLast?_prettyMembers (depth : Nat) (members : List Member) :
    (prettyMembers depth members).getLast? = some '\x7d' := by
  induction members with
  | nil => rw [prettyMembers, List.getLast?_concat]
  | cons m members ih => rw [prettyMembers, List.getLast?_append, ih, Option.some_or]

theorem getLast?_text {v : Value} (hv : v.IsContainer) :
    ∃ c, v.text.getLast? = some c ∧ Token.isBlank c = false := by
  cases v with
  | array items =>
    refine ⟨']', ?_, rfl⟩
    cases items with
    | nil => rfl
    | cons v items =>
      rw [text, pretty, List.getLast?_append, getLast?_prettyItems, Option.some_or]
  | object members =>
    refine ⟨'\x7d', ?_, rfl⟩
    cases members with
    | nil => rfl
    | cons m members =>
      rw [text, pretty, List.getLast?_append, getLast?_prettyMembers, Option.some_or]
  | _ => contradiction

section Front

variable {v w : Value} {front missing : List Char}

theorem readOn?_of_ofText? (h : ofText? front = some v) :
    (State.value []).readOn? front = some (.finished v) := by
  rw [ofText?_eq] at h
  obtain ⟨s, hs, hv⟩ := Option.bind_eq_some_iff.1 h
  cases s with
  | finished => rw [hs, Option.some.inj hv]
  | _ => contradiction

theorem not_isContainer_of_front (hw : Legible w) (hcontainer : w.IsContainer)
    (h : front ++ missing = w.text) (hmissing : missing ≠ []) (hread : ofText? front = some v) :
    ¬ v.IsContainer := by
  intro hv
  have hwhole := readOn?_of_ofText? (ofText?_text hw)
  rw [← h, State.readOn?_extend (readOn?_of_ofText? hread) hv] at hwhole
  obtain ⟨c, hc, hblank⟩ := getLast?_text hcontainer
  rw [← h, List.getLast?_append_of_ne_nil _ hmissing] at hc
  have hblank' := State.blank_of_readOn? hwhole c (List.mem_of_getLast? hc)
  exact Bool.false_ne_true (hblank.symm.trans hblank')

theorem not_isContainer_of_unreadable (h : ofText? (front ++ Text.unreadable) = some v) :
    ¬ v.IsContainer := by
  intro hv
  have hlast : (front ++ Text.unreadable).getLast? = some '0' := by
    rw [List.getLast?_append_of_ne_nil _ (by decide)]
    rfl
  rcases State.getLast?_of_readOn? (readOn?_of_ofText? h) hv (by rintro ⟨⟩) hlast with h | h | h
  all_goals exact absurd h (by decide)

/-- Bytes that lack the end of an array or an object spell neither. -/
theorem not_isContainer_of_cut {held missing : Bytes} (hw : Legible w)
    (hcontainer : w.IsContainer) (h : held ++ missing = encode w.text) (hmissing : missing ≠ [])
    (hread : ofBytes? held = some v) : ¬ v.IsContainer := by
  obtain ⟨front, ⟨behind, htext⟩, hcut⟩ :=
    mendFrom_of_cut Text.unreadable [] ⟨missing, h⟩
  rw [ofBytes?, mend] at hread
  rcases hcut with rfl | hmend
  · rw [mendFrom_encode] at hread
    refine not_isContainer_of_front hw hcontainer htext ?_ hread
    rintro rfl
    rw [List.append_nil] at htext
    rw [htext] at h
    exact hmissing (List.append_right_eq_self.1 h)
  · rw [hmend] at hread
    exact not_isContainer_of_unreadable hread

end Front

end Value

end AccessTrace.Json
