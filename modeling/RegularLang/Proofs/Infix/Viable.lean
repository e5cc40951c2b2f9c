/-
  RegularLang.Proofs.Infix.Viable — an error stands at the first character with which no
  accepted text goes on, and lists exactly what an accepted text may go on with there
  (`parse_error_exact`).

  Where a text is refused, the reader has taken all tokens before it, or a backslash waits
  for its letter (`Halts`). Every reader can be led to an end: after one more unit each
  open group can be closed (`Reader.exists_completion`). So all that has been read begins
  an accepted text, and a character can follow it exactly when the reader takes its token
  (`isViable_snoc_iff`). The terminals that the reader lists are those of such characters
  (`Reader.allows_iff`).
-/

import RegularLang.Proofs.Infix.Parsed

namespace RegularLang.Infix

/-! ## Where a text is refused -/

/-- Reading on from `r`, `before` is read and `rest` is not, with the list of what could
    have stood there. -/
inductive Halts (r : Reader) : List Char → List Char → List Terminal → Prop
  | atEnd {before : List Char} {ts : List Token} {r' : Reader} : Spells before ts →
      r.run? ts = some r' → r'.finish? = none → Halts r before [] r'.expected
  | atToken {before rest : List Char} {c : Char} {ts : List Token} {r' : Reader} :
      Spells before ts → r.run? ts = some r' → isBlank c = false → c ≠ '\\' →
      r'.take? (.ofChar c) = none → Halts r before (c :: rest) r'.expected
  | atEscape {before rest : List Char} {ts : List Token} {r' : Reader} : Spells before ts →
      r.run? ts = some r' → (∀ c ∈ rest.head?, isSpecial c = false) →
      Halts r (before ++ ['\\']) rest [.specialLetter]

section

variable {r r' : Reader} {text before rest : List Char} {ts : List Token} {offset : Nat}
  {expected : List Terminal} {f : Failures} {e : Error}

theorem exists_failures (h : parse text = .error e) :
    ∃ f, Reader.start.read 0 text = .error f ∧ f.error text = e := by
  rw [parse_eq_read] at h
  cases hread : Reader.start.read 0 text with
  | error f =>
    rw [hread] at h
    exact ⟨f, rfl, Except.error.inj h⟩
  | ok e =>
    rw [hread] at h
    cases h

/-- What has been read before comes in front. -/
theorem Halts.prepend (h : Halts r' before rest expected) (hs : Spells text ts)
    (hr : r.run? ts = some r') : Halts r (text ++ before) rest expected := by
  have hrun {us : List Token} {s : Reader} (hu : r'.run? us = some s) :
      r.run? (ts ++ us) = some s := by
    rw [Reader.run?_append, hr, Option.bind_some, hu]
  cases h with
  | atEnd hb hu hf => exact .atEnd (hs.append hb) (hrun hu) hf
  | atToken hb hu hc hne ht => exact .atToken (hs.append hb) (hrun hu) hc hne ht
  | atEscape hb hu hc =>
    rw [← List.append_assoc]
    exact .atEscape (hs.append hb) (hrun hu) hc

theorem exists_halts (h : r.read offset text = .error f) :
    ∃ before rest, text = before ++ rest ∧ offset + byteLength before = f.offset ∧
      Halts r before rest (Terminal.all.filter f.expected) := by
  -- By the way the text is read: what the reader skips or takes first comes in front.
  fun_induction Reader.read r offset text with
  | case1 r offset hf =>
    obtain rfl := Except.error.inj h
    exact ⟨[], [], rfl, rfl, .atEnd .nil rfl hf⟩
  | case2 => cases h
  | case3 r offset =>
    obtain rfl := Except.error.inj h
    exact ⟨['\\'], [], rfl, rfl, .atEscape .nil rfl fun c hc => by cases hc⟩
  | case4 r offset c text hc ih =>
    -- A letter is never refused.
    obtain ⟨before, rest, rfl, hlen, hhalts⟩ := ih h
    refine ⟨'\\' :: c :: before, rest, rfl, hlen ▸ ?_, hhalts.prepend (.escaped hc .nil) rfl⟩
    simp [Nat.add_assoc, show '\\'.utf8Size = 1 from rfl]
  | case5 r offset c text hc =>
    obtain rfl := Except.error.inj h
    exact ⟨['\\'], c :: text, rfl, rfl, .atEscape .nil rfl (by simpa using hc)⟩
  | case6 r offset c text _ _ hc ih =>
    obtain ⟨before, rest, rfl, hlen, hhalts⟩ := ih h
    refine ⟨c :: before, rest, rfl, ?_, hhalts.prepend (.blank hc .nil) rfl⟩
    rw [← hlen, byteLength_cons, Nat.add_assoc]
  | case7 r offset c text hend hmore hc ht =>
    obtain rfl := Except.error.inj h
    exact ⟨[], c :: text, rfl, rfl, .atToken .nil rfl (by simpa using hc) (ne_backslash hend hmore) ht⟩
  | case8 r offset c text hend hmore hc s hs ih =>
    obtain ⟨before, rest, rfl, hlen, hhalts⟩ := ih h
    refine ⟨c :: before, rest, rfl, ?_, ?_⟩
    · rw [← hlen, byteLength_cons, Nat.add_assoc]
    · refine hhalts.prepend (.plain (by simpa using hc) (ne_backslash hend hmore) .nil) ?_
      rw [Reader.run?_cons, hs]
      rfl

end

/-! ## Beginnings of accepted texts -/

/-- An accepted text begins with `text`. -/
def IsViable (text : List Char) : Prop := ∃ rest e, parse (text ++ rest) = .ok e

theorem Group.exists_value? {g : Group} (h : g.hasUnit) : ∃ e, g.value? = some e := by
  unfold Group.value? Group.alternative?
  rw [if_pos h]
  exact ⟨_, rfl⟩

theorem Group.exists_closed? {g : Group} (h : g.hasUnit) : ∃ e, g.closed? = some e := by
  unfold Group.closed?
  split
  · exact ⟨.zero, rfl⟩
  · exact exists_value? h

/-- As soon as the innermost group has a unit, all groups can be closed. -/
theorem Reader.exists_run?_closeGroups {g : Group} (outer : List Group) (h : g.hasUnit) :
    ∃ r e, run? ⟨g, outer⟩ (.replicate outer.length .closeGroup) = some r ∧ r.finish? = some e := by
  induction outer generalizing g with
  | nil =>
    obtain ⟨e, he⟩ := Group.exists_value? h
    exact ⟨⟨g, []⟩, e, rfl, he⟩
  | cons g' outer ih =>
    obtain ⟨e, he⟩ := Group.exists_closed? h
    obtain ⟨r, f, hr, hf⟩ := ih (g := g'.addUnit e) rfl
    have hclose : take? ⟨g, g' :: outer⟩ .closeGroup = some ⟨g'.addUnit e, outer⟩ := by
      show Option.map _ g.closed? = _
      rw [he]
      rfl
    refine ⟨r, f, ?_, hf⟩
    rw [List.length_cons, List.replicate_succ, run?_cons, hclose]
    exact hr

theorem spells_closeGroups (n : Nat) : Spells (.replicate n ')') (.replicate n .closeGroup) := by
  induction n with
  | zero => exact .nil
  | succ n ih => exact .plain (by decide) (by decide) ih

/-- Whatever has been read, a letter and all closing parentheses may come after it. -/
theorem Reader.exists_completion (r : Reader) : ∃ text ts r' e, Spells text ts ∧
    r.run? ts = some r' ∧ r'.finish? = some e := by
  obtain ⟨r', e, hr, he⟩ := exists_run?_closeGroups (g := r.group.addUnit (.char 'a')) r.outer rfl
  refine ⟨'a' :: .replicate r.outer.length ')', .letter 'a' :: .replicate r.outer.length .closeGroup,
    r', e, ?_, hr, he⟩
  exact .plain (by decide) (by decide) (spells_closeGroups _)

section

variable {r : Reader} {text before rest : List Char} {ts us : List Token} {c : Char}

theorem IsViable.of_append (h : IsViable (before ++ rest)) : IsViable before := by
  obtain ⟨rest', e, h⟩ := h
  exact ⟨rest ++ rest', e, by rwa [← List.append_assoc]⟩

/-- What has been read begins an accepted text. -/
theorem isViable_of_run? (hs : Spells text ts) (hr : Reader.start.run? ts = some r) :
    IsViable text := by
  obtain ⟨rest, us, r', e, hrest, hrun, he⟩ := r.exists_completion
  refine ⟨rest, e, parse_eq_ok_iff_run.mpr ⟨ts ++ us, hs.append hrest, r', ?_, he⟩⟩
  rw [Reader.run?_append, hr, Option.bind_some, hrun]

/-- One more piece of text with one token. -/
theorem isViable_of_take? {t : Token} (hs : Spells text ts) (hr : Reader.start.run? ts = some r)
    (hp : Spells rest [t]) (ht : (r.take? t).isSome) : IsViable (text ++ rest) := by
  obtain ⟨r', ht⟩ := Option.isSome_iff_exists.mp ht
  refine isViable_of_run? (r := r') (hs.append hp) ?_
  rw [Reader.run?_append, hr, Option.bind_some, Reader.run?_cons, ht]
  rfl

theorem Spells.exists_of_append (hs : Spells text ts) (h : Spells (text ++ rest) us) :
    ∃ vs, Spells rest vs ∧ ts ++ vs = us := by
  induction hs generalizing us with
  | nil => exact ⟨us, h, rfl⟩
  | blank hc _ ih => exact ih ((spells_blank_iff hc).mp h)
  | escaped hc _ ih =>
    obtain ⟨us, hus, rfl⟩ := (spells_escaped_iff hc).mp h
    obtain ⟨vs, hvs, rfl⟩ := ih hus
    exact ⟨vs, hvs, rfl⟩
  | plain hc hb _ ih =>
    obtain ⟨us, hus, rfl⟩ := (spells_plain_iff hc hb).mp h
    obtain ⟨vs, hvs, rfl⟩ := ih hus
    exact ⟨vs, hvs, rfl⟩

/-- What an accepted text goes on with after what has been read, the reader takes. -/
theorem IsViable.exists_run? (h : IsViable (text ++ before)) (hs : Spells text ts)
    (hr : Reader.start.run? ts = some r) :
    ∃ rest us r', Spells (before ++ rest) us ∧ r.run? us = some r' := by
  obtain ⟨rest, e, h⟩ := h
  obtain ⟨us, hus, r', hrun, -⟩ := parse_eq_ok_iff_run.mp h
  rw [List.append_assoc] at hus
  obtain ⟨vs, hvs, rfl⟩ := hs.exists_of_append hus
  rw [Reader.run?_append, hr, Option.bind_some] at hrun
  exact ⟨rest, vs, r', hvs, hrun⟩

/-- A character may follow what has been read if it is skipped, announces a letter, or is
    a token that the reader takes. -/
theorem isViable_snoc_iff (hs : Spells text ts) (hr : Reader.start.run? ts = some r) :
    IsViable (text ++ [c]) ↔ isBlank c ∨ c = '\\' ∨ (r.take? (.ofChar c)).isSome := by
  constructor
  · intro h
    obtain ⟨rest, us, r', hus, hrun⟩ := h.exists_run? hs hr
    cases hus with
    | blank hc _ => exact .inl hc
    | escaped => exact .inr (.inl rfl)
    | plain =>
      rw [Reader.run?_cons, Option.bind_eq_some_iff] at hrun
      obtain ⟨r'', ht, -⟩ := hrun
      exact .inr (.inr (Option.isSome_of_eq_some ht))
  · intro h
    by_cases hc : isBlank c
    · exact isViable_of_run? (hs.append (.blank hc .nil)) (by rwa [List.append_nil])
    by_cases hne : c = '\\'
    · -- A second backslash is the letter that the first announces.
      subst hne
      have hpair : IsViable (text ++ ['\\'] ++ ['\\']) := by
        rw [List.append_assoc]
        exact isViable_of_take? hs hr (.escaped (by decide) .nil) rfl
      exact hpair.of_append
    · have ht := (h.resolve_left hc).resolve_left hne
      exact isViable_of_take? hs hr (.plain (by simpa using hc) hne .nil) ht

/-- After a backslash exactly the special characters may follow. -/
theorem isViable_escape_snoc_iff (hs : Spells text ts) (hr : Reader.start.run? ts = some r) :
    IsViable (text ++ ['\\'] ++ [c]) ↔ isSpecial c := by
  rw [List.append_assoc]
  constructor
  · intro h
    obtain ⟨rest, us, r', hus, -⟩ := h.exists_run? hs hr
    obtain ⟨d, _, e, hd⟩ := exists_special_of_spells hus
    cases e
    exact hd
  · exact fun hc => isViable_of_take? hs hr (.escaped hc .nil) rfl

end

/-! ## What is listed -/

/-- The list says what may come after a text: its end, and the next character of accepted
    texts, but for white space. -/
structure IsFollowSet (text : List Char) (expected : List Terminal) : Prop where
  endOfText : .endOfText ∈ expected ↔ ∃ e, parse text = .ok e
  blank : .blank ∉ expected
  exists_char : ∀ t ∈ expected, t ≠ .endOfText → ∃ c, t.covers c ∧ IsViable (text ++ [c])
  exists_terminal : ∀ c, isBlank c = false → IsViable (text ++ [c]) → ∃ t ∈ expected, t.covers c

section

variable {r : Reader} {text before rest : List Char} {ts : List Token} {t : Terminal} {c : Char}
  {expected : List Terminal}

theorem Terminal.exists_covers (h : t ≠ .endOfText) : ∃ c, t.covers c := by
  cases t with
  | endOfText => exact absurd rfl h
  | openGroup | specialLetter => exact ⟨'(', by decide⟩
  | closeGroup => exact ⟨')', by decide⟩
  | star => exact ⟨'*', by decide⟩
  | union => exact ⟨'+', by decide⟩
  | backslash => exact ⟨'\\', by decide⟩
  | emptyWord => exact ⟨'ε', by decide⟩
  | nothing => exact ⟨'∅', by decide⟩
  | plainLetter => exact ⟨'a', by decide⟩
  | blank => exact ⟨' ', by decide⟩

/-- Between tokens every character stands for one terminal or is blank. -/
theorem exists_terminal_covers (h : isBlank c = false) :
    ∃ t : Terminal, t ≠ .specialLetter ∧ t ≠ .blank ∧ t.covers c := by
  cases hs : isSpecial c with
  | false => exact ⟨.plainLetter, by decide, by decide, by rw [Terminal.covers, hs]; rfl⟩
  | true =>
    rw [isSpecial, h, Bool.or_false, decide_eq_true_eq] at hs
    simp only [List.mem_cons, List.not_mem_nil, or_false] at hs
    rcases hs with rfl | rfl | rfl | rfl | rfl | rfl | rfl | rfl | rfl
    · exact ⟨.openGroup, by decide, by decide, by decide⟩
    · exact ⟨.closeGroup, by decide, by decide, by decide⟩
    · exact ⟨.backslash, by decide, by decide, by decide⟩
    · exact ⟨.union, by decide, by decide, by decide⟩
    · exact ⟨.union, by decide, by decide, by decide⟩
    · exact ⟨.star, by decide, by decide, by decide⟩
    · exact ⟨.emptyWord, by decide, by decide, by decide⟩
    · exact ⟨.nothing, by decide, by decide, by decide⟩
    · exact ⟨.emptyWord, by decide, by decide, by decide⟩

namespace Reader

theorem mem_expected_iff : t ∈ r.expected ↔ r.allows t := by
  have hall : t ∈ Terminal.all := by cases t <;> decide
  rw [expected, List.mem_filter, and_iff_right hall]

/-- A star and a `+` come after a unit. -/
theorem isSome_take?_iff {t : Token} (ht : t = .star ∨ t = .union) :
    (r.take? t).isSome ↔ r.group.hasUnit := by
  obtain ⟨⟨alternatives, units⟩, outer⟩ := r
  rcases ht with rfl | rfl <;> cases units <;> exact Iff.rfl

/-- The reader allows a terminal exactly when it takes the characters of it. -/
theorem allows_iff (ht : t ≠ .specialLetter) (hblank : t ≠ .blank) (hc : t.covers c) :
    r.allows t ↔ c = '\\' ∨ (r.take? (.ofChar c)).isSome := by
  cases t with
  | endOfText => cases hc
  | openGroup | nothing =>
    obtain rfl := of_decide_eq_true hc
    exact iff_of_true rfl (.inr rfl)
  | closeGroup =>
    obtain rfl := of_decide_eq_true hc
    exact (or_iff_right (by decide)).symm
  | star =>
    obtain rfl := of_decide_eq_true hc
    exact (isSome_take?_iff (.inl rfl)).symm.trans (or_iff_right (by decide)).symm
  | union =>
    have hunion := (r.isSome_take?_iff (.inr rfl)).symm
    rcases (Bool.or_eq_true_iff.mp hc).imp of_decide_eq_true of_decide_eq_true with rfl | rfl
    · exact hunion.trans (or_iff_right (by decide)).symm
    · exact hunion.trans (or_iff_right (by decide)).symm
  | backslash => exact iff_of_true rfl (.inl (of_decide_eq_true hc))
  | emptyWord =>
    rcases (Bool.or_eq_true_iff.mp hc).imp of_decide_eq_true of_decide_eq_true with rfl | rfl
    · exact iff_of_true rfl (.inr rfl)
    · exact iff_of_true rfl (.inr rfl)
  | plainLetter =>
    rw [Token.ofChar_of_not_special (by simpa [Terminal.covers] using hc)]
    exact iff_of_true rfl (.inr rfl)
  | specialLetter => exact absurd rfl ht
  | blank => exact absurd rfl hblank

end Reader

theorem parse_eq_ok_iff_finish (hs : Spells text ts) (hr : Reader.start.run? ts = some r) :
    (∃ e, parse text = .ok e) ↔ r.finish?.isSome := by
  rw [Option.isSome_iff_exists]
  apply exists_congr
  intro e
  rw [parse_eq_ok_iff_run]
  constructor
  · rintro ⟨us, hus, r', hr', he⟩
    obtain rfl := hs.unique hus
    obtain rfl := Option.some.inj (hr.symm.trans hr')
    exact he
  · exact fun he => ⟨ts, hs, r, hr, he⟩

theorem isFollowSet_of_run? (hs : Spells text ts) (hr : Reader.start.run? ts = some r) :
    IsFollowSet text r.expected where
  endOfText := by rw [parse_eq_ok_iff_finish hs hr, Reader.mem_expected_iff]; rfl
  blank := fun h => by cases Reader.mem_expected_iff.mp h
  exists_char := by
    intro t ht hne
    have ht := Reader.mem_expected_iff.mp ht
    have hspecial : t ≠ .specialLetter := by
      rintro rfl
      cases ht
    have hblank : t ≠ .blank := by
      rintro rfl
      cases ht
    obtain ⟨c, hc⟩ := Terminal.exists_covers hne
    have htake := (Reader.allows_iff hspecial hblank hc).mp ht
    exact ⟨c, hc, (isViable_snoc_iff hs hr).mpr (.inr htake)⟩
  exists_terminal := by
    intro c hb h
    obtain ⟨t, hspecial, hblank, hc⟩ := exists_terminal_covers hb
    have htake := ((isViable_snoc_iff hs hr).mp h).resolve_left (Bool.eq_false_iff.mp hb)
    have hallows := (Reader.allows_iff hspecial hblank hc).mpr htake
    exact ⟨t, Reader.mem_expected_iff.mpr hallows, hc⟩

theorem isFollowSet_of_escape (hs : Spells text ts) (hr : Reader.start.run? ts = some r) :
    IsFollowSet (text ++ ['\\']) [.specialLetter] where
  endOfText := by
    refine iff_of_false (by decide) ?_
    rintro ⟨e, h⟩
    obtain ⟨us, hus, -⟩ := parse_eq_ok_iff_run.mp h
    obtain ⟨vs, hvs, -⟩ := hs.exists_of_append hus
    obtain ⟨c, rest, e, -⟩ := exists_special_of_spells hvs
    cases e
  blank := by decide
  exists_char := by
    intro t ht _
    obtain rfl := List.mem_singleton.mp ht
    exact ⟨'(', by decide, (isViable_escape_snoc_iff hs hr).mpr (by decide)⟩
  exists_terminal := by
    intro c _ h
    exact ⟨.specialLetter, List.mem_singleton_self _, (isViable_escape_snoc_iff hs hr).mp h⟩

theorem Halts.isFollowSet (h : Halts .start before rest expected) : IsFollowSet before expected := by
  cases h with
  | atEnd hs hr | atToken hs hr => exact isFollowSet_of_run? hs hr
  | atEscape hs hr => exact isFollowSet_of_escape hs hr

theorem Halts.isViable (h : Halts .start before rest expected) : IsViable before := by
  cases h with
  | atEnd hs hr | atToken hs hr => exact isViable_of_run? hs hr
  | atEscape hs hr => exact (isViable_snoc_iff hs hr).mpr (.inr (.inl rfl))

theorem Halts.not_isViable (h : Halts .start before rest expected) (hc : c ∈ rest.head?) :
    ¬IsViable (before ++ [c]) := by
  cases h with
  | atEnd => cases hc
  | atToken hs hr hb hne ht =>
    obtain rfl := Option.some.inj hc
    rw [isViable_snoc_iff hs hr, hb, ht]
    simp [hne]
  | atEscape hs hr hspecial =>
    rw [isViable_escape_snoc_iff hs hr, hspecial c hc]
    exact Bool.false_ne_true

end

/-- An error splits the text where it stands. What is before begins an accepted text and
    what is before with the next character does not; the listed terminals are those that
    may come there. -/
theorem parse_error_exact {text : List Char} {e : Error} (h : parse text = .error e) :
    ∃ before rest, text = before ++ rest ∧ byteLength before = e.offset ∧ IsViable before ∧
      (∀ c ∈ rest.head?, ¬IsViable (before ++ [c])) ∧ IsFollowSet before e.expected := by
  obtain ⟨f, hread, rfl⟩ := exists_failures h
  obtain ⟨before, rest, rfl, hlen, hhalts⟩ := exists_halts hread
  rw [Nat.zero_add] at hlen
  exact ⟨before, rest, rfl, hlen, hhalts.isViable, fun _ => hhalts.not_isViable, hhalts.isFollowSet⟩

/-- The text `(ε\*+ )`, where a term is missing. -/
theorem parse_error_exact_missing_term :
    let text := ['(', 'ε', '\\', '*', '+', ' ', ')']
    let expected : List Terminal := [.openGroup, .backslash, .emptyWord, .nothing, .plainLetter]
    parse text = .error ⟨7, ⟨1, 7⟩, expected⟩ ∧
      ∃ before rest, text = before ++ rest ∧ byteLength before = 7 ∧ IsViable before ∧
        (∀ c ∈ rest.head?, ¬IsViable (before ++ [c])) ∧ IsFollowSet before expected := by
  intro text expected
  have h : parse text = .error ⟨7, ⟨1, 7⟩, expected⟩ := by
    rw [parse_eq_read]
    rfl
  exact ⟨h, parse_error_exact h⟩

end RegularLang.Infix
