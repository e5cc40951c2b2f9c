/-
  RegularLang.Proofs.TrailingBlanks — a text without the white space at its end.

  Postfix text is read alike without it (`Postfix.parse_trimEnd`). So is infix text
  (`Infix.parse_trimEnd`), unless its last token is a white-space letter: then the backslash
  that announced the letter stands alone, and the text is refused for it
  (`Infix.parse_trimEnd_eq_error`).

  What decides is where a text that spells tokens can be cut: between two tokens, or behind
  a backslash that waits for its letter (`Infix.Spells.append_cases`).
-/

import RegularLang.Automaton.Basic
import RegularLang.Proofs.Infix.Viable
import RegularLang.Proofs.Postfix

namespace RegularLang

/-! ## What is removed -/

section

variable {text rest : List Char} {c : Char}

theorem trimEnd_append_blanks (h : ∀ c ∈ rest, isBlank c) :
    trimEnd (text ++ rest) = trimEnd text := by
  rw [trimEnd, List.reverse_append,
    List.dropWhile_append_of_pos fun c hc => h c (List.mem_reverse.mp hc), trimEnd]

theorem isBlank_of_getLast?_trimEnd (h : (trimEnd text).getLast? = some c) : isBlank c = false := by
  rw [trimEnd, List.getLast?_reverse] at h
  have hnot := List.head?_dropWhile_not isBlank text.reverse
  rw [h] at hnot
  simpa using hnot

end

namespace Infix

variable {text before rest : List Char} {ts us : List Token} {r : Reader} {c : Char} {e : Regex}
  {offset : Nat}

/-! ## Cutting infix text -/

theorem spells_blanks_iff (h : ∀ c ∈ rest, isBlank c) : Spells rest ts ↔ ts = [] := by
  induction rest with
  | nil => exact spells_nil_iff
  | cons c rest ih =>
    obtain ⟨hc, hrest⟩ := List.forall_mem_cons.mp h
    rw [spells_blank_iff hc, ih hrest]

/-- A text that spells tokens is cut between two of them or behind a backslash. -/
theorem Spells.before_cases (h : Spells (text ++ rest) ts) :
    (∃ us, Spells text us) ∨ ∃ before us, text = before ++ ['\\'] ∧ Spells before us := by
  -- By the cases of the tokens: what comes first stands in front either way.
  fun_induction tokens? text generalizing ts with
  | case1 => exact .inl ⟨[], .nil⟩
  | case2 => exact .inr ⟨[], [], rfl, .nil⟩
  | case3 c text hc ih =>
    obtain ⟨vs, hvs, -⟩ := (spells_escaped_iff hc).mp h
    rcases ih hvs with ⟨us, hus⟩ | ⟨before, us, rfl, hus⟩
    · exact .inl ⟨_, .escaped hc hus⟩
    · exact .inr ⟨_ :: _ :: before, _, rfl, .escaped hc hus⟩
  | case4 c text hc =>
    obtain ⟨d, rest, e, hd⟩ := exists_special_of_spells h
    cases e
    exact absurd hd hc
  | case5 c text _ _ hc ih =>
    rcases ih ((spells_blank_iff hc).mp h) with ⟨us, hus⟩ | ⟨before, us, rfl, hus⟩
    · exact .inl ⟨_, .blank hc hus⟩
    · exact .inr ⟨_ :: before, _, rfl, .blank hc hus⟩
  | case6 c text hend hmore hc ih =>
    have hc : isBlank c = false := by simpa using hc
    have hne := ne_backslash hend hmore
    obtain ⟨vs, hvs, -⟩ := (spells_plain_iff hc hne).mp h
    rcases ih hvs with ⟨us, hus⟩ | ⟨before, us, rfl, hus⟩
    · exact .inl ⟨_, .plain hc hne hus⟩
    · exact .inr ⟨_ :: before, _, rfl, .plain hc hne hus⟩

/-- The tokens of both parts, or a letter between them the backslash of which ends the
    first part. -/
theorem Spells.append_cases (h : Spells (text ++ rest) ts) :
    (∃ us vs, Spells text us ∧ Spells rest vs ∧ us ++ vs = ts) ∨
    ∃ before us c after vs, text = before ++ ['\\'] ∧ rest = c :: after ∧ Spells before us ∧
      Spells after vs ∧ us ++ .letter c :: vs = ts := by
  rcases h.before_cases with ⟨us, hus⟩ | ⟨before, us, rfl, hus⟩
  · obtain ⟨vs, hvs, e⟩ := hus.exists_of_append h
    exact .inl ⟨us, vs, hus, hvs, e⟩
  · rw [List.append_assoc] at h
    obtain ⟨ws, hws, e⟩ := hus.exists_of_append h
    obtain ⟨c, after, hrest, hc⟩ := exists_special_of_spells hws
    cases hrest
    obtain ⟨vs, hvs, rfl⟩ := (spells_escaped_iff hc).mp hws
    exact .inr ⟨before, us, c, after, vs, rfl, rfl, hus, hvs, e⟩

/-! ## The last token -/

/-- The last token is a white-space letter. -/
def EndsInBlankLetter (text : List Char) : Prop :=
  ∃ ts c, isBlank c ∧ Spells text (ts ++ [.letter c])

theorem eq_of_ofChar_eq_letter {d : Char} (h : Token.ofChar d = .letter c) : d = c := by
  unfold Token.ofChar at h
  split at h <;> first | exact Token.letter.inj h | cases h

theorem eq_of_spells_singleton (hc : isBlank c = false) (h : Spells [c] ts) : ts = [.ofChar c] := by
  cases h with
  | blank hb =>
    rw [hc] at hb
    cases hb
  | plain _ _ h => rw [spells_nil_iff.mp h]

/-- The last token of a text stands at its end, if that is not white space. -/
theorem not_endsInBlankLetter (h : ∀ c ∈ text.getLast?, isBlank c = false) :
    ¬EndsInBlankLetter text := by
  intro ⟨ts, c, hc, hs⟩
  rcases List.eq_nil_or_concat text with rfl | ⟨init, d, rfl⟩
  · simpa using spells_nil_iff.mp hs
  rw [List.concat_eq_append] at h hs
  have hd := h d (by simp)
  suffices e : d = c by
    rw [← e, hd] at hc
    cases hc
  rcases hs.append_cases with ⟨us, vs, -, hvs, e⟩ | ⟨_, us, c', after, vs, -, hcut, -, hvs, e⟩
  · rw [eq_of_spells_singleton hd hvs] at e
    exact eq_of_ofChar_eq_letter (by simpa using e : us = ts ∧ Token.ofChar d = .letter c).2
  · cases hcut
    rw [spells_nil_iff.mp hvs] at e
    exact (by simpa using e : us = ts ∧ d = c).2

/-! ## Reading without it -/

/-- A text that ends in a backslash without its letter is refused where it ends. -/
theorem parse_append_backslash (hs : Spells before ts) (hr : Reader.start.run? ts = some r) :
    parse (before ++ ['\\']) =
      .error (.at (before ++ ['\\']) (byteLength (before ++ ['\\'])) [.specialLetter]) := by
  have hlen : byteLength (before ++ ['\\']) = 0 + byteLength before + 1 := by
    rw [byteLength_append, Nat.zero_add]
    rfl
  rw [parse_eq_read, hs.read_append hr, hlen]
  rfl

/-- What is left of a text that is read, without its white space: all of its tokens, or all
    but a white-space letter, the backslash of which ends it. -/
theorem trimEnd_cases (hs : Spells text ts) : Spells (trimEnd text) ts ∨
    ∃ before us c, trimEnd text = before ++ ['\\'] ∧ Spells before us ∧ isBlank c ∧
      us ++ [.letter c] = ts := by
  obtain ⟨rest, htext, hrest⟩ := trimEnd_append text
  rw [htext] at hs
  rcases hs.append_cases with ⟨us, vs, hus, hvs, rfl⟩ |
    ⟨before, us, c, after, vs, htrim, rfl, hus, hvs, rfl⟩
  · rw [(spells_blanks_iff hrest).mp hvs, List.append_nil]
    exact .inl hus
  · obtain ⟨hc, hrest⟩ := List.forall_mem_cons.mp hrest
    rw [(spells_blanks_iff hrest).mp hvs]
    exact .inr ⟨before, us, c, htrim, hus, hc, rfl⟩

theorem parse_trimEnd (h : parse text = .ok e) (hblank : ¬EndsInBlankLetter text) :
    parse (trimEnd text) = .ok e := by
  obtain ⟨ts, hts, hd⟩ := means_of_parse_eq_ok h
  rcases trimEnd_cases hts with htrim | ⟨before, us, c, -, -, hc, rfl⟩
  · exact Means.parse_eq_ok ⟨ts, htrim, hd⟩
  · exact absurd ⟨us, c, hc, hts⟩ hblank

theorem parse_trimEnd_eq_error (h : parse text = .ok e) (hblank : EndsInBlankLetter text) :
    parse (trimEnd text) =
      .error (.at (trimEnd text) (byteLength (trimEnd text)) [.specialLetter]) := by
  obtain ⟨ts, hts, r, hr, -⟩ := parse_eq_ok_iff_run.mp h
  rcases trimEnd_cases hts with htrim | ⟨before, us, c, htrim, hus, -, rfl⟩
  · obtain ⟨us, c, hc, hs⟩ := hblank
    rw [hts.unique hs] at htrim
    exact absurd ⟨us, c, hc, htrim⟩ (not_endsInBlankLetter fun _ => isBlank_of_getLast?_trimEnd)
  · rw [Reader.run?_append, Option.bind_eq_some_iff] at hr
    obtain ⟨r', hr', -⟩ := hr
    rw [htrim]
    exact parse_append_backslash hus hr'

end Infix

/-! ## Postfix text -/

namespace Postfix

variable {text rest : List Char} {e : Regex} {ls ms : List Lexeme} {ts : List (Token × Span)}
  {c : Char}

/-- White space that is no separator is an unknown symbol. -/
theorem ofChar?_of_isBlank (hc : isBlank c) : Token.ofChar? c = none := by
  unfold Token.ofChar?
  split
  · rename_i hletter
    have hletter := toNat_of_lettered hletter
    rw [isBlank_eq_false (by omega) (by omega)] at hc
    cases hc
  · split <;> first | rfl | exact absurd hc (by decide)

/-- White space that is read is skipped. -/
theorem lexemes_of_blanks (hrest : ∀ c ∈ rest, isBlank c) {offset : Nat}
    (h : tokens (lexemes offset rest) = .ok ts) : lexemes offset rest = [] := by
  induction rest generalizing offset with
  | nil => rfl
  | cons c rest ih =>
    obtain ⟨hc, hrest⟩ := List.forall_mem_cons.mp hrest
    rw [lexemes] at h ⊢
    by_cases hskip : isSkipped c
    · rw [if_pos hskip] at h ⊢
      exact ih hrest h
    · rw [if_neg hskip, ofChar?_of_isBlank hc, tokens] at h
      cases h

theorem exists_tokens_of_append (h : tokens (ls ++ ms) = .ok ts) : ∃ us, tokens ms = .ok us := by
  induction ls generalizing ts with
  | nil => exact ⟨ts, h⟩
  | cons l ls ih =>
    obtain ⟨_ | t, span⟩ := l
    · cases h
    · rw [List.cons_append, tokens] at h
      obtain ⟨us, hus, -⟩ := Checked.map_eq_ok.mp h
      exact ih hus

theorem lex_trimEnd (h : lex text = .ok ts) : lex (trimEnd text) = .ok ts := by
  obtain ⟨rest, htext, hrest⟩ := trimEnd_append text
  rw [lex, htext, lexemes_append] at h
  obtain ⟨us, hus⟩ := exists_tokens_of_append h
  rw [lexemes_of_blanks hrest hus, List.append_nil] at h
  exact h

theorem parse_eq_ok_iff_pushAll :
    parse text = .ok e ↔ ∃ ts, lex text = .ok ts ∧ pushAll [] ts = .ok [e] := by
  unfold parse
  constructor
  · intro h
    split at h
    · cases h
    · rename_i ts hts
      refine ⟨ts, hts, ?_⟩
      split at h <;> cases h
      assumption
  · intro ⟨ts, hts, hpush⟩
    simp only [hts, hpush]

theorem parse_trimEnd (h : parse text = .ok e) : parse (trimEnd text) = .ok e := by
  obtain ⟨ts, hts, hpush⟩ := parse_eq_ok_iff_pushAll.mp h
  exact parse_eq_ok_iff_pushAll.mpr ⟨ts, lex_trimEnd hts, hpush⟩

end Postfix

end RegularLang
