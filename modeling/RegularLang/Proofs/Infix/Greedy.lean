/-
  RegularLang.Proofs.Infix.Greedy — the rules that are tried in order read a text as the
  reader does that never tries twice: with the same regex, or refused at the same place with
  the same list (`parse_eq_read`).

  From the atoms up, each rule has one of the outcomes for every place, by induction on the
  depth of the groups and on the rounds of the loops. A `(` that is tried a second time begins
  further back than what the first attempt has missed. A loop that ends because its last round
  was refused matches too early, and none of what may follow it is there.
-/

import RegularLang.Proofs.Infix.Outcome

namespace RegularLang.Infix

open Peg Input

variable {c : Char} {rest text : List Char} {i j k : Input} {f f' : Failures} {t : Terminal}
  {ts : List Terminal} {o n m : Nat} {e : Regex} {g : Group} {r : Reader}

/-! ## What the reader allows -/

/-- What an atom without parentheses is looked for with. -/
def symbolTerminals : List Terminal := [.nothing, .emptyWord, .plainLetter, .backslash]

/-- What a rule looks for that begins with an atom. A parenthesis is tried twice. -/
def atomTerminals : List Terminal := .openGroup :: .openGroup :: symbolTerminals

/-- What has been looked for behind a sequence. -/
def afterSequence (t : Terminal) : Bool := t ∈ atomTerminals || t = .star

/-- What has been looked for behind a sum. -/
def afterSum (t : Terminal) : Bool := t = .union || afterSequence t

namespace Group

theorem eq_of_value? (h : g.value? = some e) : g.hasUnit = true ∧ g.closed? = some e := by
  obtain ⟨alternatives, _ | ⟨u, units⟩⟩ := g
  · cases h
  · refine ⟨rfl, ?_⟩
    have hfresh : isFresh ⟨alternatives, u :: units⟩ = false := Bool.and_false _
    rw [closed?, hfresh]
    exact h

theorem value?_of_alternatives {found : List Regex} (hunits : g.units ≠ [])
    (hfound : .product g.units.reverse :: g.alternatives = found ++ [e]) :
    g.value? = some (.unionOf (e :: found.reverse)) := by
  obtain ⟨alternatives, _ | ⟨u, units⟩⟩ := g
  · exact absurd rfl hunits
  · show some (Regex.unionOf (_ :: alternatives).reverse) = _
    rw [hfound, List.reverse_append]
    rfl

end Group

namespace Reader

/-- The reader with other units. -/
def withUnits (r : Reader) (units : List Regex) : Reader :=
  { r with group := { r.group with units } }

/-- The reader behind a `+`. -/
def nextAlternative (r : Reader) : Reader :=
  ⟨⟨.product r.group.units.reverse :: r.group.alternatives, []⟩, r.outer⟩

theorem take?_union (h : r.group.units ≠ []) : r.take? .union = some r.nextAlternative := by
  obtain ⟨⟨alternatives, _ | ⟨u, units⟩⟩, outer⟩ := r
  · exact absurd rfl h
  · rfl

theorem allows_in_group (h : g.value? = some e) (g' : Group) (outer : List Group) :
    allows ⟨g, g' :: outer⟩ = fun t => t = .closeGroup || afterSum t := by
  obtain ⟨hunit, hclosed⟩ := Group.eq_of_value? h
  funext t
  cases t <;> simp [allows, finish?, close?, afterSum, afterSequence, atomTerminals,
    symbolTerminals, hunit, hclosed]

theorem allows_at_top (h : g.value? = some e) :
    allows ⟨g, []⟩ = fun t => t = .endOfText || afterSum t := by
  obtain ⟨hunit, hclosed⟩ := Group.eq_of_value? h
  funext t
  cases t <;> simp [allows, finish?, close?, afterSum, afterSequence, atomTerminals,
    symbolTerminals, h, hunit]

theorem allows_of_units_eq_nil (h : r.group.units = []) :
    r.allows = fun t => t ∈ atomTerminals || (t = .closeGroup && r.close?.isSome) := by
  obtain ⟨⟨alternatives, _ | ⟨u, units⟩⟩, outer⟩ := r
  · funext t
    cases t <;> simp [allows, finish?, Group.hasUnit, Group.value?, Group.alternative?,
      atomTerminals, symbolTerminals]
  · cases h

/-- Without a unit, nothing but an atom may come next, and the end of an empty group. -/
theorem read_of_noAtom (hi : i.NoAtom) (hunits : r.group.units = [])
    (hclose : ')' ∈ i.rest.head? → r.close? = none) :
    r.read i.offset i.rest = .error ⟨i.offset, r.allows⟩ := by
  obtain ⟨⟨alternatives, _ | ⟨u, units⟩⟩, outer⟩ := r
  · obtain ⟨o, _ | ⟨c, rest⟩⟩ := i
    · cases outer <;> rfl
    · have hc := hi c rfl
      simp only [List.mem_cons, List.not_mem_nil, or_false] at hc
      rcases hc with rfl | rfl | rfl | rfl
      · exact read_of_refused (by decide) (by decide) (hclose rfl)
      · exact read_of_refused (by decide) (by decide) rfl
      · exact read_of_refused (by decide) (by decide) rfl
      · exact read_of_refused (by decide) (by decide) rfl
  · cases hunits

theorem read_of_noAtom_of_open (hi : i.NoAtom) (hunits : r.group.units = [])
    (hclose : r.close? = none) :
    r.read i.offset i.rest = .error ⟨i.offset, fun t => t ∈ atomTerminals⟩ := by
  rw [read_of_noAtom hi hunits fun _ => hclose, allows_of_units_eq_nil hunits, hclose]
  simp only [Option.isSome_none, Bool.and_false, Bool.or_false]

theorem read_nextAlternative (hi : i.NoAtom) :
    r.nextAlternative.read i.offset i.rest = .error ⟨i.offset, fun t => t ∈ atomTerminals⟩ := by
  have hclose : r.nextAlternative.close? = none := by
    obtain ⟨g, _ | ⟨g', outer⟩⟩ := r <;> rfl
  exact read_of_noAtom_of_open hi rfl hclose

end Reader

open Reader

namespace Rule

variable {p : Peg Regex}

/-! ## Atoms -/

theorem symbol_of_absent (h : ∀ t ∈ symbolTerminals, ∀ c ∈ i.rest.head?, t.covers c = false)
    (f : Failures) : symbol i f = (none, f.noteAll i.offset symbolTerminals) := by
  have hone (t : Terminal) (ht : t ∈ symbolTerminals) (f : Failures) :
      one t i f = (none, f.note i.offset t) := one_of_not_covers (h t ht) f
  have hletter (f : Failures) :
      letter i f = (none, (f.note i.offset .plainLetter).note i.offset .backslash) :=
    (orElse_of_fail (hone .plainLetter (by decide) f)).trans
      (bind_of_fail (hone .backslash (by decide) _))
  exact (orElse_of_fail (bind_of_fail (hone .nothing (by decide) f))).trans
    ((orElse_of_fail (bind_of_fail (hone .emptyWord (by decide) _))).trans
      (bind_of_fail (hletter _)))

theorem covers_eq_false_of_not_special (hc : isSpecial c = false)
    (ht : t ∈ [Terminal.openGroup, .nothing, .emptyWord, .backslash]) : t.covers c = false := by
  refine Bool.eq_false_iff.mpr fun h => ?_
  simp only [List.mem_cons, List.not_mem_nil, or_false] at ht
  have hspecial : isSpecial c = true := by
    rcases ht with rfl | rfl | rfl | rfl <;>
      simp only [Terminal.covers, Bool.or_eq_true, decide_eq_true_eq] at h
    · rw [h]; decide
    · rw [h]; decide
    · rcases h with h | h <;> rw [h] <;> decide
    · rw [h]; decide
  rw [hc] at hspecial
  cases hspecial

/-- What may come next, if it is not white space. -/
theorem char_cases (hc : isBlank c = false) : isSpecial c = false ∨ c = '\\' ∨ c = '∅' ∨
    (c = 'ε' ∨ c = '1') ∨ c = '(' ∨ c ∈ [')', '*', '+', '|'] := by
  cases hs : isSpecial c with
  | false => exact .inl rfl
  | true =>
    rw [isSpecial, hc, Bool.or_false, decide_eq_true_eq] at hs
    simp only [List.mem_cons, List.not_mem_nil, or_false] at hs ⊢
    rcases hs with rfl | rfl | rfl | rfl | rfl | rfl | rfl | rfl | rfl <;> decide

/-- A special character after a backslash is a letter, and nothing else may come there. -/
theorem special_outcome (o : Nat) (rest : List Char) (hf : f.offset ≤ o) :
    let i : Input := ⟨o, '\\' :: rest⟩
    Outcome ts r i f' (fun e j f => TakesUnit r i e j ∧ f.offset ≤ o)
      ((do return .char (← one .specialLetter) : Peg Regex) ⟨o + 1, rest⟩ f) := by
  intro i
  by_cases h : ∀ c ∈ rest.head?, isSpecial c = false
  · have hone : one .specialLetter ⟨o + 1, rest⟩ f =
        (none, ⟨o + 1, fun t => t = .specialLetter⟩) := by
      rw [one_of_not_covers (t := .specialLetter) h, Failures.note_of_gt (Nat.lt_succ_of_le hf)]
    rw [bind_of_fail hone]
    exact .refused (read_broken h) (Nat.lt_succ_self o) ⟨'\\', rfl, by simp⟩
  · obtain _ | ⟨c, rest⟩ := rest
    · exact absurd (by simp) h
    have hc : isSpecial c := by simpa using h
    have hprecedes := (precedes_cons o '\\' (c :: rest)).trans (precedes_cons (o + 1) c rest)
    rw [bind_of_match (one_of_covers (t := .specialLetter) hc (o + 1) rest f)]
    exact .matched ⟨⟨.of_precedes hprecedes (read_escaped hc), hprecedes⟩, hf⟩

theorem symbol_backslash (o : Nat) (rest : List Char) (f : Failures) :
    symbol ⟨o, '\\' :: rest⟩ f = (do return .char (← one .specialLetter) : Peg Regex)
      ⟨o + 1, rest⟩ (((f.note o .nothing).note o .emptyWord).note o .plainLetter) := by
  have hletter (f : Failures) :
      letter ⟨o, '\\' :: rest⟩ f = one .specialLetter ⟨o + 1, rest⟩ (f.note o .plainLetter) :=
    (orElse_of_fail (one_of_not_covers (t := .plainLetter) (by simp; decide) f)).trans
      (bind_of_match (one_of_covers (t := .backslash) (by decide) o rest _))
  refine (orElse_of_fail (bind_of_fail (one_of_not_covers (t := .nothing) (by simp; decide) f))).trans
    ((orElse_of_fail (bind_of_fail (one_of_not_covers (t := .emptyWord) (by simp; decide) _))).trans
      ?_)
  simp only [bind, hletter]

theorem symbol_plain (hc : isSpecial c = false) (o : Nat) (rest : List Char) (f : Failures) :
    symbol ⟨o, c :: rest⟩ f =
      (some (.char c, ⟨o + c.utf8Size, rest⟩), (f.note o .nothing).note o .emptyWord) := by
  have hone (t : Terminal) (ht : t ∈ [Terminal.openGroup, .nothing, .emptyWord, .backslash])
      (f : Failures) : one t ⟨o, c :: rest⟩ f = (none, f.note o t) :=
    one_of_not_covers (fun d hd => Option.some.inj hd ▸ covers_eq_false_of_not_special hc ht) f
  have hcovers : Terminal.covers .plainLetter c := by rw [Terminal.covers, hc]; rfl
  exact (orElse_of_fail (bind_of_fail (hone .nothing (by decide) f))).trans
    ((orElse_of_fail (bind_of_fail (hone .emptyWord (by decide) _))).trans
      (bind_of_match (orElse_of_match (one_of_covers hcovers o rest _))))

/-- One symbol is one unit. -/
theorem symbol_outcome (hi : i.Solid) (hopen : ∀ c ∈ i.rest.head?, c ≠ '(')
    (hf : f.offset ≤ i.offset) :
    Outcome symbolTerminals r i f (fun e j f' => TakesUnit r i e j ∧ f'.offset ≤ i.offset)
      (symbol i f) := by
  obtain ⟨o, _ | ⟨c, rest⟩⟩ := i
  · rw [symbol_of_absent (by simp)]
    exact .absent (by simp [NoAtom])
  have hblank : isBlank c = false := hi c rfl
  have hnote {f : Failures} (hf : f.offset ≤ o) (t : Terminal) : (f.note o t).offset ≤ o :=
    Failures.offset_note_le hf t
  rcases char_cases hblank with hc | rfl | rfl | hc | rfl | hc
  · have hne : c ≠ '\\' := by
      rintro rfl
      cases hc
    have htake : r.take? (.ofChar c) = some (r.addUnit (.char c)) := by
      rw [Token.ofChar_of_not_special hc]
      rfl
    rw [symbol_plain hc]
    exact .matched ⟨.of_take? hblank hne htake o rest, hnote (hnote hf _) _⟩
  · rw [symbol_backslash]
    exact special_outcome o rest (hnote (hnote (hnote hf _) _) _)
  · have hsymbol : symbol ⟨o, '∅' :: rest⟩ f = (some (.zero, ⟨o + '∅'.utf8Size, rest⟩), f) :=
      orElse_of_match (bind_of_match (one_of_covers (by decide) o rest f))
    rw [hsymbol]
    exact .matched ⟨.of_take? hblank (by decide) rfl o rest, hf⟩
  · have hcovers : Terminal.covers .nothing c = false ∧ Terminal.covers .emptyWord c := by
      rcases hc with rfl | rfl <;> decide
    have hsymbol : symbol ⟨o, c :: rest⟩ f =
        (some (.eps, ⟨o + c.utf8Size, rest⟩), f.note o .nothing) :=
      (orElse_of_fail (bind_of_fail
        (one_of_not_covers (fun d hd => Option.some.inj hd ▸ hcovers.1) f))).trans
        (orElse_of_match (bind_of_match (one_of_covers hcovers.2 o rest _)))
    rw [hsymbol]
    refine .matched ⟨?_, hnote hf _⟩
    rcases hc with rfl | rfl
    · exact .of_take? hblank (by decide) rfl o rest
    · exact .of_take? hblank (by decide) rfl o rest
  · exact absurd rfl (hopen '(' rfl)
  · rw [symbol_of_absent]
    · exact .absent fun d hd => Option.some.inj hd ▸ hc
    · intro t ht d hd
      obtain rfl := Option.some.inj hd
      simp only [symbolTerminals, List.mem_cons, List.not_mem_nil, or_false] at ht hc
      rcases hc with rfl | rfl | rfl | rfl <;> rcases ht with rfl | rfl | rfl | rfl <;> decide

/-! ## Groups -/

/-- What comes between `i` and `j` fills the group, and nothing that goes on with it is at `j`. -/
structure FillsGroup (r : Reader) (i : Input) (e : Regex) (j : Input) (f : Failures) : Prop where
  exists_group : ∃ g : Group, g.value? = some e ∧ Continues r i ⟨g, r.outer⟩ j
  ends : ∀ c ∈ j.rest.head?, c = ')'
  failures_eq : f = ⟨j.offset, afterSum⟩

/-- The rule gets all sums right with less than `n` characters to go. -/
def ReadsSums (p : Peg Regex) (n : Nat) : Prop :=
  ∀ outer i f, i.rest.length < n → i.Solid → f.offset ≤ i.offset →
    Outcome atomTerminals ⟨.start, outer⟩ i f (FillsGroup ⟨.start, outer⟩ i) (p i f) ∨
      EndsEarly ['(', '\\', '+', '|'] ⟨.start, outer⟩ i (p i f)

theorem one_openGroup (o : Nat) (rest : List Char) (f : Failures) :
    one .openGroup ⟨o, '(' :: rest⟩ f = (some ('(', ⟨o + '('.utf8Size, rest⟩), f) :=
  one_of_covers (t := .openGroup) (by decide) o rest f

/-- The end of a group that a sum fills. -/
theorem closeGroup_cases (hread : Continues r i ⟨.start, r.group :: r.outer⟩ k) (hik : i.Precedes k)
    (hfills : FillsGroup ⟨.start, r.group :: r.outer⟩ k e j f) :
    let result := (do let _ ← one .closeGroup; return e : Peg Regex) j f
    (∃ j', result = (some (e, j'), f) ∧ TakesUnit r i e j' ∧ f.offset < j'.offset) ∨
      ∃ f', result = (none, f') ∧ r.read i.offset i.rest = .error f' ∧ i.offset < f'.offset := by
  intro result
  obtain ⟨⟨g, hg, hsum⟩, hends, rfl⟩ := hfills
  obtain ⟨o, _ | ⟨c, rest⟩⟩ := j
  · refine .inr ⟨_, bind_of_fail (one_of_not_covers (t := .closeGroup) (by simp) _), ?_, ?_⟩
    · have hend : Reader.read ⟨g, r.group :: r.outer⟩ o [] =
          .error ⟨o, Reader.allows ⟨g, r.group :: r.outer⟩⟩ := rfl
      rw [hread.read_eq, hsum.read_eq, hend, allows_in_group hg, Failures.note_self]
    · rw [Failures.note_self]
      exact (hsum.precedes hik).offset_lt
  · obtain rfl := hends c rfl
    have hmatch := one_of_covers (t := .closeGroup) (c := ')') (by decide) o rest
    refine .inl ⟨_, bind_of_match (hmatch _), ?_, (precedes_cons o ')' rest).offset_lt⟩
    have htake : Reader.take? ⟨g, r.group :: r.outer⟩ (.ofChar ')') = some (r.addUnit e) := by
      show Option.map _ g.closed? = _
      rw [(Group.eq_of_value? hg).2]
      rfl
    have hclosed := Continues.of_take? (by decide) (by decide) htake o rest
    exact ⟨hread.trans (hsum.trans hclosed), hclosed.precedes (hsum.precedes hik)⟩

/-- Behind a parenthesis with which the group does not end again. -/
theorem group_cases (hp : ReadsSums p n) (hn : rest.length < n)
    (hk : SkipsTo ⟨o + '('.utf8Size, rest⟩ k)
    (hblanks : ∀ f, blanks m ⟨o + '('.utf8Size, rest⟩ f = (some ((), k), f))
    (hclose : ∀ c ∈ k.rest.head?, c ≠ ')') :
    let i : Input := ⟨o, '(' :: rest⟩
    let f : Failures := ⟨k.offset, fun t => t = .closeGroup⟩
    (∃ e j f', group m p i f = (some (e, j), f') ∧ TakesUnit r i e j ∧ f'.offset < j.offset) ∨
      ∃ f', group m p i f = (none, f') ∧ r.read i.offset i.rest = .error f' ∧
        i.offset < f'.offset := by
  intro i f
  have hik : i.Precedes k := hk.precedes (precedes_cons o '(' rest)
  have hread : Continues r i ⟨.start, r.group :: r.outer⟩ k :=
    (Continues.of_take? (by decide) (by decide) rfl o rest).trans (hk.continues _)
  have hlength : k.rest.length < n := Nat.lt_of_le_of_lt (hk.continues r).length_le hn
  have houtcome := hp (r.group :: r.outer) k f hlength hk.solid (Nat.le_refl _)
  rw [group, bind_of_match (one_openGroup o rest f), bind_of_match (hblanks f), hread.read_eq]
  generalize hresult : p k f = result at houtcome
  rcases houtcome with houtcome | hearly
  · cases houtcome with
    | @matched e j f' hfills =>
      have hsolid : j.Solid := fun c hc => hfills.ends c hc ▸ by decide
      rw [bind_of_match hresult, bind_of_match (blanks_of_solid hsolid m f')]
      rcases closeGroup_cases hread hik hfills with ⟨j', hclose, htakes, hlt⟩ | hrefused
      · exact .inl ⟨e, j', f', hclose, htakes, hlt⟩
      · exact .inr (hread.read_eq ▸ hrefused)
    | absent hnone =>
      refine .inr ⟨_, bind_of_fail hresult, ?_, ?_⟩
      · rw [read_of_noAtom hnone rfl fun h => absurd rfl (hclose _ h), Failures.noteAll_self,
          allows_of_units_eq_nil rfl]
        exact congrArg (fun s => Except.error (Failures.mk k.offset s))
          (funext fun t => congrArg _ (Bool.and_true _))
      · rw [Failures.noteAll_self]
        exact hik.offset_lt
    | refused hrefused hlt hopen =>
      exact .inr ⟨_, bind_of_fail hresult, hrefused, Nat.lt_trans hik.offset_lt hlt⟩
  · obtain ⟨hrefused, hkj, hlt, hstart⟩ := hearly
    have hle := Nat.le_trans hkj (Nat.le_of_lt hlt)
    refine .inr ⟨_, ?_, hrefused, Nat.lt_of_lt_of_le hik.offset_lt hle⟩
    have hsolid := hstart.eq_false (p := isBlank) (by decide)
    have hcovers := hstart.eq_false (p := Terminal.covers .closeGroup) (by decide)
    rw [bind_of_match hresult, bind_of_match (blanks_of_solid hsolid m _),
      bind_of_fail (one_of_not_covers hcovers _), Failures.note_of_lt hlt]

/-- A group is one unit, also the empty one, with which nothing else is tried. -/
theorem group_outcome (hp : ReadsSums p n) (hn : rest.length < n) (hm : rest.length < m)
    (hf : f.offset ≤ o) :
    Outcome ts r ⟨o, '(' :: rest⟩ f'
      (fun e j f => TakesUnit r ⟨o, '(' :: rest⟩ e j ∧ f.offset < j.offset)
      (atom m p ⟨o, '(' :: rest⟩ f) := by
  obtain ⟨k, hk, hblanks⟩ := exists_blanks (i := ⟨o + '('.utf8Size, rest⟩) hm
  have hik := hk.precedes (precedes_cons o '(' rest)
  by_cases hclose : ∀ c ∈ k.rest.head?, c ≠ ')'
  · have hempty : emptyGroup m ⟨o, '(' :: rest⟩ f =
        (none, ⟨k.offset, fun t => t = .closeGroup⟩) := by
      rw [← Failures.note_of_gt (Nat.lt_of_le_of_lt hf hik.offset_lt)]
      refine (bind_of_match (one_openGroup o rest f)).trans ((bind_of_match (hblanks f)).trans ?_)
      have hcovers : ∀ c ∈ k.rest.head?, Terminal.covers .closeGroup c = false :=
        fun c hc => decide_eq_false (hclose c hc)
      exact bind_of_fail (one_of_not_covers hcovers f)
    rw [atom, orElse_of_fail hempty]
    rcases group_cases (r := r) hp hn hk hblanks hclose with
      ⟨e, j, f', hgroup, htakes, hlt⟩ | ⟨f', hgroup, hread, hlt⟩
    · rw [orElse_of_match hgroup]
      exact .matched ⟨htakes, hlt⟩
    · have hcovers : ∀ t ∈ symbolTerminals, ∀ c ∈ ('(' :: rest).head?, t.covers c = false := by
        simp [symbolTerminals, Terminal.covers]
        decide
      rw [orElse_of_fail hgroup, symbol_of_absent hcovers, Failures.noteAll_of_lt hlt]
      exact .refused hread hlt ⟨'(', rfl, by simp⟩
  · obtain ⟨o', _ | ⟨c, rest'⟩⟩ := k
    · exact absurd (by simp) hclose
    obtain rfl : c = ')' := by simpa using hclose
    have hempty : emptyGroup m ⟨o, '(' :: rest⟩ f =
        (some (.zero, ⟨o' + ')'.utf8Size, rest'⟩), f) :=
      (bind_of_match (one_openGroup o rest f)).trans ((bind_of_match (hblanks f)).trans
        (bind_of_match (one_of_covers (t := .closeGroup) (by decide) o' rest' f)))
    have hclosed : Continues ⟨.start, r.group :: r.outer⟩ ⟨o', ')' :: rest'⟩ (r.addUnit .zero)
        ⟨o' + ')'.utf8Size, rest'⟩ := .of_take? (by decide) (by decide) rfl o' rest'
    have hread : Continues r ⟨o, '(' :: rest⟩ (r.addUnit .zero) ⟨o' + ')'.utf8Size, rest'⟩ :=
      (Continues.of_take? (by decide) (by decide) rfl o rest).trans ((hk.continues _).trans hclosed)
    have hprecedes := hclosed.precedes hik
    rw [atom, orElse_of_match hempty]
    exact .matched ⟨⟨hread, hprecedes⟩, Nat.lt_of_le_of_lt hf hprecedes.offset_lt⟩

theorem atom_outcome (hp : ReadsSums p n) (hn : i.rest.length ≤ n) (hi : i.Solid)
    (hf : f.offset ≤ i.offset) :
    Outcome atomTerminals r i f (fun e j f' => TakesUnit r i e j ∧ f'.offset < j.offset)
      (atom (n + 1) p i f) := by
  by_cases hopen : ∀ c ∈ i.rest.head?, c ≠ '('
  · have hone (f : Failures) : one .openGroup i f = (none, f.note i.offset .openGroup) :=
      one_of_not_covers (t := .openGroup) (fun c hc => decide_eq_false (hopen c hc)) f
    have hatom : atom (n + 1) p i f =
        symbol i ((f.note i.offset .openGroup).note i.offset .openGroup) :=
      (orElse_of_fail (bind_of_fail (hone f))).trans (orElse_of_fail (bind_of_fail (hone _)))
    have houtcome := symbol_outcome (r := r) hi hopen
      (Failures.offset_note_le (Failures.offset_note_le hf .openGroup) .openGroup)
    rw [hatom]
    generalize symbol i _ = result at houtcome
    cases houtcome with
    | matched h => exact .matched ⟨h.1, Nat.lt_of_le_of_lt h.2 h.1.precedes.offset_lt⟩
    | absent h =>
      rw [← Failures.noteAll_cons, ← Failures.noteAll_cons]
      exact .absent h
    | refused hread hlt hstart => exact .refused hread hlt hstart
  · obtain ⟨o, _ | ⟨c, rest⟩⟩ := i
    · exact absurd (by simp) hopen
    obtain rfl : c = '(' := by simpa using hopen
    exact group_outcome hp hn (Nat.lt_succ_of_lt hn) hf

/-! ## Units -/

/-- Stars between `i` and `j` make `e'` of the last unit `e`, and no star comes next. -/
structure TakesStars (r : Reader) (i : Input) (e e' : Regex) (j : Input) : Prop where
  continues : Continues (r.addUnit e) i (r.addUnit e') j
  solid : j.Solid
  noStar : ∀ c ∈ j.rest.head?, c ≠ '*'

/-- The reader takes `e` as one more unit and goes on at `j`, where a further star was looked
    for. -/
structure TakesFactor (r : Reader) (i : Input) (e : Regex) (j : Input) (f : Failures) : Prop
    extends TakesUnit r i e j where
  solid : j.Solid
  noStar : ∀ c ∈ j.rest.head?, c ≠ '*'
  failures_eq : f = ⟨j.offset, fun t => t = .star⟩

theorem closure_starred (e : Regex) (stars : List Char) (c : Char) :
    (starred e stars).closure = starred e (c :: stars) := by
  cases stars with
  | nil => rfl
  | cons => exact Regex.closure_closure e

theorem exists_loop_star (hm : i.rest.length < m) (hn : m ≤ n) (hf : f.offset < i.offset)
    (found : List Char) : ∃ stars k j,
      loop (star n) m found i f = (some (stars, k), ⟨j.offset, fun t => t = .star⟩) ∧
      (∀ f, blanks n k f = (some ((), j), f)) ∧
      TakesStars r i (starred e found) (starred e stars) j := by
  induction m generalizing i f found with
  | zero => exact absurd hm (Nat.not_lt_zero _)
  | succ m ih =>
    obtain ⟨k, hk, hblanks⟩ := exists_blanks (Nat.lt_of_lt_of_le hm hn)
    by_cases hstar : ∀ c ∈ k.rest.head?, c ≠ '*'
    · have hfail : star n i f = (none, ⟨k.offset, fun t => t = .star⟩) := by
        rw [← Failures.note_of_gt (Nat.lt_of_lt_of_le hf (hk.continues r).offset_le)]
        refine (bind_of_match (hblanks f)).trans ?_
        exact one_of_not_covers (t := .star) (fun c hc => decide_eq_false (hstar c hc)) f
      refine ⟨_, i, k, loop_of_fail hfail found, hblanks, ?_, hk.solid, hstar⟩
      rw [starred, starred, List.isEmpty_reverse]
      exact hk.continues _
    · obtain ⟨o, _ | ⟨c, rest⟩⟩ := k
      · exact absurd (by simp) hstar
      obtain rfl : c = '*' := by simpa using hstar
      have hnext := precedes_cons o '*' rest
      have hmatch : star n i f = (some ('*', ⟨o + '*'.utf8Size, rest⟩), f) :=
        (bind_of_match (hblanks f)).trans (one_of_covers (t := .star) (by decide) o rest f)
      have hlength : rest.length < m := Nat.lt_of_lt_of_le hnext.length_lt
        (Nat.le_trans (hk.continues r).length_le (Nat.le_of_lt_succ hm))
      have hoffset : f.offset < o + '*'.utf8Size :=
        Nat.lt_trans (Nat.lt_of_lt_of_le hf (hk.continues r).offset_le) hnext.offset_lt
      obtain ⟨stars, k', j, hloop, hblanks', htakes⟩ :=
        ih (i := ⟨o + '*'.utf8Size, rest⟩) hlength (Nat.le_of_succ_le hn) hoffset ('*' :: found)
      refine ⟨stars, k', j, (loop_of_match hmatch found).trans hloop, hblanks', ?_, htakes.solid,
        htakes.noStar⟩
      have htake : (r.addUnit (starred e found)).take? (.ofChar '*') =
          some (r.addUnit (starred e ('*' :: found))) := by
        rw [← closure_starred]
        rfl
      have hread := (hk.continues _).trans (Continues.of_take? (by decide) (by decide) htake o rest)
      exact hread.trans htakes.continues

theorem factor_outcome (hp : ReadsSums p n) (hn : i.rest.length ≤ n) (hi : i.Solid)
    (hf : f.offset ≤ i.offset) :
    Outcome atomTerminals r i f (TakesFactor r i) (factor (n + 1) p i f) := by
  have houtcome := atom_outcome (r := r) hp hn hi hf
  generalize hatom : atom (n + 1) p i f = result at houtcome
  cases houtcome with
  | @matched e j f' h =>
    obtain ⟨⟨hread, hij⟩, hlt⟩ := h
    have hlength := Nat.lt_succ_of_le (Nat.le_trans (Nat.le_of_lt hij.length_lt) hn)
    obtain ⟨stars, k, j', hloop, hblanks, htakes⟩ :=
      exists_loop_star (r := r) (e := e) hlength (Nat.le_refl _) hlt []
    have hunit : unit (n + 1) p i f =
        (some (starred e stars, k), ⟨j'.offset, fun t => t = .star⟩) :=
      (bind_of_match hatom).trans (bind_of_match hloop)
    have hfactor : factor (n + 1) p i f =
        (some (starred e stars, j'), ⟨j'.offset, fun t => t = .star⟩) :=
      (bind_of_match hunit).trans (bind_of_match (hblanks _))
    rw [hfactor]
    exact .matched ⟨⟨hread.trans htakes.continues, htakes.continues.precedes hij⟩, htakes.solid,
      htakes.noStar, rfl⟩
  | absent h =>
    have hunit : unit (n + 1) p i f = _ := bind_of_fail hatom
    rw [factor, bind_of_fail hunit]
    exact .absent h
  | refused hread hlt hstart =>
    have hunit : unit (n + 1) p i f = _ := bind_of_fail hatom
    rw [factor, bind_of_fail hunit]
    exact .refused hread hlt hstart

/-! ## Sequences -/

/-- Between `i` and `j` the reader comes to have these units, and no further one is there. -/
structure TakesUnits (r : Reader) (i : Input) (units : List Regex) (j : Input) (f : Failures) :
    Prop where
  continues : Continues r i (r.withUnits units) j
  ne_nil : units ≠ []
  ends : ∀ c ∈ j.rest.head?, c ∈ [')', '+', '|']
  failures_eq : f = ⟨j.offset, afterSequence⟩

/-- One factor after the other, from a place where a further star was looked for. -/
theorem loop_factor_outcome (hp : ReadsSums p n) (hn : i.rest.length ≤ n) (hm : i.rest.length < m)
    (hi : i.Solid) (hstar : ∀ c ∈ i.rest.head?, c ≠ '*') (hunits : r.group.units ≠ []) :
    let f : Failures := ⟨i.offset, fun t => t = .star⟩
    (∃ units j f', loop (factor (n + 1) p) m r.group.units i f = (some (units.reverse, j), f') ∧
      TakesUnits r i units j f') ∨
    EndsEarly ['(', '\\'] r i (loop (factor (n + 1) p) m r.group.units i f) := by
  intro f
  induction m generalizing i r with
  | zero => exact absurd hm (Nat.not_lt_zero _)
  | succ m ih =>
    have houtcome := factor_outcome (r := r) (f := f) hp hn hi (Nat.le_refl _)
    generalize hfactor : factor (n + 1) p i f = result at houtcome
    cases houtcome with
    | @matched e j f' h =>
      obtain ⟨⟨hread, hij⟩, hsolid, hnoStar, rfl⟩ := h
      have hlength := Nat.lt_of_lt_of_le hij.length_lt (Nat.le_of_lt_succ hm)
      rw [loop_of_match hfactor]
      rcases ih (r := r.addUnit e) (Nat.le_trans hread.length_le hn) hlength hsolid hnoStar
        (List.cons_ne_nil _ _) with ⟨units, k, f', hloop, htakes⟩ | hearly
      · exact .inl ⟨units, k, f', hloop, hread.trans htakes.continues, htakes.ne_nil, htakes.ends,
          htakes.failures_eq⟩
      · exact .inr (hearly.of_reads hread)
    | absent h =>
      rw [loop_of_fail hfactor, Failures.noteAll_self]
      refine .inl ⟨_, i, _, rfl, .refl r i, hunits, fun c hc => ?_, rfl⟩
      have hmem := h c hc
      simp only [List.mem_cons, List.not_mem_nil, or_false] at hmem ⊢
      exact hmem.imp_right fun hmem => hmem.resolve_left (hstar c hc)
    | refused hread hlt hstart =>
      rw [loop_of_fail hfactor]
      exact .inr ⟨hread, Nat.le_refl _, hlt, hstart⟩

/-- The units behind each other are one alternative of the group. -/
theorem sequence_outcome (hp : ReadsSums p n) (hn : i.rest.length ≤ n) (hi : i.Solid)
    (hf : f.offset ≤ i.offset) (hunits : r.group.units = []) :
    Outcome atomTerminals r i f (fun e j f' => ∃ units : List Regex,
      e = .product units.reverse ∧ TakesUnits r i units j f') (sequence (n + 1) p i f) ∨
    EndsEarly ['(', '\\'] r i (sequence (n + 1) p i f) := by
  have houtcome := factor_outcome (r := r) hp hn hi hf
  generalize hfactor : factor (n + 1) p i f = result at houtcome
  cases houtcome with
  | @matched e j f' h =>
    obtain ⟨⟨hread, hij⟩, hsolid, hnoStar, rfl⟩ := h
    have hgroup : (r.addUnit e).group.units = [e] := congrArg (e :: ·) hunits
    have hloop := loop_factor_outcome (r := r.addUnit e) hp (Nat.le_trans hread.length_le hn)
      (Nat.lt_succ_of_le (Nat.le_trans hread.length_le hn)) hsolid hnoStar (List.cons_ne_nil _ _)
    rw [hgroup] at hloop
    rw [sequence, bind_of_match hfactor]
    rcases hloop with ⟨units, k, f', hloop, htakes⟩ | hearly
    · rw [bind_of_match hloop]
      exact .inl (.matched ⟨units, rfl, hread.trans htakes.continues, htakes.ne_nil, htakes.ends,
        htakes.failures_eq⟩)
    · exact .inr ((hearly.map Regex.product).of_reads hread)
  | absent h =>
    rw [sequence, bind_of_fail hfactor]
    exact .inl (.absent h)
  | refused hread hlt hstart =>
    rw [sequence, bind_of_fail hfactor]
    exact .inl (.refused hread hlt hstart)

/-! ## Sums -/

theorem term_of_closed (hi : ∀ c ∈ i.rest.head?, c = ')') (n : Nat) (p : Peg Regex) :
    term n p i ⟨i.offset, afterSequence⟩ = (none, ⟨i.offset, afterSum⟩) := by
  have hsolid : i.Solid := fun c hc => hi c hc ▸ by decide
  have hone : one .union i ⟨i.offset, afterSequence⟩ = (none, ⟨i.offset, afterSum⟩) := by
    rw [one_of_not_covers (t := .union) fun c hc => hi c hc ▸ by decide, Failures.note_self]
    rfl
  exact (bind_of_match (blanks_of_solid hsolid n _)).trans (bind_of_fail hone)

theorem union_char (hc : c ∈ ['+', '|']) :
    isBlank c = false ∧ c ≠ '\\' ∧ Token.ofChar c = .union ∧ Terminal.covers .union c := by
  simp only [List.mem_cons, List.not_mem_nil, or_false] at hc
  rcases hc with rfl | rfl <;> decide

/-- Behind a `+` the next alternative begins. -/
theorem exists_term (hc : c ∈ ['+', '|']) (hn : rest.length < n) (p : Peg Regex) (o : Nat) :
    ∃ k, SkipsTo ⟨o + c.utf8Size, rest⟩ k ∧
      ∀ f, term n p ⟨o, c :: rest⟩ f = sequence n p k f := by
  obtain ⟨k, hk, hblanks⟩ := exists_blanks (i := ⟨o + c.utf8Size, rest⟩) hn
  obtain ⟨hblank, -, -, hcovers⟩ := union_char hc
  have hsolid : Solid ⟨o, c :: rest⟩ := fun d hd => Option.some.inj hd ▸ hblank
  refine ⟨k, hk, fun f => ?_⟩
  exact (bind_of_match (blanks_of_solid hsolid n f)).trans
    ((bind_of_match (one_of_covers hcovers o rest f)).trans (bind_of_match (hblanks f)))

/-- A loop that goes on where a factor was refused ends there too. -/
theorem loop_term_of_stuck (hi : i.StartsWith ['(', '\\']) (hf : i.offset < f.offset) (n m : Nat)
    (p : Peg Regex) (found : List Regex) :
    loop (term n p) m found i f = (some (found.reverse, i), f) := by
  have hsolid := hi.eq_false (p := isBlank) (by decide)
  have hcovers := hi.eq_false (p := Terminal.covers .union) (by decide)
  cases m with
  | zero => rfl
  | succ m =>
    have hone : one .union i f = (none, f) := by
      rw [one_of_not_covers hcovers, Failures.note_of_lt hf]
    exact loop_of_fail ((bind_of_match (blanks_of_solid hsolid n f)).trans (bind_of_fail hone)) _

/-- One term after the other, from the end of a sequence. The alternatives so far are `e`,
    which came first, and `found`. -/
theorem loop_term_outcome (found : List Regex) (hp : ReadsSums p n) (hn : i.rest.length ≤ n)
    (hm : i.rest.length < m) (hi : ∀ c ∈ i.rest.head?, c ∈ [')', '+', '|'])
    (hunits : r.group.units ≠ [])
    (hfound : .product r.group.units.reverse :: r.group.alternatives = found ++ [e]) :
    let f : Failures := ⟨i.offset, afterSequence⟩
    (∃ es j f', loop (term (n + 1) p) m found i f = (some (es, j), f') ∧
      FillsGroup r i (.unionOf (e :: es)) j f') ∨
    EndsEarly ['(', '\\', '+', '|'] r i (loop (term (n + 1) p) m found i f) := by
  intro f
  induction m generalizing i r found with
  | zero => exact absurd hm (Nat.not_lt_zero _)
  | succ m ih =>
    by_cases hclosed : ∀ c ∈ i.rest.head?, c = ')'
    · rw [loop_of_fail (term_of_closed hclosed (n + 1) p)]
      have hvalue := Group.value?_of_alternatives hunits hfound
      exact .inl ⟨_, i, _, rfl, ⟨r.group, hvalue, .refl r i⟩, hclosed, rfl⟩
    · obtain ⟨o, _ | ⟨c, rest⟩⟩ := i
      · exact absurd (by simp) hclosed
      have hc : c ∈ ['+', '|'] := by
        have hne : c ≠ ')' := by simpa using hclosed
        simpa [hne] using hi c rfl
      obtain ⟨k, hk, hterm⟩ := exists_term hc (Nat.lt_succ_of_lt hn) p o
      have hik : Precedes ⟨o, c :: rest⟩ k := hk.precedes (precedes_cons o c rest)
      have hkn : k.rest.length ≤ n := Nat.le_trans (Nat.le_of_lt hik.length_lt) hn
      have hread : Continues r ⟨o, c :: rest⟩ r.nextAlternative k := by
        obtain ⟨hblank, hne, htoken, -⟩ := union_char hc
        have htake := htoken ▸ Reader.take?_union hunits
        exact (Continues.of_take? hblank hne htake o rest).trans (hk.continues _)
      have hstart : StartsWith ['(', '\\', '+', '|'] ⟨o, c :: rest⟩ :=
        ⟨c, rfl, List.mem_cons_of_mem _ (List.mem_cons_of_mem _ hc)⟩
      have houtcome := sequence_outcome (r := r.nextAlternative) (f := f) hp hkn hk.solid
        (Nat.le_of_lt hik.offset_lt) rfl
      rw [← hterm] at houtcome
      generalize hresult : term (n + 1) p ⟨o, c :: rest⟩ f = result at houtcome
      rcases houtcome with houtcome | hearly
      · cases houtcome with
        | matched h =>
          obtain ⟨units, rfl, hunits', hne, hends, rfl⟩ := h
          have hkm := Nat.lt_of_lt_of_le hik.length_lt (Nat.le_of_lt_succ hm)
          have hfound' := congrArg (.product units.reverse :: ·) hfound
          rw [loop_of_match hresult]
          rcases ih (r := r.nextAlternative.withUnits units) (_ :: found)
            (Nat.le_trans hunits'.length_le hkn) (Nat.lt_of_le_of_lt hunits'.length_le hkm)
            hends hne hfound' with
            ⟨es, j, f', hloop, ⟨g, hg, hreads⟩, hclosed, hf'⟩ | hearly
          · exact .inl ⟨es, j, f', hloop, ⟨g, hg, hread.trans (hunits'.trans hreads)⟩, hclosed, hf'⟩
          · exact .inr (.of_reads (hread.trans hunits') hearly)
        | absent h =>
          rw [loop_of_fail hresult]
          refine .inr ⟨?_, Nat.le_refl _, ?_, hstart⟩
          · rw [hread.read_eq, read_nextAlternative h]
            exact congrArg _ (Failures.noteAll_of_gt hik.offset_lt _ _).symm
          · rw [atomTerminals, Failures.noteAll_of_gt hik.offset_lt]
            exact hik.offset_lt
        | refused hrefused hlt =>
          rw [loop_of_fail hresult]
          exact .inr ⟨hread.read_eq.trans hrefused, Nat.le_refl _, Nat.lt_trans hik.offset_lt hlt,
            hstart⟩
      · obtain ⟨hrefused, hle, hlt, hstuck⟩ := hearly
        rw [loop_of_match hresult, loop_term_of_stuck hstuck hlt]
        exact .inr ⟨hread.read_eq.trans hrefused, Nat.le_trans hread.offset_le hle, hlt,
          hstuck.mono (by simp)⟩

/-- Every sum is read as the reader reads it that never tries twice. -/
theorem readsSums_sum (n : Nat) : ReadsSums (sum n) n := by
  induction n with
  | zero => exact fun _ _ _ h => absurd h (Nat.not_lt_zero _)
  | succ n ih =>
    intro outer i f hn hi hf
    have hn : i.rest.length ≤ n := Nat.le_of_lt_succ hn
    have houtcome := sequence_outcome (r := ⟨.start, outer⟩) ih hn hi hf rfl
    generalize hresult : sequence (n + 1) (sum n) i f = result at houtcome
    rcases houtcome with houtcome | hearly
    · cases houtcome with
      | @matched e j f' h =>
        obtain ⟨units, rfl, hreads, hne, hends, rfl⟩ := h
        have hjn : j.rest.length ≤ n := Nat.le_trans hreads.length_le hn
        have hloop := loop_term_outcome (r := ⟨⟨[], units⟩, outer⟩) [] ih hjn
          (Nat.lt_succ_of_le hjn) hends hne rfl
        rw [sum, bind_of_match hresult]
        rcases hloop with ⟨es, k, f', hloop, ⟨g, hg, hreads'⟩, hclosed, hf'⟩ | hearly
        · rw [bind_of_match hloop]
          exact .inl (.matched ⟨⟨g, hg, hreads.trans hreads'⟩, hclosed, hf'⟩)
        · have hsum := hearly.map fun es => Regex.unionOf (.product units.reverse :: es)
          exact .inr (hsum.of_reads hreads)
      | absent h =>
        rw [sum, bind_of_fail hresult]
        exact .inl (.absent h)
      | refused hread hlt hstart =>
        rw [sum, bind_of_fail hresult]
        exact .inl (.refused hread hlt hstart)
    · obtain ⟨hrefused, hle, hlt, hstuck⟩ := hearly
      rw [sum, bind_of_match hresult, bind_of_match (loop_term_of_stuck hstuck hlt ..)]
      exact .inr ⟨hrefused, hle, hlt, hstuck.mono (by simp)⟩

theorem expr_of_sum (hblanks : ∀ f, blanks n i f = (some ((), k), f))
    (hsum : sum n k f = (some (e, j), f')) (hj : j.Solid) :
    expr n i f = (some (e, j), f') :=
  (bind_of_match (hblanks f)).trans ((bind_of_match hsum).trans
    (bind_of_match (blanks_of_solid hj n f')))

theorem expr_of_no_sum (hblanks : ∀ f, blanks n i f = (some ((), k), f))
    (hsum : sum n k f = (none, f')) : expr n i f = (none, f') :=
  (bind_of_match (hblanks f)).trans (bind_of_fail hsum)

end Rule

/-! ## Texts -/

/-- With a bound that is large enough the rules and the reader come to the same, for every
    text. -/
theorem parseN_eq_read (h : text.length < n) :
    parseN n text = (Reader.start.read 0 text).mapError (·.error text) := by
  obtain ⟨k, hk, hblanks⟩ := Rule.exists_blanks (i := ⟨0, text⟩) h
  have houtcome := Rule.readsSums_sum n [] k .none
    (Nat.lt_of_le_of_lt (hk.continues .start).length_le h) hk.solid (Nat.zero_le _)
  have hread : Reader.start.read 0 text = Reader.start.read k.offset k.rest :=
    (hk.continues _).read_eq
  rw [parseN, hread]
  generalize hresult : Rule.sum n k .none = result at houtcome
  rcases houtcome with houtcome | hearly
  · cases houtcome with
    | @matched e j f' h =>
      obtain ⟨⟨g, hg, hreads⟩, hends, rfl⟩ := h
      have hsolid : j.Solid := fun c hc => hends c hc ▸ by decide
      rw [Rule.expr_of_sum hblanks hresult hsolid]
      have hreads : Reader.start.read k.offset k.rest = Reader.read ⟨g, []⟩ j.offset j.rest :=
        hreads.read_eq
      rw [hreads]
      obtain ⟨o, _ | ⟨c, rest⟩⟩ := j
      · have hfinish : Reader.finish? ⟨g, []⟩ = some e := hg
        rw [Reader.read, hfinish]
        rfl
      · obtain rfl := hends c rfl
        rw [Reader.read_of_refused (by decide) (by decide) rfl, allows_at_top hg]
        exact congrArg (fun f => Except.error (Failures.error f text)) (Failures.note_self o _ _)
    | absent h =>
      rw [Rule.expr_of_no_sum hblanks hresult, read_of_noAtom_of_open h rfl rfl, atomTerminals,
        Failures.noteAll_none]
      rfl
    | refused hrefused =>
      have hrefused : Reader.start.read k.offset k.rest = _ := hrefused
      rw [Rule.expr_of_no_sum hblanks hresult, hrefused]
      rfl
  · cases hearly with
    | @intro e j f' hrefused _ hlt hstart =>
      have hsolid := hstart.eq_false (p := isBlank) (by decide)
      have hrefused : Reader.start.read k.offset k.rest = _ := hrefused
      rw [Rule.expr_of_sum hblanks hresult hsolid, hrefused]
      obtain ⟨o, _ | ⟨c, rest⟩⟩ := j
      · obtain ⟨c, hc, -⟩ := hstart
        cases hc
      · exact congrArg (fun f => Except.error (Failures.error f text)) (Failures.note_of_lt hlt _)

theorem parse_eq_read (text : List Char) :
    parse text = (Reader.start.read 0 text).mapError (·.error text) :=
  parseN_eq_read (Nat.lt_succ_self text.length)

/-- No text has room for more rounds and deeper groups than `parse` allows. -/
theorem parseN_eq_parse (h : text.length < n) : parseN n text = parse text :=
  (parseN_eq_read h).trans (parse_eq_read text).symm

end RegularLang.Infix
