/-
  RegularLang.Proofs.Infix.Outcome — what the rules of the parser come to, told by the reader
  that never tries twice.

  A rule has one of three outcomes (`Outcome`). Either it matches, and the reader can take over
  where the match ends. Or nothing that the rule begins with is there. Or the reader is refused
  further on: then what has been noted is what the reader lists. A repetition does not fail
  then, but matches too early (`EndsEarly`). That does no harm: all that is tried afterwards
  stands further back and notes nothing any more.
-/

import RegularLang.Infix.Reader

namespace RegularLang.Infix

variable {α β : Type} {c : Char} {rest : List Char} {i j : Input} {f f' : Failures}
  {t : Terminal} {ts : List Terminal} {o : Nat}

/-! ## Failures -/

namespace Failures

theorem note_of_lt (h : o < f.offset) (t : Terminal) : f.note o t = f := if_pos h

theorem note_of_gt (h : f.offset < o) (t : Terminal) : f.note o t = ⟨o, fun u => u = t⟩ := by
  rw [note, if_neg (Nat.lt_asymm h), if_pos h]

theorem note_self (o : Nat) (s : Terminal → Bool) (t : Terminal) :
    (⟨o, s⟩ : Failures).note o t = ⟨o, fun u => u = t || s u⟩ := by
  rw [note, if_neg (Nat.lt_irrefl o), if_neg (Nat.lt_irrefl o)]

theorem offset_note_le (h : f.offset ≤ o) (t : Terminal) : (f.note o t).offset ≤ o := by
  refine Nat.le_of_eq ?_
  rcases Nat.lt_or_eq_of_le h with h | rfl
  · rw [note_of_gt h]
  · rw [note_self f.offset f.expected t]

/-- Several things that are not found at one place. -/
def noteAll (f : Failures) (o : Nat) (ts : List Terminal) : Failures := ts.foldl (·.note o ·) f

theorem noteAll_cons (f : Failures) (o : Nat) (t : Terminal) (ts : List Terminal) :
    f.noteAll o (t :: ts) = (f.note o t).noteAll o ts := rfl

theorem noteAll_of_lt (h : o < f.offset) (ts : List Terminal) : f.noteAll o ts = f := by
  induction ts with
  | nil => rfl
  | cons t ts ih =>
    rw [noteAll_cons, note_of_lt h]
    exact ih

theorem noteAll_self (o : Nat) (s : Terminal → Bool) (ts : List Terminal) :
    (⟨o, s⟩ : Failures).noteAll o ts = ⟨o, fun u => decide (u ∈ ts) || s u⟩ := by
  induction ts generalizing s with
  | nil => simp [noteAll]
  | cons t ts ih =>
    rw [noteAll_cons, note_self]
    refine (ih _).trans (congrArg (mk o) (funext fun u => ?_))
    simp only [List.mem_cons, Bool.decide_or, Bool.or_assoc]
    cases decide (u = t) <;> cases decide (u ∈ ts) <;> rfl

theorem noteAll_of_gt (h : f.offset < o) (t : Terminal) (ts : List Terminal) :
    f.noteAll o (t :: ts) = ⟨o, fun u => decide (u ∈ t :: ts)⟩ := by
  rw [noteAll_cons, note_of_gt h]
  refine (noteAll_self ..).trans (congrArg (mk o) (funext fun u => ?_))
  simp only [List.mem_cons, Bool.decide_or]
  cases decide (u = t) <;> cases decide (u ∈ ts) <;> rfl

theorem noteAll_none (o : Nat) (t : Terminal) (ts : List Terminal) :
    none.noteAll o (t :: ts) = ⟨o, fun u => decide (u ∈ t :: ts)⟩ := by
  cases o with
  | zero =>
    refine (noteAll_self 0 _ _).trans (congrArg (mk 0) (funext fun u => ?_))
    exact Bool.or_false _
  | succ o => exact noteAll_of_gt (Nat.succ_pos o) t ts

end Failures

/-! ## Rules one after the other -/

namespace Peg

variable {p : Peg α} {q : α → Peg β} {v : α}

theorem bind_of_match (h : p i f = (some (v, j), f')) : (p >>= q) i f = q v j f' := by
  simp only [bind, h]

theorem bind_of_fail (h : p i f = (none, f')) : (p >>= q) i f = (none, f') := by
  simp only [bind, h]

theorem orElse_of_match {p q : Peg α} (h : p i f = (some (v, j), f')) :
    (p <|> q) i f = (some (v, j), f') := by
  simp only [HOrElse.hOrElse, OrElse.orElse, h]

theorem orElse_of_fail {p q : Peg α} (h : p i f = (none, f')) : (p <|> q) i f = q i f' := by
  simp only [HOrElse.hOrElse, OrElse.orElse, h]

theorem one_of_covers (h : t.covers c) (o : Nat) (rest : List Char) (f : Failures) :
    one t ⟨o, c :: rest⟩ f = (some (c, ⟨o + c.utf8Size, rest⟩), f) := if_pos h

theorem one_of_not_covers (h : ∀ c ∈ i.rest.head?, t.covers c = false) (f : Failures) :
    one t i f = (none, f.note i.offset t) := by
  obtain ⟨o, _ | ⟨c, rest⟩⟩ := i
  · rfl
  · exact if_neg (ne_true_of_eq_false (h c rfl))

theorem loop_of_match {n : Nat} (h : p i f = (some (v, j), f')) (found : List α) :
    loop p (n + 1) found i f = loop p n (v :: found) j f' := by
  simp only [loop, h]

theorem loop_of_fail {n : Nat} (h : p i f = (none, f')) (found : List α) :
    loop p (n + 1) found i f = (some (found.reverse, i), f') := by
  simp only [loop, h]

end Peg

/-! ## Places -/

namespace Input

/-- `j` stands behind `i`. -/
structure Precedes (i j : Input) : Prop where
  offset_lt : i.offset < j.offset
  length_lt : j.rest.length < i.rest.length

theorem precedes_cons (o : Nat) (c : Char) (rest : List Char) :
    Precedes ⟨o, c :: rest⟩ ⟨o + c.utf8Size, rest⟩ :=
  ⟨Nat.lt_add_of_pos_right c.utf8Size_pos, Nat.lt_succ_self _⟩

theorem Precedes.trans {k : Input} (h : i.Precedes j) (h' : j.Precedes k) : i.Precedes k :=
  ⟨Nat.lt_trans h.offset_lt h'.offset_lt, Nat.lt_trans h'.length_lt h.length_lt⟩

/-- No white space comes next. -/
def Solid (i : Input) : Prop := ∀ c ∈ i.rest.head?, isBlank c = false

end Input

open Peg Input

/-- What `r` reads from `i` on is what `r'` reads from `j` on. -/
structure Continues (r : Reader) (i : Input) (r' : Reader) (j : Input) : Prop where
  read_eq : r.read i.offset i.rest = r'.read j.offset j.rest
  offset_le : i.offset ≤ j.offset
  length_le : j.rest.length ≤ i.rest.length

namespace Continues

variable {r r' r'' : Reader} {k : Input}

theorem refl (r : Reader) (i : Input) : Continues r i r i := ⟨rfl, Nat.le_refl _, Nat.le_refl _⟩

theorem trans (h : Continues r i r' j) (h' : Continues r' j r'' k) : Continues r i r'' k :=
  ⟨h.read_eq.trans h'.read_eq, Nat.le_trans h.offset_le h'.offset_le,
    Nat.le_trans h'.length_le h.length_le⟩

theorem precedes (h' : Continues r j r' k) (h : i.Precedes j) : i.Precedes k :=
  ⟨Nat.lt_of_lt_of_le h.offset_lt h'.offset_le, Nat.lt_of_le_of_lt h'.length_le h.length_lt⟩

theorem of_precedes (h : i.Precedes j) (hread : r.read i.offset i.rest = r'.read j.offset j.rest) :
    Continues r i r' j := ⟨hread, Nat.le_of_lt h.offset_lt, Nat.le_of_lt h.length_lt⟩

theorem of_take? (hc : isBlank c = false) (hne : c ≠ '\\') (h : r.take? (.ofChar c) = some r')
    (o : Nat) (rest : List Char) : Continues r ⟨o, c :: rest⟩ r' ⟨o + c.utf8Size, rest⟩ :=
  of_precedes (precedes_cons o c rest) (Reader.read_of_take? hc hne h)

theorem of_blank (hc : isBlank c) (r : Reader) (o : Nat) (rest : List Char) :
    Continues r ⟨o, c :: rest⟩ r ⟨o + c.utf8Size, rest⟩ :=
  of_precedes (precedes_cons o c rest) (Reader.read_blank hc)

end Continues

/-- White space leads from `i` to `j`. -/
structure SkipsTo (i j : Input) : Prop where
  continues : ∀ r : Reader, Continues r i r j
  solid : j.Solid

theorem SkipsTo.precedes {k : Input} (h' : SkipsTo j k) (h : i.Precedes j) : i.Precedes k :=
  (h'.continues .start).precedes h

namespace Rule

variable {n : Nat}

/-! ## White space -/

theorem loop_blank_of_solid (hi : i.Solid) (n : Nat) (found : List Char) (f : Failures) :
    ∃ cs f', loop (one .blank) n found i f = (some (cs, i), f') := by
  cases n with
  | zero => exact ⟨_, f, rfl⟩
  | succ n => exact ⟨_, _, loop_of_fail (one_of_not_covers (t := .blank) hi f) found⟩

theorem exists_loop_blank (h : i.rest.length < n) : ∃ j, SkipsTo i j ∧ ∀ found f, ∃ cs f',
    loop (one .blank) n found i f = (some (cs, j), f') := by
  induction n generalizing i with
  | zero => exact absurd h (Nat.not_lt_zero _)
  | succ n ih =>
    by_cases hi : i.Solid
    · exact ⟨i, ⟨fun r => .refl r i, hi⟩, fun found f => loop_blank_of_solid hi _ found f⟩
    obtain ⟨o, _ | ⟨c, rest⟩⟩ := i
    · exact absurd (by simp [Solid]) hi
    have hc : isBlank c := by simpa [Solid] using hi
    obtain ⟨j, hj, hloop⟩ := ih (i := ⟨o + c.utf8Size, rest⟩) (Nat.lt_of_succ_lt_succ h)
    refine ⟨j, ⟨fun r => (Continues.of_blank hc r o rest).trans (hj.continues r), hj.solid⟩,
      fun found f => ?_⟩
    obtain ⟨cs, f', hloop⟩ := hloop (c :: found) f
    exact ⟨cs, f', (loop_of_match (one_of_covers (t := .blank) hc o rest f) found).trans hloop⟩

theorem blanks_of_loop {cs : List Char}
    (h : loop (one .blank) n [] i f = (some (cs, j), f')) : blanks n i f = (some ((), j), f) := by
  have hquiet : quiet (loop (one .blank) n []) i f = (some (cs, j), f) := by rw [quiet, h]
  exact bind_of_match hquiet

/-- White space is skipped and leaves nothing behind. -/
theorem exists_blanks (h : i.rest.length < n) :
    ∃ j, SkipsTo i j ∧ ∀ f, blanks n i f = (some ((), j), f) := by
  obtain ⟨j, hj, hloop⟩ := exists_loop_blank h
  refine ⟨j, hj, fun f => ?_⟩
  obtain ⟨cs, f', hloop⟩ := hloop [] f
  exact blanks_of_loop hloop

theorem blanks_of_solid (h : i.Solid) (n : Nat) (f : Failures) :
    blanks n i f = (some ((), i), f) := by
  obtain ⟨cs, f', hloop⟩ := loop_blank_of_solid h n [] f
  exact blanks_of_loop hloop

end Rule

/-! ## Outcomes -/

namespace Input

/-- One of the characters comes next. -/
def StartsWith (cs : List Char) (i : Input) : Prop := ∃ c ∈ i.rest.head?, c ∈ cs

theorem StartsWith.eq_false {cs : List Char} {p : Char → Bool} (h : i.StartsWith cs)
    (hp : cs.any p = false) : ∀ c ∈ i.rest.head?, p c = false := by
  obtain ⟨c, hc, hmem⟩ := h
  intro d hd
  obtain rfl := Option.mem_unique hc hd
  exact Bool.eq_false_iff.mpr (List.any_eq_false.mp hp c hmem)

theorem StartsWith.mono {cs ds : List Char} (h : i.StartsWith cs) (hsub : cs ⊆ ds) :
    i.StartsWith ds := by
  obtain ⟨c, hc, hmem⟩ := h
  exact ⟨c, hc, hsub hmem⟩

/-- The text ends, or a character comes next that no atom begins with. -/
def NoAtom (i : Input) : Prop := ∀ c ∈ i.rest.head?, c ∈ [')', '*', '+', '|']

end Input

/-- What a rule comes to at `i` that begins with one of the terminals `ts`, when the reader is
    `r` and the failures are `f`. -/
inductive Outcome (ts : List Terminal) (r : Reader) (i : Input) (f : Failures)
    (Good : α → Input → Failures → Prop) : Option (α × Input) × Failures → Prop
  | matched {v : α} {j : Input} {f' : Failures} : Good v j f' →
      Outcome ts r i f Good (some (v, j), f')
  | absent : i.NoAtom → Outcome ts r i f Good (none, f.noteAll i.offset ts)
  /-- Where the reader is refused, everything has been noted. -/
  | refused {f' : Failures} : r.read i.offset i.rest = .error f' → i.offset < f'.offset →
      i.StartsWith ['(', '\\'] → Outcome ts r i f Good (none, f')

/-- A repetition that has ended in front of one of the characters `cs`, with the reader refused
    further on. -/
inductive EndsEarly (cs : List Char) (r : Reader) (i : Input) :
    Option (α × Input) × Failures → Prop
  | intro {v : α} {j : Input} {f' : Failures} : r.read i.offset i.rest = .error f' →
      i.offset ≤ j.offset → j.offset < f'.offset → j.StartsWith cs →
      EndsEarly cs r i (some (v, j), f')

namespace EndsEarly

variable {cs ds : List Char} {r r' : Reader} {result : Option (α × Input) × Failures}

theorem of_reads (h : Continues r i r' j) (hearly : EndsEarly cs r' j result) :
    EndsEarly cs r i result := by
  obtain ⟨hread, hle, hlt, hstart⟩ := hearly
  exact ⟨h.read_eq.trans hread, Nat.le_trans h.offset_le hle, hlt, hstart⟩

theorem map {p : Peg α} (h : EndsEarly cs r i (p i f)) (g : α → β) :
    EndsEarly cs r i ((do return g (← p) : Peg β) i f) := by
  generalize hresult : p i f = result at h
  obtain ⟨hread, hle, hlt, hstart⟩ := h
  rw [bind_of_match hresult]
  exact ⟨hread, hle, hlt, hstart⟩

end EndsEarly

/-- The reader takes `e` as one more unit and goes on at `j`. -/
structure TakesUnit (r : Reader) (i : Input) (e : Regex) (j : Input) : Prop where
  continues : Continues r i (r.addUnit e) j
  precedes : i.Precedes j

theorem TakesUnit.of_take? {r : Reader} {e : Regex} (hc : isBlank c = false) (hne : c ≠ '\\')
    (h : r.take? (.ofChar c) = some (r.addUnit e)) (o : Nat) (rest : List Char) :
    TakesUnit r ⟨o, c :: rest⟩ e ⟨o + c.utf8Size, rest⟩ :=
  ⟨.of_take? hc hne h o rest, precedes_cons o c rest⟩

end RegularLang.Infix
