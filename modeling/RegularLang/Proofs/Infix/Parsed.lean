/-
  RegularLang.Proofs.Infix.Parsed — a text is parsed as the regex `e` exactly when the
  grammar derives `e` from the tokens that it spells (`parse_eq_ok_iff`).

  The rules read as the reader does that never tries twice (`parse_eq_read`), so that all is
  shown of the reader.

  Soundness. Each open group holds its tokens: its finished alternatives, each up to
  its `+`, and the units after them, all derived (`Reader.Holds`). One more token
  keeps this (`Reader.Holds.take`), and so does a whole run.

  Completeness. What a derivation reads, the reader reads whatever came before
  (`Reads`): an atom or a unit is one more unit of the innermost group, a sequence
  several, and a sum fills a group that was fresh.
-/

import RegularLang.Proofs.Infix.Greedy

namespace RegularLang.Infix

/-! ## Tokens -/

section

variable {c : Char} {text : List Char} {ts : List Token}

theorem isBlank_backslash : isBlank '\\' = false := by decide

theorem spells_nil_iff : Spells [] ts ↔ ts = [] := by
  constructor
  · intro h
    cases h
    rfl
  · rintro rfl
    exact .nil

theorem spells_blank_iff (hc : isBlank c) : Spells (c :: text) ts ↔ Spells text ts := by
  constructor
  · intro h
    cases h with
    | blank _ h => exact h
    | escaped => cases hc
    | plain hn => rw [hc] at hn; cases hn
  · exact .blank hc

theorem spells_plain_iff (hc : isBlank c = false) (hb : c ≠ '\\') :
    Spells (c :: text) ts ↔ ∃ us, Spells text us ∧ Token.ofChar c :: us = ts := by
  constructor
  · intro h
    cases h with
    | blank hn => rw [hc] at hn; cases hn
    | escaped => exact absurd rfl hb
    | plain _ _ h => exact ⟨_, h, rfl⟩
  · rintro ⟨us, h, rfl⟩
    exact .plain hc hb h

theorem spells_escaped_iff (hc : isSpecial c) :
    Spells ('\\' :: c :: text) ts ↔ ∃ us, Spells text us ∧ Token.letter c :: us = ts := by
  constructor
  · intro h
    cases h with
    | blank hn => rw [isBlank_backslash] at hn; cases hn
    | escaped _ h => exact ⟨_, h, rfl⟩
    | plain _ hb => exact absurd rfl hb
  · rintro ⟨us, h, rfl⟩
    exact .escaped hc h

/-- A backslash stands before a special character. -/
theorem exists_special_of_spells (h : Spells ('\\' :: text) ts) :
    ∃ c rest, text = c :: rest ∧ isSpecial c := by
  cases h with
  | blank hn => rw [isBlank_backslash] at hn; cases hn
  | escaped hc _ => exact ⟨_, _, rfl, hc⟩
  | plain _ hb => exact absurd rfl hb

/-- What stands in front of a character that is looked at as such. -/
theorem ne_backslash (hend : c = '\\' → text = [] → False)
    (hmore : ∀ (d : Char) (rest : List Char), c = '\\' → text = d :: rest → False) : c ≠ '\\' := by
  rintro rfl
  cases text with
  | nil => exact hend rfl rfl
  | cons d rest => exact hmore d rest rfl rfl

/-- The tokens that a text spells can be computed. -/
theorem spells_iff_tokens? : Spells text ts ↔ tokens? text = some ts := by
  fun_induction tokens? text generalizing ts with
  | case1 => rw [spells_nil_iff, Option.some_inj, eq_comm]
  | case2 =>
    refine iff_of_false (fun h => ?_) (by simp)
    obtain ⟨c, rest, e, -⟩ := exists_special_of_spells h
    cases e
  | case3 c text hc ih =>
    rw [spells_escaped_iff hc]
    simp [ih]
  | case4 c text hc =>
    refine iff_of_false (fun h => ?_) (by simp)
    obtain ⟨c', rest, e, hc'⟩ := exists_special_of_spells h
    cases e
    exact hc hc'
  | case5 c text _ _ hc ih => rw [spells_blank_iff hc, ih]
  | case6 c text hend hmore hc ih =>
    rw [spells_plain_iff (by simpa using hc) (ne_backslash hend hmore)]
    simp [ih]

theorem Spells.unique {us : List Token} (h : Spells text ts) (h' : Spells text us) : ts = us := by
  exact Option.some.inj ((spells_iff_tokens?.mp h).symm.trans (spells_iff_tokens?.mp h'))

end

/-! ## What the reader holds -/

/-- The tokens of units that follow each other, the last unit first. -/
inductive DeriveUnits : List Token → List Regex → Prop
  | nil : DeriveUnits [] []
  | snoc {ts us : List Token} {es : List Regex} {e : Regex} : DeriveUnits ts es →
      Derives .unit us e → DeriveUnits (ts ++ us) (e :: es)

/-- The tokens of finished alternatives, each up to its `+`, the last alternative first. -/
inductive DeriveAlternatives : List Token → List Regex → Prop
  | nil : DeriveAlternatives [] []
  | snoc {ts us : List Token} {es : List Regex} {e : Regex} : DeriveAlternatives ts es →
      Derives .sequence us e → DeriveAlternatives (ts ++ us ++ [.union]) (e :: es)

section

variable {ts us : List Token} {es : List Regex} {e : Regex}

theorem Derives.star (h : Derives .unit ts e) : Derives .unit (ts ++ [.star]) e.closure := by
  cases h with
  | bare h => exact .starred 0 h
  | starred n h =>
    rw [Regex.closure_closure, List.append_assoc, ← List.replicate_succ']
    exact .starred (n + 1) h

theorem DeriveUnits.star (h : DeriveUnits ts (e :: es)) :
    DeriveUnits (ts ++ [.star]) (e.closure :: es) := by
  cases h with
  | snoc h hu =>
    rw [List.append_assoc]
    exact .snoc h hu.star

theorem DeriveUnits.sequence (h : DeriveUnits ts es) (hne : es ≠ []) :
    Derives .sequence ts (.product es.reverse) := by
  induction h with
  | nil => exact absurd rfl hne
  | @snoc ts us es e h hu ih =>
    rw [List.reverse_cons, Regex.product_append_singleton]
    cases h with
    | nil => exact .firstUnit hu
    | snoc => exact .addUnit (ih (List.cons_ne_nil _ _)) hu

theorem DeriveAlternatives.sum (h : DeriveAlternatives ts es) (hu : Derives .sequence us e) :
    Derives .sum (ts ++ us) (.unionOf (e :: es).reverse) := by
  induction h generalizing us e with
  | nil =>
    rw [List.reverse_singleton, Regex.unionOf_singleton]
    exact .firstTerm hu
  | snoc _ hv ih =>
    rw [List.reverse_cons, Regex.unionOf_append_singleton]
    simpa using (ih hv).addTerm hu

end

/-! ### Groups -/

namespace Group

variable {g g' : Group} {e : Regex} {ts us : List Token}

theorem alternative?_eq_some_iff :
    g.alternative? = some e ↔ g.units ≠ [] ∧ .product g.units.reverse = e := by
  unfold alternative? hasUnit
  cases g.units <;> simp

theorem value?_eq_some_iff : g.value? = some e ↔ g.units ≠ [] ∧
    .unionOf (.product g.units.reverse :: g.alternatives).reverse = e := by
  unfold value?
  simp [Option.map_eq_some_iff, alternative?_eq_some_iff, and_assoc]

/-- The tokens that the group has read. -/
def Holds (g : Group) (ts : List Token) : Prop :=
  ∃ us vs, us ++ vs = ts ∧ DeriveAlternatives us g.alternatives ∧ DeriveUnits vs g.units

theorem holds_start : start.Holds [] := ⟨[], [], rfl, .nil, .nil⟩

theorem Holds.addUnit (h : g.Holds ts) (hu : Derives .unit us e) :
    (g.addUnit e).Holds (ts ++ us) := by
  obtain ⟨as, bs, rfl, ha, hb⟩ := h
  exact ⟨as, bs ++ us, (List.append_assoc ..).symm, ha, hb.snoc hu⟩

theorem Holds.starLast (h : g.Holds ts) (hg : g.starLast? = some g') :
    g'.Holds (ts ++ [.star]) := by
  obtain ⟨as, bs, rfl, ha, hb⟩ := h
  unfold starLast? at hg
  split at hg
  · cases hg
  · next e es hes =>
    obtain rfl := Option.some.inj hg
    rw [hes] at hb
    exact ⟨as, bs ++ [.star], (List.append_assoc ..).symm, ha, hb.star⟩

theorem Holds.nextAlternative (h : g.Holds ts) (hg : g.nextAlternative? = some g') :
    g'.Holds (ts ++ [.union]) := by
  obtain ⟨as, bs, rfl, ha, hb⟩ := h
  unfold nextAlternative? at hg
  obtain ⟨e, he, rfl⟩ := Option.map_eq_some_iff.mp hg
  obtain ⟨hne, rfl⟩ := alternative?_eq_some_iff.mp he
  exact ⟨as ++ bs ++ [.union], [], by simp, ha.snoc (hb.sequence hne), .nil⟩

theorem Holds.value (h : g.Holds ts) (hg : g.value? = some e) : Derives .sum ts e := by
  obtain ⟨as, bs, rfl, ha, hb⟩ := h
  obtain ⟨hne, rfl⟩ := value?_eq_some_iff.mp hg
  exact ha.sum (hb.sequence hne)

theorem Holds.eq_nil_of_isFresh (h : g.Holds ts) (hg : g.isFresh) : ts = [] := by
  obtain ⟨alternatives, units⟩ := g
  obtain ⟨as, bs, rfl, ha, hb⟩ := h
  unfold isFresh at hg
  simp only [Bool.and_eq_true, List.isEmpty_iff] at hg
  obtain ⟨rfl, rfl⟩ := hg
  cases ha
  cases hb
  rfl

theorem Holds.closed (h : g.Holds ts) (hg : g.closed? = some e) :
    Derives .atom (.openGroup :: ts ++ [.closeGroup]) e := by
  unfold closed? at hg
  split at hg
  · next hf =>
    obtain rfl := Option.some.inj hg
    rw [h.eq_nil_of_isFresh hf]
    exact .emptyGroup
  · exact .group (h.value hg)

end Group

/-! ### Nested groups -/

namespace Reader

/-- The tokens that have been read: those of the outer groups, each up to the
    parenthesis that opens the next, and those of the innermost. -/
inductive Holds : Reader → List Token → Prop
  | outermost {g : Group} {ts : List Token} : g.Holds ts → Holds ⟨g, []⟩ ts
  | inside {g g' : Group} {outer : List Group} {ts us : List Token} : Holds ⟨g', outer⟩ ts →
      g.Holds us → Holds ⟨g, g' :: outer⟩ (ts ++ .openGroup :: us)

variable {r r' : Reader} {ts us : List Token} {e : Regex} {t : Token}

/-- What the innermost group does, the reader does. -/
theorem Holds.imp_group {g g' : Group} {outer : List Group} (h : Holds ⟨g, outer⟩ ts)
    (hg : ∀ vs, g.Holds vs → g'.Holds (vs ++ us)) : Holds ⟨g', outer⟩ (ts ++ us) := by
  cases h with
  | outermost h => exact .outermost (hg _ h)
  | inside h h' =>
    rw [List.append_assoc]
    exact .inside h (hg _ h')

theorem Holds.addUnit (h : r.Holds ts) (hu : Derives .atom us e) : (r.addUnit e).Holds (ts ++ us) :=
  h.imp_group fun _ hg => hg.addUnit (.bare hu)

theorem Holds.close (h : r.Holds ts) (hr : r.close? = some r') : r'.Holds (ts ++ [.closeGroup]) := by
  cases h with
  | outermost => cases hr
  | inside h hg =>
    obtain ⟨e, he, rfl⟩ := Option.map_eq_some_iff.mp hr
    simpa [Reader.addUnit] using h.addUnit (hg.closed he)

/-- One more token. -/
theorem Holds.take (h : r.Holds ts) (hr : r.take? t = some r') : r'.Holds (ts ++ [t]) := by
  cases t with
  | openGroup =>
    obtain rfl := Option.some.inj hr
    exact .inside h Group.holds_start
  | closeGroup => exact h.close hr
  | star =>
    obtain ⟨g, hg, rfl⟩ := Option.map_eq_some_iff.mp hr
    exact h.imp_group fun _ h => h.starLast hg
  | union =>
    obtain ⟨g, hg, rfl⟩ := Option.map_eq_some_iff.mp hr
    exact h.imp_group fun _ h => h.nextAlternative hg
  | emptyWord =>
    obtain rfl := Option.some.inj hr
    exact h.addUnit .emptyWord
  | nothing =>
    obtain rfl := Option.some.inj hr
    exact h.addUnit .nothing
  | letter c =>
    obtain rfl := Option.some.inj hr
    exact h.addUnit (.letter c)

/-- The reader after all tokens, wherever they stand in a text. -/
def run? (r : Reader) (ts : List Token) : Option Reader := ts.foldlM take? r

@[simp] theorem run?_nil (r : Reader) : r.run? [] = some r := rfl

theorem run?_cons (r : Reader) (t : Token) (ts : List Token) :
    r.run? (t :: ts) = (r.take? t).bind (run? · ts) := rfl

theorem run?_append (r : Reader) (ts us : List Token) :
    r.run? (ts ++ us) = (r.run? ts).bind (run? · us) := List.foldlM_append

theorem Holds.run (h : r.Holds ts) (hr : r.run? us = some r') : r'.Holds (ts ++ us) := by
  induction us generalizing r ts with
  | nil =>
    obtain rfl := Option.some.inj hr
    rwa [List.append_nil]
  | cons t us ih =>
    rw [run?_cons, Option.bind_eq_some_iff] at hr
    obtain ⟨s, hs, hr⟩ := hr
    simpa using ih (h.take hs) hr

theorem Holds.finish (h : r.Holds ts) (hr : r.finish? = some e) : Derives .sum ts e := by
  cases h with
  | outermost h => exact h.value hr
  | inside => cases hr

end Reader

/-! ## What a derivation reads -/

/-- How a reader goes over the tokens of a derivation. -/
def Reads (ts : List Token) (e : Regex) : Category → Prop
  | .atom | .unit => ∀ r : Reader, r.run? ts = some (r.addUnit e)
  | .sequence => ∃ es, es ≠ [] ∧ .product es.reverse = e ∧ ∀ r : Reader,
      r.run? ts = some { r with group := { r.group with units := es ++ r.group.units } }
  | .sum => ∃ g : Group, g.value? = some e ∧ ∀ outer, Reader.run? ⟨.start, outer⟩ ts = some ⟨g, outer⟩

section

variable {ts us : List Token} {e f : Regex}

theorem run?_stars (r : Reader) (e : Regex) (n : Nat) :
    (r.addUnit e).run? (.replicate (n + 1) .star) = some (r.addUnit e.closure) := by
  induction n generalizing e with
  | zero => rfl
  | succ n ih =>
    -- A second star changes nothing.
    rw [List.replicate_succ, Reader.run?_cons]
    exact (ih e.closure).trans (by rw [Regex.closure_closure])

theorem Reads.group (h : Reads ts e .sum) : Reads (.openGroup :: ts ++ [.closeGroup]) e .atom := by
  obtain ⟨g, hg, h⟩ := h
  intro r
  -- A group that holds a sum is not fresh, so that `)` does not make it `()`.
  have hc : g.closed? = some e := by
    unfold Group.closed?
    rw [if_neg, hg]
    simp [Group.isFresh, (Group.value?_eq_some_iff.mp hg).1]
  rw [List.cons_append, Reader.run?_cons]
  show Reader.run? ⟨.start, r.group :: r.outer⟩ (ts ++ [.closeGroup]) = _
  rw [Reader.run?_append, h]
  show (Option.map _ g.closed?).bind _ = _
  rw [hc]
  rfl

theorem Reads.addUnit (h : Reads ts e .sequence) (hu : Reads us f .unit) :
    Reads (ts ++ us) (e * f) .sequence := by
  obtain ⟨es, hne, rfl, h⟩ := h
  refine ⟨f :: es, List.cons_ne_nil _ _, ?_, ?_⟩
  · rw [List.reverse_cons, Regex.product_append_singleton]
  · intro r
    rw [Reader.run?_append, h]
    exact hu _

theorem Reads.addTerm (h : Reads ts e .sum) (hu : Reads us f .sequence) :
    Reads (ts ++ .union :: us) (e + f) .sum := by
  obtain ⟨g, hg, h⟩ := h
  obtain ⟨es, hne, rfl, hu⟩ := hu
  obtain ⟨hunits, rfl⟩ := Group.value?_eq_some_iff.mp hg
  have halt := Group.alternative?_eq_some_iff.mpr ⟨hunits, rfl⟩
  refine ⟨⟨.product g.units.reverse :: g.alternatives, es⟩, ?_, ?_⟩
  · refine Group.value?_eq_some_iff.mpr ⟨hne, ?_⟩
    rw [List.reverse_cons, Regex.unionOf_append_singleton]
  · intro outer
    rw [Reader.run?_append, h]
    -- The alternative that ends at the `+` is the one whose product stands in `g.value?`.
    show (Option.map _ (Option.map _ g.alternative?)).bind _ = _
    rw [halt]
    exact (hu _).trans (by rw [List.append_nil])

theorem Derives.reads {k : Category} (h : Derives k ts e) : Reads ts e k := by
  induction h with
  | firstTerm _ ih =>
    obtain ⟨es, hne, rfl, ih⟩ := ih
    refine ⟨⟨[], es⟩, ?_, ?_⟩
    · exact Group.value?_eq_some_iff.mpr ⟨hne, Regex.unionOf_singleton _⟩
    · intro outer
      exact (ih _).trans (by rw [Group.start, List.append_nil])
  | addTerm _ _ ih ih' => exact ih.addTerm ih'
  | @firstUnit ts e _ ih => exact ⟨[e], List.cons_ne_nil _ _, Regex.product_append_singleton [] e, ih⟩
  | addUnit _ _ ih ih' => exact ih.addUnit ih'
  | bare _ ih => exact ih
  | starred n _ ih =>
    intro r
    rw [Reader.run?_append, ih]
    exact run?_stars r _ n
  | emptyGroup | nothing | emptyWord | letter => exact fun _ => rfl
  | group _ ih => exact ih.group

end

/-! ## Texts -/

section

variable {text before : List Char} {ts : List Token} {e : Regex} {r r' : Reader}

/-- The reader goes on behind the tokens that the beginning of a text spells. -/
theorem Spells.read_append (hs : Spells before ts) (hr : r.run? ts = some r') (offset : Nat)
    (text : List Char) :
    r.read offset (before ++ text) = r'.read (offset + byteLength before) text := by
  induction hs generalizing r offset with
  | nil =>
    obtain rfl := Option.some.inj hr
    rfl
  | blank hc _ ih =>
    rw [List.cons_append, Reader.read_blank hc, ih hr, byteLength_cons, Nat.add_assoc]
  | @escaped c before ts hc _ ih =>
    have hlen : byteLength ('\\' :: c :: before) = 1 + (c.utf8Size + byteLength before) := rfl
    rw [List.cons_append, List.cons_append, Reader.read_escaped hc, ih hr, hlen, Nat.add_assoc,
      Nat.add_assoc]
  | plain hc hne _ ih =>
    rw [Reader.run?_cons, Option.bind_eq_some_iff] at hr
    obtain ⟨s, hs, hr⟩ := hr
    rw [List.cons_append, Reader.read_of_take? hc hne hs, ih hr, byteLength_cons, Nat.add_assoc]

/-- A text is read as what the reader has at the end of its tokens. -/
theorem Reader.read_eq_ok_iff {offset : Nat} : r.read offset text = .ok e ↔
    ∃ ts, Spells text ts ∧ ∃ r', r.run? ts = some r' ∧ r'.finish? = some e := by
  constructor
  · intro h
    fun_induction Reader.read r offset text with
    | case1 r offset hf => cases h
    | case2 r offset e' hf =>
      obtain rfl := Except.ok.inj h
      exact ⟨[], .nil, r, rfl, hf⟩
    | case3 => cases h
    | case4 r offset c text hc ih =>
      obtain ⟨ts, hts, r', hr, he⟩ := ih h
      exact ⟨_, .escaped hc hts, r', hr, he⟩
    | case5 => cases h
    | case6 r offset c text _ _ hc ih =>
      obtain ⟨ts, hts, hr⟩ := ih h
      exact ⟨ts, .blank hc hts, hr⟩
    | case7 => cases h
    | case8 r offset c text hend hmore hc s hs ih =>
      obtain ⟨ts, hts, r', hr, he⟩ := ih h
      refine ⟨_, .plain (by simpa using hc) (ne_backslash hend hmore) hts, r', ?_, he⟩
      rw [run?_cons, hs]
      exact hr
  · intro ⟨ts, hts, r', hr, he⟩
    rw [← List.append_nil text, hts.read_append hr, read, he]

theorem parse_eq_ok_iff_run : parse text = .ok e ↔
    ∃ ts, Spells text ts ∧ ∃ r, Reader.start.run? ts = some r ∧ r.finish? = some e := by
  rw [parse_eq_read, ← Reader.read_eq_ok_iff]
  cases Reader.start.read 0 text with
  | error f => exact iff_of_false nofun nofun
  | ok e' =>
    constructor
    · intro h
      cases h
      rfl
    · intro h
      cases h
      rfl

theorem means_of_parse_eq_ok (h : parse text = .ok e) : Means text e := by
  obtain ⟨ts, hts, r, hr, he⟩ := parse_eq_ok_iff_run.mp h
  have hread := (Reader.Holds.outermost Group.holds_start).run hr
  exact ⟨ts, hts, hread.finish he⟩

theorem Means.parse_eq_ok (h : Means text e) : parse text = .ok e := by
  obtain ⟨ts, hts, hd⟩ := h
  obtain ⟨g, hg, hread⟩ := hd.reads
  exact parse_eq_ok_iff_run.mpr ⟨ts, hts, _, hread [], hg⟩

end

/-- A text is read as `e` exactly when it means `e`: its tokens derive `e`. -/
theorem parse_eq_ok_iff (text : List Char) (e : Regex) : parse text = .ok e ↔ Means text e :=
  ⟨means_of_parse_eq_ok, Means.parse_eq_ok⟩

end RegularLang.Infix
