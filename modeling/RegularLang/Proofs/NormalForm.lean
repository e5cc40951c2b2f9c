/-
  RegularLang.Proofs.NormalForm — the regex that is read off a minimal automaton is a normal
  form: regexes have the same exactly when they match the same words, whatever letters the
  automata are told to know (`normalForm_eq_iff`). So it is its own normal form
  (`normalForm_idempotent`), also when the second automaton knows fewer letters.

  What is left of a minimal automaton without the state that has no words depends on its
  language only (`LivePart.states_eq`), and so does the regex that is read off
  (`Canonical.toRegex_eq`). The alphabet may hold letters of no word. They lead every state
  to the one without words, and may be why there is such a state and where it is numbered.
  The other states are numbered by their least words, in which these letters do not stand.
-/

import Mathlib.Data.List.Sort
import RegularLang.Proofs.Automaton.Labels
import RegularLang.Proofs.Automaton.Residuals
import RegularLang.Proofs.Automaton.Trap
import RegularLang.Proofs.Construction
import RegularLang.Proofs.Regex.Tidy

namespace RegularLang

/-- Both transitions read a letter, the first the smaller one. -/
def Transition.Precedes (t u : Transition) : Prop :=
  ∃ c d, t.label = .char c ∧ u.label = .char d ∧ number c < number d

theorem Transition.Precedes.asymm {t u : Transition} (h : t.Precedes u) : ¬u.Precedes t := by
  obtain ⟨c, d, hc, hd, hlt⟩ := h
  rintro ⟨d', c', hd', hc', hlt'⟩
  cases hc.symm.trans hc'
  cases hd.symm.trans hd'
  exact Nat.lt_asymm hlt hlt'

instance : Std.Irrefl Transition.Precedes := ⟨fun _ h => h.asymm h⟩

instance : Std.Antisymm Transition.Precedes := ⟨fun _ _ h h' => absurd h' h.asymm⟩

namespace Automaton

variable {a b a' b' : Automaton} {δ δ' : Nat → Char → Nat} {f g : Nat → Nat}
  {gone gone' : List Nat} {i j i' j' k : Nat} {u w : List Char}

/-- A minimal automaton as minimization gives it, with the transition function `δ`. -/
structure Canonical (a : Automaton) (δ : Nat → Char → Nat) : Prop where
  tabular : a.Tabular δ
  discovered : a.Discovered δ
  reduced : a.Reduced
  size_pos : 0 < a.size

theorem Canonical.dfa (h : a.Canonical δ) : a.Dfa :=
  h.tabular.dfa (h.discovered.start_eq ▸ h.size_pos)

theorem lt_size_of_languageFrom (h : a.languageFrom i ≠ 0) : i < a.size := by
  by_contra hi
  exact h (languageFrom_of_size_le (Nat.not_lt.mp hi))

theorem exists_mem_of_ne_zero {l : Language Char} (h : l ≠ 0) : ∃ w, w ∈ l :=
  Set.nonempty_iff_ne_empty.mpr h

/-! ## States with the same words -/

theorem Dfa.mem_languageFrom_of_walk? (h : a.Dfa) (hu : a.walk? a.start u = some i) :
    w ∈ a.languageFrom i ↔ u ++ w ∈ a.language := by
  rw [language_eq_languageFrom, h.append_mem_languageFrom_iff]
  constructor
  · intro hw
    exact ⟨h.mem_wordsOver_of_walk? hu, i, hu, hw⟩
  · intro hx
    obtain ⟨-, q, hq, hw⟩ := hx
    obtain rfl := Option.some.inj (hu.symm.trans hq)
    exact hw

/-- A word that may go on leads somewhere in every automaton of the language, and may go on in
    the same ways there. -/
theorem Dfa.exists_walk?_of_language (h : a.Dfa) (h' : b.Dfa) (hl : a.language = b.language)
    (hu : a.walk? a.start u = some i) (hi : a.languageFrom i ≠ 0) :
    ∃ j, b.walk? b.start u = some j ∧ a.languageFrom i = b.languageFrom j := by
  obtain ⟨w, hw⟩ := exists_mem_of_ne_zero hi
  rw [h.mem_languageFrom_of_walk? hu, hl, language_eq_languageFrom,
    h'.append_mem_languageFrom_iff] at hw
  obtain ⟨-, j, hj, -⟩ := hw
  refine ⟨j, hj, ?_⟩
  ext v
  rw [h.mem_languageFrom_of_walk? hu, hl, h'.mem_languageFrom_of_walk? hj]

namespace Canonical

variable (h : a.Canonical δ) (h' : b.Canonical δ') (hl : a.language = b.language)

include h h' hl

theorem exists_languageFrom_eq (hi : a.languageFrom i ≠ 0) :
    ∃ j, a.languageFrom i = b.languageFrom j := by
  obtain ⟨u, -, hu⟩ := h.discovered.exists_walk? h.tabular (lt_size_of_languageFrom hi)
  obtain ⟨j, -, e⟩ := h.dfa.exists_walk?_of_language h'.dfa hl hu hi
  exact ⟨j, e⟩

theorem walk?_of_languageFrom_eq (hi : a.languageFrom i ≠ 0)
    (e : a.languageFrom i = b.languageFrom j) (hu : a.walk? a.start u = some i) :
    b.walk? b.start u = some j := by
  obtain ⟨q, hq, e'⟩ := h.dfa.exists_walk?_of_language h'.dfa hl hu hi
  have hj := lt_size_of_languageFrom (e ▸ hi)
  rwa [h'.reduced j hj q (lt_size_of_languageFrom (e' ▸ hi)) (e.symm.trans e')]

theorem isLeastWord_of_languageFrom_eq (hi : a.languageFrom i ≠ 0)
    (e : a.languageFrom i = b.languageFrom j) (hu : a.IsLeastWord i u) : b.IsLeastWord j u := by
  refine ⟨h.walk?_of_languageFrom_eq h' hl hi e hu.1, ?_⟩
  intro v hv
  exact hu.2 v (h'.walk?_of_languageFrom_eq h hl.symm (e ▸ hi) e.symm hv)

/-- States that have words are in the same order. -/
theorem lt_of_languageFrom_eq (hi : a.languageFrom i ≠ 0) (hi' : a.languageFrom i' ≠ 0)
    (e : a.languageFrom i = b.languageFrom j) (e' : a.languageFrom i' = b.languageFrom j')
    (hlt : i < i') : j < j' := by
  have hleast {p : Nat} (hp : a.languageFrom p ≠ 0) : ∃ u, a.IsLeastWord p u := by
    obtain ⟨v, -, hv⟩ := h.discovered.exists_walk? h.tabular (lt_size_of_languageFrom hp)
    exact exists_isLeastWord hv
  obtain ⟨u, hu⟩ := hleast hi
  obtain ⟨v, hv⟩ := hleast hi'
  have hu' := h.isLeastWord_of_languageFrom_eq h' hl hi e hu
  have hv' := h.isLeastWord_of_languageFrom_eq h' hl hi' e' hv
  rw [h'.discovered.lt_iff_shortlex h'.tabular hu' hv',
    ← h.discovered.lt_iff_shortlex h.tabular hu hv]
  exact hlt

end Canonical

/-! ## What is left without the state that has no words -/

/-- State `p` of `a'` is state `f p` of `a`, and just the states that have words are left. -/
structure LivePart (a a' : Automaton) (gone : List Nat) (f : Nat → Nat) : Prop where
  restricts : a.Restricts a' gone f
  mem_gone_iff : ∀ i < a.size, i ∈ gone ↔ a.languageFrom i = 0

namespace LivePart

theorem live (ha : a.LivePart a' gone f) (hk : k < a'.size) : a.languageFrom (f k) ≠ 0 :=
  mt (ha.mem_gone_iff _ (ha.restricts.lt_size_iff.mp hk)).mpr (ha.restricts.not_mem_gone k)

theorem exists_eq (ha : a.LivePart a' gone f) (hi : a.languageFrom i ≠ 0) :
    ∃ k < a'.size, f k = i := by
  have hlt := lt_size_of_languageFrom hi
  obtain ⟨k, rfl⟩ := ha.restricts.not_mem_gone_iff.mp (mt (ha.mem_gone_iff i hlt).mp hi)
  exact ⟨k, ha.restricts.lt_size_iff.mpr hlt, rfl⟩

variable (h : a.Canonical δ) (h' : b.Canonical δ') (hl : a.language = b.language)
  (ha : a.LivePart a' gone f) (hb : b.LivePart b' gone' g)

include h in
theorem eq_of_languageFrom (ha : a.LivePart a' gone f) (hj : j < a'.size) (hk : k < a'.size)
    (e : a.languageFrom (f j) = a.languageFrom (f k)) : j = k := by
  have hlt {p : Nat} (hp : p < a'.size) : f p < a.size := ha.restricts.lt_size_iff.mp hp
  exact ha.restricts.strictMono.injective (h.reduced _ (hlt hj) _ (hlt hk) e)

include h h' hl ha hb

/-- A state that is left of `a` has the number of the one of `b` that has its words. -/
theorem languageFrom_eq (hk : k < a'.size) :
    k < b'.size ∧ a.languageFrom (f k) = b.languageFrom (g k) := by
  induction k using Nat.strong_induction_on with
  | h k ih =>
    obtain ⟨j, e⟩ := h.exists_languageFrom_eq h' hl (ha.live hk)
    obtain ⟨n, hn, rfl⟩ := hb.exists_eq (e ▸ ha.live hk)
    rcases Nat.lt_trichotomy n k with hlt | rfl | hlt
    · -- Then state `n` would have these words as well.
      obtain ⟨-, e'⟩ := ih n hlt (hlt.trans hk)
      exact absurd (ha.eq_of_languageFrom h (hlt.trans hk) hk (e'.trans e.symm)) hlt.ne
    · exact ⟨hn, e⟩
    · -- Then the words of state `k` of `b` are those of a state of `a` before `k`.
      have hk' : k < b'.size := hlt.trans hn
      obtain ⟨i, e'⟩ := h'.exists_languageFrom_eq h hl.symm (hb.live hk')
      obtain ⟨m, hm, rfl⟩ := ha.exists_eq (e' ▸ hb.live hk')
      have hmk : m < k := ha.restricts.strictMono.lt_iff_lt.mp
        (h'.lt_of_languageFrom_eq h hl.symm (hb.live hk') (hb.live hn) e' e.symm
          (hb.restricts.strictMono hlt))
      obtain ⟨hm', e''⟩ := ih m hmk hm
      exact absurd (hb.eq_of_languageFrom h' hm' hk' (e''.symm.trans e'.symm)) hmk.ne

theorem size_eq : a'.size = b'.size := by
  refine le_antisymm (Nat.le_of_not_lt ?_) (Nat.le_of_not_lt ?_)
  · intro hlt
    exact Nat.lt_irrefl _ (languageFrom_eq h h' hl ha hb hlt).1
  · intro hlt
    exact Nat.lt_irrefl _ (languageFrom_eq h' h hl.symm hb ha hlt).1

theorem mem_transitions {t : Transition} (ht : t ∈ (a'.stateAt k).transitions) :
    t ∈ (b'.stateAt k).transitions := by
  have hk := lt_size_of_mem ht
  obtain ⟨hk', e⟩ := languageFrom_eq h h' hl ha hb hk
  have hfk := ha.restricts.lt_size_iff.mp hk
  have hgk := hb.restricts.lt_size_iff.mp hk'
  obtain ⟨c, hc, et⟩ := h.tabular.mem_transitions (ha.restricts.mem_transitions_iff.mp ht)
  obtain ⟨htarget, hlabel⟩ := Transition.mk.inj et
  have hlt : t.target < a'.size := by
    rw [ha.restricts.lt_size_iff, htarget]
    exact h.tabular.lt_size _ hfk c hc
  obtain ⟨-, e'⟩ := languageFrom_eq h h' hl ha hb hlt
  -- The letter stands in a word, so `b` has it too.
  obtain ⟨w, hw⟩ := exists_mem_of_ne_zero (ha.live hlt)
  rw [htarget] at hw e'
  have hcw := (h.tabular.cons_mem_languageFrom_iff hfk).mpr ⟨hc, hw⟩
  rw [e] at hcw
  have hc' := ((h'.tabular.cons_mem_languageFrom_iff hgk).mp hcw).1
  have hstep := h.tabular.languageFrom_step h'.tabular hfk hgk e hc hc'
  have hgt : g t.target < b.size := by
    rw [← hb.restricts.lt_size_iff, ← size_eq h h' hl ha hb]
    exact hlt
  have hgtarget := h'.reduced _ hgt _ (h'.tabular.lt_size _ hgk c hc') (e'.symm.trans hstep)
  have hmem := h'.tabular.mem_of_mem_alphabet hgk hc'
  rw [hb.restricts.mem_transitions_iff, Transition.mapTarget, hgtarget, hlabel]
  exact hmem

omit h' hl hb in
theorem pairwise_transitions (k : Nat) : (a'.stateAt k).transitions.Pairwise Transition.Precedes := by
  by_cases hk : k < a'.size
  · have hall : (a.stateAt (f k)).transitions.Pairwise Transition.Precedes := by
      rw [h.tabular.transitions_eq _ (ha.restricts.lt_size_iff.mp hk), List.pairwise_map]
      exact a.alphabet.ascending.imp fun hlt => ⟨_, _, rfl, rfl, hlt⟩
    have hleft := hall.sublist (List.filter_sublist (p := fun t => decide (t.target ∉ gone)))
    rw [← ha.restricts.transitions_eq, List.pairwise_map] at hleft
    exact hleft
  · rw [stateAt_of_size_le (Nat.not_lt.mp hk)]
    exact .nil

theorem states_eq : a'.states = b'.states := by
  have hsize := size_eq h h' hl ha hb
  refine states_eq_of_stateAt hsize fun k hk => congrArg₂ State.mk ?_ ?_
  · obtain ⟨-, e⟩ := languageFrom_eq h h' hl ha hb hk
    have hf : a'.isFinalAt k = b'.isFinalAt k := by
      rw [ha.restricts.isFinalAt_eq, hb.restricts.isFinalAt_eq, Bool.eq_iff_iff,
        ← h.tabular.nil_mem_languageFrom_iff, ← h'.tabular.nil_mem_languageFrom_iff, e]
    exact hf
  · refine (ha.pairwise_transitions h k).eq_of_mem_iff (hb.pairwise_transitions h' k) fun t => ?_
    exact ⟨mem_transitions h h' hl ha hb, mem_transitions h' h hl.symm hb ha⟩

theorem start_eq : a'.start = b'.start := by
  have hstart := hb.restricts.start_eq
  have hlt : a'.start < a'.size := by
    rw [ha.restricts.lt_size_iff, ha.restricts.start_eq]
    exact h.dfa.start_lt
  obtain ⟨hlt', e⟩ := languageFrom_eq h h' hl ha hb hlt
  have hlt'' : b'.start < b'.size := by
    rw [hb.restricts.lt_size_iff, hb.restricts.start_eq]
    exact h'.dfa.start_lt
  refine hb.eq_of_languageFrom h' hlt' hlt'' ?_
  rw [← e, ha.restricts.start_eq, hb.restricts.start_eq]
  exact hl

end LivePart

/-! ## The regex read off -/

/-- A state without words is a trap, if it is not the only one. -/
theorem Canonical.trap (h : a.Canonical δ) (h0 : a.language ≠ 0) (hi : i < a.size)
    (hdead : a.languageFrom i = 0) : a.Trap i where
  lt_size := hi
  ne_start := by
    rintro rfl
    exact h0 hdead
  not_final := by
    rw [← Bool.not_eq_true, ← h.tabular.nil_mem_languageFrom_iff, hdead]
    exact Language.notMem_zero []
  stays := by
    intro t ht
    obtain ⟨c, hc, rfl⟩ := h.tabular.mem_transitions ht
    refine h.reduced _ (h.tabular.lt_size i hi c hc) i hi ?_
    rw [hdead, Language.ext_iff]
    intro w
    refine iff_of_false (fun hw => ?_) (Language.notMem_zero w)
    have hcw := (h.tabular.cons_mem_languageFrom_iff hi).mpr ⟨hc, hw⟩
    rw [hdead] at hcw
    exact Language.notMem_zero _ hcw

theorem Canonical.exists_livePart (h : a.Canonical δ) (h0 : a.language ≠ 0) : ∃ a' gone f,
    a.LivePart a' gone f ∧ a'.isDeterministic ∧ a'.toRegex = a.toRegex := by
  have hd := h.tabular.isDeterministic
  by_cases hdead : ∃ t < a.size, a.languageFrom t = 0
  · obtain ⟨t, ht, hzero⟩ := hdead
    have htrap := h.trap h0 ht hzero
    refine ⟨_, _, _, ⟨restricts_without ht htrap.ne_start, ?_⟩,
      isDeterministic_without ht htrap.ne_start hd, htrap.toRegex_eq hd⟩
    intro i hi
    rw [List.mem_singleton]
    constructor
    · rintro rfl
      exact hzero
    · intro e
      exact h.reduced i hi t ht (e.trans hzero.symm)
  · refine ⟨a, [], id, ⟨.refl a, ?_⟩, hd, rfl⟩
    intro i hi
    exact iff_of_false List.not_mem_nil fun e => hdead ⟨i, hi, e⟩

/-- Minimal automata of the same language give the same regex, whatever letters they
    know. -/
theorem Canonical.toRegex_eq (h : a.Canonical δ) (h' : b.Canonical δ') (hl : a.language = b.language)
    (h0 : a.language ≠ 0) : a.toRegex = b.toRegex := by
  obtain ⟨a', _, _, ha, hda, hea⟩ := h.exists_livePart h0
  obtain ⟨b', _, _, hb, hdb, heb⟩ := h'.exists_livePart (hl ▸ h0)
  rw [← hea, ← heb]
  exact toRegex_congr (LivePart.states_eq h h' hl ha hb) (LivePart.start_eq h h' hl ha hb) hda hdb

end Automaton

/-! ## Normal forms -/

namespace Regex

open Automaton

theorem exists_canonical (r : Regex) (letters : Alphabet) : ∃ (a : Automaton) (δ : Nat → Char → Nat),
    r.minimalDfa letters = .ok a ∧ a.Canonical δ ∧ a.language = r.language := by
  obtain ⟨b, hb, hdet, -, hl⟩ := r.minimalDfa_eq_ok letters
  refine ⟨_, _, hb, ⟨hdet.tabular_minimized, hdet.discovered_minimized, hdet.reduced_minimized,
    hdet.size_minimized_pos⟩, hdet.language_minimized.trans hl⟩

/-- What has no words is read off as ∅. -/
theorem normalForm_eq_zero {r : Regex} (h : r.language = 0) (letters : Alphabet) :
    r.normalForm letters = .ok zero := by
  obtain ⟨n, hn, hl⟩ := r.normalForm_eq_ok letters
  rw [hn, (stable_tidy.normalForm hn).language_eq_zero_iff.mp (hl.trans h)]

theorem normalForm_eq_iff (r₁ r₂ : Regex) (A₁ A₂ : Alphabet) :
    r₁.normalForm A₁ = r₂.normalForm A₂ ↔ r₁.language = r₂.language := by
  constructor
  · intro h
    obtain ⟨n₁, hn₁, hl₁⟩ := r₁.normalForm_eq_ok A₁
    obtain ⟨n₂, hn₂, hl₂⟩ := r₂.normalForm_eq_ok A₂
    cases hn₁.symm.trans (h.trans hn₂)
    exact hl₁.symm.trans hl₂
  · intro hl
    by_cases h0 : r₁.language = 0
    · rw [normalForm_eq_zero h0, normalForm_eq_zero (hl ▸ h0)]
    · obtain ⟨a, δ, ha, hca, hla⟩ := r₁.exists_canonical A₁
      obtain ⟨b, δ', hb, hcb, hlb⟩ := r₂.exists_canonical A₂
      have h := hca.toRegex_eq hcb (hla.trans (hl.trans hlb.symm)) (hla ▸ h0)
      rw [normalForm, normalForm, ha, hb]
      exact h

/-- Over the same letters the normal form is its own, as a value: the nesting of its unions and
    concatenations does not change when it is read off again, nor does it where letters have
    gone that stood in no word. -/
theorem normalForm_idempotent (r : Regex) (letters : Alphabet) :
    ∃ n, r.normalForm letters = .ok n ∧ n.normalForm letters = .ok n := by
  obtain ⟨n, hn, hl⟩ := r.normalForm_eq_ok letters
  exact ⟨n, hn, ((normalForm_eq_iff n r letters letters).mpr hl).trans hn⟩

end Regex

end RegularLang
