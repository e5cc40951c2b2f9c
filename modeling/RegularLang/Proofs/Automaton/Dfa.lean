/-
  RegularLang.Proofs.Automaton.Dfa — complete deterministic automata without
  ε-transitions. Every word over the alphabet is walked in exactly one way, and what a
  word leads to decides how it may go on (`Dfa.append_mem_languageFrom_iff`).

  So flipping the final states leads to the complement, relative to the words over the
  alphabet (`Dfa.mem_language_inverted`). Without completeness a word could have no
  walk, and be missing on both sides; with two walks it could be on both.
-/

import RegularLang.Automaton.Edit
import RegularLang.Proofs.Automaton.Minimized

namespace RegularLang

/-! ## Words over a set of letters -/

def wordsOver (S : Set Char) : Language Char := {w | ∀ c ∈ w, c ∈ S}

theorem nil_mem_wordsOver (S : Set Char) : [] ∈ wordsOver S := nofun

theorem cons_mem_wordsOver {S : Set Char} {c : Char} {w : List Char} :
    c :: w ∈ wordsOver S ↔ c ∈ S ∧ w ∈ wordsOver S := List.forall_mem_cons

theorem append_mem_wordsOver {S : Set Char} {u w : List Char} :
    u ++ w ∈ wordsOver S ↔ u ∈ wordsOver S ∧ w ∈ wordsOver S := List.forall_mem_append

namespace Automaton

variable {a : Automaton} {p q : Nat} {c : Char} {u w : List Char}

/-- The letters of the alphabet. -/
def letters (a : Automaton) : Set Char := {c | c ∈ a.alphabet}

/-! ## Walks -/

/-- Where the first transitions on the letters of a word lead. -/
def walk? (a : Automaton) (p : Nat) (w : List Char) : Option Nat := w.foldlM a.step? p

@[simp] theorem walk?_nil (a : Automaton) (p : Nat) : a.walk? p [] = some p := rfl

theorem walk?_cons (a : Automaton) (p : Nat) (c : Char) (w : List Char) :
    a.walk? p (c :: w) = (a.step? p c).bind (a.walk? · w) := rfl

theorem walk?_append (a : Automaton) (p : Nat) (u w : List Char) :
    a.walk? p (u ++ w) = (a.walk? p u).bind (a.walk? · w) := List.foldlM_append

theorem walk?_snoc (a : Automaton) (p : Nat) (w : List Char) (c : Char) :
    a.walk? p (w ++ [c]) = (a.walk? p w).bind (a.step? · c) := by
  rw [walk?_append]
  congr
  funext q
  rw [walk?_cons]
  cases a.step? q c <;> rfl

theorem walk?_lt_size (ha : a.WellFormed) (hp : p < a.size) (h : a.walk? p w = some q) :
    q < a.size := by
  induction w generalizing p with
  | nil =>
    obtain rfl := Option.some.inj h
    exact hp
  | cons c w ih =>
    rw [walk?_cons, Option.bind_eq_some_iff] at h
    obtain ⟨r, hr, h⟩ := h
    exact ih (step?_lt_size ha hr) h

theorem path_of_walk? (ha : a.WellFormed) (hw : w ∈ wordsOver a.letters)
    (h : a.walk? p w = some q) : a.Path p w q := by
  induction w generalizing p with
  | nil =>
    obtain rfl := Option.some.inj h
    exact .nil p
  | cons c w ih =>
    obtain ⟨hc, hw⟩ := cons_mem_wordsOver.mp hw
    rw [walk?_cons, Option.bind_eq_some_iff] at h
    obtain ⟨r, hr, h⟩ := h
    have hne : c ≠ epsilon := by
      rintro rfl
      exact ha.epsilon_not_mem hc
    have hl : [c] ∈ (Regex.char c).language := by
      rw [Regex.language_char, if_neg hne]
      rfl
    exact Path.cons (step?_eq_some hr) hl (ih hw h)

/-- In a complete automaton, every word over the alphabet leads somewhere. -/
theorem exists_walk? (ha : a.WellFormed) (hc : a.isComplete) (hp : p < a.size)
    (hw : w ∈ wordsOver a.letters) : ∃ q < a.size, a.walk? p w = some q := by
  induction w generalizing p with
  | nil => exact ⟨p, hp, rfl⟩
  | cons c w ih =>
    obtain ⟨hcm, hw⟩ := cons_mem_wordsOver.mp hw
    obtain ⟨r, hr⟩ := exists_step? hc hp hcm
    rw [walk?_cons, hr]
    exact ih (step?_lt_size ha hr) hw

theorem mem_stepLanguage_iff : w ∈ a.stepLanguage p ↔
    w ∈ wordsOver a.letters ∧ ∃ q, a.walk? p w = some q ∧ a.isFinalAt q := by
  induction w generalizing p with
  | nil => simp [nil_mem_stepLanguage, nil_mem_wordsOver]
  | cons c w ih =>
    rw [cons_mem_stepLanguage, cons_mem_wordsOver, walk?_cons]
    simp only [ih, Option.bind_eq_some_iff]
    constructor
    · intro hx
      obtain ⟨hc, r, hr, hw, q, hq, hf⟩ := hx
      exact ⟨⟨hc, hw⟩, q, ⟨r, hr, hq⟩, hf⟩
    · intro hx
      obtain ⟨⟨hc, hw⟩, q, ⟨r, hr, hq⟩, hf⟩ := hx
      exact ⟨hc, r, hr, hw, q, hq, hf⟩

/-! ## Complete deterministic automata -/

/-- An automaton with exactly one transition on each letter, and no other, in every state. -/
structure Dfa (a : Automaton) : Prop where
  wellFormed : a.WellFormed
  size_pos : 0 < a.size
  isComplete : a.isComplete
  isDeterministic : a.isDeterministic
  hasEpsilon : a.hasEpsilon = false

theorem Tabular.dfa {δ : Nat → Char → Nat} (h : a.Tabular δ) (hs : a.start < a.size) : a.Dfa :=
  ⟨h.wellFormed hs, Nat.zero_lt_of_lt hs, h.isComplete, h.isDeterministic, h.hasEpsilon⟩

theorem dfa_minimized (ha : a.WellFormed) (hc : a.isComplete) (hpos : 0 < a.size) :
    a.minimized.Dfa :=
  (tabular_minimized ha hc).dfa (classOf_lt_size ha hc (ha.start_lt_of_pos hpos))

namespace Dfa

variable (h : a.Dfa)

include h

theorem start_lt : a.start < a.size := h.wellFormed.start_lt_of_pos h.size_pos

theorem nil_mem_languageFrom_iff : [] ∈ a.languageFrom p ↔ a.isFinalAt p :=
  Automaton.nil_mem_languageFrom_iff (isComplete_iff.mp h.isComplete).1 h.hasEpsilon

theorem cons_mem_languageFrom_iff : c :: w ∈ a.languageFrom p ↔
    c ∈ a.letters ∧ ∃ q, a.step? p c = some q ∧ w ∈ a.languageFrom q := by
  have e := stepLanguage_eq h.wellFormed h.isDeterministic h.hasEpsilon
  simp only [← e]
  exact cons_mem_stepLanguage

/-- How a word may go on depends on where it leads. -/
theorem append_mem_languageFrom_iff : u ++ w ∈ a.languageFrom p ↔
    u ∈ wordsOver a.letters ∧ ∃ q, a.walk? p u = some q ∧ w ∈ a.languageFrom q := by
  induction u generalizing p with
  | nil => simp [nil_mem_wordsOver]
  | cons c u ih =>
    rw [List.cons_append, h.cons_mem_languageFrom_iff, cons_mem_wordsOver, walk?_cons]
    simp only [ih, Option.bind_eq_some_iff]
    grind

theorem languageFrom_le_wordsOver (p : Nat) : a.languageFrom p ≤ wordsOver a.letters := by
  intro w hw
  rw [← List.append_nil w] at hw
  exact (h.append_mem_languageFrom_iff.mp hw).1

/-- Every word over the alphabet leads somewhere. -/
theorem exists_walk? (hp : p < a.size) (hw : w ∈ wordsOver a.letters) :
    ∃ q < a.size, a.walk? p w = some q :=
  Automaton.exists_walk? h.wellFormed h.isComplete hp hw

theorem exists_letter {t : Transition} (ht : t ∈ (a.stateAt p).transitions) :
    ∃ c, t.label.letter? = some c :=
  Automaton.exists_letter (isComplete_iff.mp h.isComplete).1 h.hasEpsilon ht

/-- Only letters of the alphabet lead anywhere. -/
theorem mem_wordsOver_of_walk? (hw : a.walk? p w = some q) : w ∈ wordsOver a.letters := by
  induction w generalizing p with
  | nil => exact nil_mem_wordsOver _
  | cons c w ih =>
    rw [walk?_cons, Option.bind_eq_some_iff] at hw
    obtain ⟨r, hr, hw⟩ := hw
    have ht := step?_eq_some hr
    obtain ⟨d, hd⟩ := h.exists_letter ht
    obtain ⟨hne, e⟩ := Regex.letter?_eq_some_iff.mp hd
    cases e
    refine cons_mem_wordsOver.mpr ⟨h.wellFormed.letters_mem_of_mem ht ?_, ih hw⟩
    rw [Regex.letters_char, if_neg hne]
    exact List.mem_singleton_self _

end Dfa

/-! ## The complement -/

theorem size_inverted (a : Automaton) : a.inverted.size = a.size := size_mapStates ..

theorem alphabet_inverted (a : Automaton) : a.inverted.alphabet = a.alphabet := rfl

theorem transitions_inverted (a : Automaton) (p : Nat) :
    (a.inverted.stateAt p).transitions = (a.stateAt p).transitions := by
  by_cases hp : p < a.size
  · rw [inverted, stateAt_mapStates hp]
  · have hp := Nat.not_lt.mp hp
    rw [stateAt_of_size_le (by rwa [size_inverted]), stateAt_of_size_le hp]

theorem isFinalAt_inverted (hp : p < a.size) : a.inverted.isFinalAt p = !a.isFinalAt p := by
  rw [isFinalAt, inverted, stateAt_mapStates hp]
  rfl

theorem step?_inverted (a : Automaton) : a.inverted.step? = a.step? := by
  funext p c
  unfold step? State.step?
  rw [transitions_inverted]

theorem wellFormed_inverted (ha : a.WellFormed) : a.inverted.WellFormed := by
  apply ha.mapStates
  intro p t ht
  exact ⟨ha.target_lt_of_mem ht, fun c => ha.letters_mem_of_mem ht⟩

theorem Dfa.inverted (h : a.Dfa) : a.inverted.Dfa := by
  -- Every condition is one on the transitions, which stay.
  have hs : a.inverted.isSimple := by
    have := (isComplete_iff.mp h.isComplete).1
    rw [isSimple_iff] at this ⊢
    simpa only [transitions_inverted] using this
  refine ⟨wellFormed_inverted h.wellFormed, ?_, ?_, ?_, ?_⟩
  · rw [size_inverted]
    exact h.size_pos
  · have := (isComplete_iff.mp h.isComplete).2
    rw [isComplete_iff]
    simpa only [transitions_inverted, size_inverted, alphabet_inverted] using ⟨hs, this⟩
  · have := (isDeterministic_iff.mp h.isDeterministic).2
    rw [isDeterministic_iff]
    refine ⟨hs, ?_⟩
    simpa only [State.count, transitions_inverted, size_inverted, alphabet_inverted] using this
  · have := hasEpsilon_eq_false_iff.mp h.hasEpsilon
    rw [hasEpsilon_eq_false_iff]
    simpa only [transitions_inverted] using this

/-- After every word over the alphabet the walk is in the same state of both, final in
    exactly one. -/
theorem Dfa.mem_languageFrom_inverted (h : a.Dfa) (hp : p < a.size) :
    w ∈ a.inverted.languageFrom p ↔ w ∈ wordsOver a.letters ∧ w ∉ a.languageFrom p := by
  induction w generalizing p with
  | nil =>
    rw [h.inverted.nil_mem_languageFrom_iff, h.nil_mem_languageFrom_iff, isFinalAt_inverted hp]
    simp [nil_mem_wordsOver]
  | cons c w ih =>
    rw [h.inverted.cons_mem_languageFrom_iff, h.cons_mem_languageFrom_iff, cons_mem_wordsOver,
      step?_inverted, and_assoc]
    apply and_congr_right
    intro hc
    -- By completeness the letter leads on: a word is never missing on both sides.
    obtain ⟨q, hq⟩ := exists_step? h.isComplete hp hc
    have hc : c ∈ a.letters := hc
    simp [hq, hc, ih (step?_lt_size h.wellFormed hq)]

theorem Dfa.mem_language_inverted (h : a.Dfa) :
    w ∈ a.inverted.language ↔ w ∈ wordsOver a.letters ∧ w ∉ a.language :=
  h.mem_languageFrom_inverted h.start_lt

end Automaton

end RegularLang
