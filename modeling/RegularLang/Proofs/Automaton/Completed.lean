/-
  RegularLang.Proofs.Automaton.Completed — completion adds what is missing and nothing else
  (`complete_exact`).

  What is missing leads to a trap, from which no final state is reached: the language stays,
  and every state has a transition on every letter. The trap gets what a state without
  transitions misses, so that one equation covers it and the states from before
  (`stateAt_completed`).
-/

import RegularLang.Automaton.Deterministic
import RegularLang.Proofs.Automaton.Simulated

namespace RegularLang

/-! ## What a state misses -/

/-- As many transitions on a letter as the letter has places in the list. -/
theorem countP_map_char (f : Char → Nat) (letters : List Char) (c : Char) :
    (letters.map fun d => (⟨f d, .char d⟩ : Transition)).countP (·.label = .char c) =
      letters.count c := by
  rw [List.countP_map]
  refine List.countP_congr ?_
  intro d _
  simp

theorem mem_linksTo {target : Nat} {letters : List Char} {t : Transition} :
    t ∈ linksTo target letters ↔ ∃ c ∈ letters, t = ⟨target, .char c⟩ := by
  simp [linksTo, eq_comm]

namespace State

variable {st : State} {letters : Alphabet} {c : Char}

theorem isSome_find?_iff : (st.find? c).isSome ↔ ∃ t ∈ st.transitions, t.label = .char c := by
  rw [find?, List.findIdx?_isSome, List.any_eq_true]
  simp

theorem mem_missing_iff :
    c ∈ st.missing letters ↔ c ∈ letters ∧ ∀ t ∈ st.transitions, t.label ≠ .char c := by
  rw [missing, List.mem_filter, ← SortedSet.mem_def, ← Option.not_isSome, Bool.not_eq_true',
    ← Bool.not_eq_true, isSome_find?_iff]
  simp

theorem nodup_missing (st : State) (letters : Alphabet) : (st.missing letters).Nodup :=
  letters.nodup_toList.filter _

theorem missing_eq_nil_iff :
    st.missing letters = [] ↔ ∀ c ∈ letters, ∃ t ∈ st.transitions, t.label = .char c := by
  simp [List.eq_nil_iff_forall_not_mem, mem_missing_iff]

theorem missing_dead (letters : Alphabet) : dead.missing letters = letters.toList :=
  List.filter_eq_self.mpr fun _ _ => rfl

end State

namespace Automaton

variable {a : Automaton}

/-- The state with what is missing leading to `trap`. -/
def fill (letters : Alphabet) (trap : Nat) (st : State) : State :=
  { st with transitions := st.transitions ++ linksTo trap (st.missing letters) }

section Filled

variable {letters : Alphabet} {trap : Nat} {st : State} {c : Char}

theorem fill_of_missing_eq_nil (h : st.missing letters = []) : fill letters trap st = st := by
  rw [fill, h, linksTo, List.map_nil, List.append_nil]

theorem fill_dead (letters : Alphabet) (trap : Nat) :
    fill letters trap .dead = ⟨false, linksTo trap letters.toList⟩ := by
  rw [fill, State.missing_dead]
  rfl

theorem exists_mem_fill (hc : c ∈ letters) :
    ∃ t ∈ (fill letters trap st).transitions, t.label = .char c := by
  by_cases hm : c ∈ st.missing letters
  · exact ⟨_, List.mem_append_right _ (mem_linksTo.mpr ⟨c, hm, rfl⟩), rfl⟩
  · rw [State.mem_missing_iff] at hm
    push Not at hm
    obtain ⟨t, ht, hl⟩ := hm hc
    exact ⟨t, List.mem_append_left _ ht, hl⟩

/-- A letter is added once, and only to a state that has no transition on it. -/
theorem count_fill_le_one (h : st.count c ≤ 1) : (fill letters trap st).count c ≤ 1 := by
  have hadded : (linksTo trap (st.missing letters)).countP (·.label = .char c) =
      (st.missing letters).count c := countP_map_char (fun _ => trap) _ c
  rw [State.count] at h
  rw [State.count, fill, List.countP_append, hadded]
  by_cases hm : c ∈ st.missing letters
  · have hnone : st.transitions.countP (·.label = .char c) = 0 :=
      List.countP_eq_zero.mpr fun t ht => by simpa using (State.mem_missing_iff.mp hm).2 t ht
    have honce := List.nodup_iff_count_le_one.mp (st.nodup_missing letters) c
    omega
  · rw [List.count_eq_zero_of_not_mem hm]
    exact h

end Filled

/-! ## The completed automaton -/

theorem isComplete_iff : a.isComplete ↔ a.isSimple ∧
    ∀ p < a.size, ∀ c ∈ a.alphabet, ∃ t ∈ (a.stateAt p).transitions, t.label = .char c := by
  rw [isComplete, Bool.and_eq_true, all_states_iff]
  simp only [List.all_eq_true, State.isSome_find?_iff]
  rfl

theorem completed_eq_self (h : ∀ p < a.size, (a.stateAt p).missing a.alphabet = []) :
    a.completed = a :=
  if_pos (all_states_iff.mpr fun p hp => List.isEmpty_iff.mpr (h p hp))

theorem completed_of_missing {p : Nat} (hp : p < a.size)
    (h : (a.stateAt p).missing a.alphabet ≠ []) :
    a.completed = ⟨(a.mapStates (fill a.alphabet a.size)).states ++
      [⟨false, linksTo a.size a.alphabet.toList⟩], a.start, a.alphabet⟩ := by
  rw [completed, if_neg]
  · rfl
  · rw [all_states_iff]
    exact fun hall => h (List.isEmpty_iff.mp (hall p hp))

/-- Either nothing is missing, or there is one more state. -/
theorem completed_cases (a : Automaton) :
    (∀ p < a.size, (a.stateAt p).missing a.alphabet = []) ∧ a.completed = a ∨
      (∃ p < a.size, (a.stateAt p).missing a.alphabet ≠ []) ∧ a.completed.size = a.size + 1 := by
  by_cases h : ∀ p < a.size, (a.stateAt p).missing a.alphabet = []
  · exact .inl ⟨h, completed_eq_self h⟩
  · push Not at h
    obtain ⟨p, hp, hm⟩ := h
    refine .inr ⟨⟨p, hp, hm⟩, ?_⟩
    rw [completed_of_missing hp hm]
    simp [size, mapStates]

theorem stateAt_completed {p : Nat} (hp : p < a.completed.size) :
    a.completed.stateAt p = fill a.alphabet a.size (a.stateAt p) := by
  rcases completed_cases a with ⟨hnone, e⟩ | ⟨⟨q, hq, hm⟩, hsize⟩
  · rw [e] at hp ⊢
    rw [fill_of_missing_eq_nil (hnone p hp)]
  · rw [hsize] at hp
    rw [completed_of_missing hq hm, stateAt_snoc, size_mapStates]
    split_ifs with h
    · rw [h, stateAt_of_size_le le_rfl, fill_dead]
    · rw [stateAt_mapStates (by omega)]

theorem start_completed (a : Automaton) : a.completed.start = a.start := by
  rw [completed]
  split <;> rfl

theorem alphabet_completed (a : Automaton) : a.completed.alphabet = a.alphabet := by
  rw [completed]
  split <;> rfl

theorem size_le_completed (a : Automaton) : a.size ≤ a.completed.size := by
  rcases completed_cases a with ⟨-, e⟩ | ⟨-, e⟩
  · rw [e]
  · omega

/-- The transitions of a completed automaton: those from before, and letters that lead
    to the trap. -/
theorem mem_completed {p : Nat} {t : Transition} (h : t ∈ (a.completed.stateAt p).transitions) :
    t ∈ (a.stateAt p).transitions ∨
      a.completed.size = a.size + 1 ∧ ∃ c ∈ a.alphabet, t = ⟨a.size, .char c⟩ := by
  rcases completed_cases a with ⟨-, e⟩ | ⟨-, hsize⟩
  · exact .inl (e ▸ h)
  · rw [stateAt_completed (lt_size_of_mem h)] at h
    rcases List.mem_append.mp h with h | h
    · exact .inl h
    · obtain ⟨c, hc, rfl⟩ := mem_linksTo.mp h
      exact .inr ⟨hsize, c, (State.mem_missing_iff.mp hc).1, rfl⟩

theorem mem_completed_of_mem {p : Nat} {t : Transition} (h : t ∈ (a.stateAt p).transitions) :
    t ∈ (a.completed.stateAt p).transitions := by
  rw [stateAt_completed ((lt_size_of_mem h).trans_le (size_le_completed a))]
  exact List.mem_append_left _ h

theorem isFinalAt_completed (a : Automaton) (p : Nat) : a.completed.isFinalAt p = a.isFinalAt p := by
  by_cases hp : p < a.completed.size
  · rw [isFinalAt, stateAt_completed hp]
    rfl
  · have hle := Nat.not_lt.mp hp
    rw [isFinalAt, isFinalAt, stateAt_of_size_le hle,
      stateAt_of_size_le ((size_le_completed a).trans hle)]

theorem wellFormed_completed (ha : a.WellFormed) : a.completed.WellFormed := by
  rcases completed_cases a with ⟨-, e⟩ | ⟨-, hsize⟩
  · rwa [e]
  · refine .of_stateAt (.inl ?_) (alphabet_completed a ▸ ha.epsilon_not_mem) ?_
    · rw [start_completed]
      rcases ha.start_lt with h | ⟨-, h⟩ <;> omega
    · intro p hp t ht
      rw [alphabet_completed]
      rcases mem_completed ht with ht | ⟨-, c, hc, rfl⟩
      · have := ha.target_lt_of_mem ht
        exact ⟨by omega, fun c => ha.letters_mem_of_mem ht⟩
      · refine ⟨by simp [hsize], ?_⟩
        intro d hd
        rw [Regex.letters_char] at hd
        split_ifs at hd
        · cases hd
        · rwa [List.mem_singleton.mp hd]

theorem isSimple_completed (hs : a.isSimple) : a.completed.isSimple := by
  apply isSimple_iff.mpr
  intro p t ht
  rcases mem_completed ht with ht | ⟨-, c, -, rfl⟩
  · exact isSimple_iff.mp hs p t ht
  · rfl

theorem isComplete_completed (hs : a.isSimple) : a.completed.isComplete := by
  refine isComplete_iff.mpr ⟨isSimple_completed hs, ?_⟩
  intro p hp c hc
  rw [alphabet_completed] at hc
  rw [stateAt_completed hp]
  exact exists_mem_fill hc

theorem isDeterministic_completed (hd : a.isDeterministic) : a.completed.isDeterministic := by
  obtain ⟨hs, hcount⟩ := isDeterministic_iff.mp hd
  refine isDeterministic_iff.mpr ⟨isSimple_completed hs, ?_⟩
  intro p hp c hc
  rw [alphabet_completed] at hc
  rw [stateAt_completed hp]
  apply count_fill_le_one
  by_cases hlt : p < a.size
  · exact hcount p hlt c hc
  · rw [stateAt_of_size_le (Nat.not_lt.mp hlt)]
    exact Nat.zero_le 1

theorem hasEpsilon_completed (ha : a.WellFormed) (he : a.hasEpsilon = false) :
    a.completed.hasEpsilon = false := by
  apply hasEpsilon_eq_false_iff.mpr
  intro p t ht
  rcases mem_completed ht with ht | ⟨-, c, hc, rfl⟩
  · exact hasEpsilon_eq_false_iff.mp he p t ht
  · exact decide_eq_false fun e => ha.epsilon_not_mem (e ▸ hc)

theorem completed_of_isComplete (h : a.isComplete) : a.completed = a :=
  completed_eq_self fun p hp => State.missing_eq_nil_iff.mpr ((isComplete_iff.mp h).2 p hp)

/-! ## The words -/

/-- The trap reads nothing, so that the other states keep their words. -/
theorem languageFrom_completed (a : Automaton) : a.completed.languageFrom = a.languageFrom := by
  funext p
  refine le_antisymm (languageFrom_le ?_ p) (languageFrom_le ?_ p)
  · intro q
    refine State.reads_le_iff.mpr ⟨fun hf => one_le_languageFrom ?_, ?_⟩
    · rw [← isFinalAt_completed]
      exact hf
    · intro t ht
      rcases mem_completed ht with ht | ⟨-, c, -, rfl⟩
      · exact mul_le_languageFrom ht
      · rw [languageFrom_of_size_le le_rfl, mul_zero]
        exact zero_le
  · intro q
    refine State.reads_le_iff.mpr ⟨fun hf => one_le_languageFrom ?_, ?_⟩
    · rw [isFinalAt_completed]
      exact hf
    · intro t ht
      exact mul_le_languageFrom (mem_completed_of_mem ht)

theorem language_completed (a : Automaton) : a.completed.language = a.language := by
  rw [language_eq_languageFrom, languageFrom_completed, start_completed]
  rfl

theorem accepts_completed (ha : a.WellFormed) (w : List Char) :
    a.completed.accepts w = a.accepts w := by
  rw [Bool.eq_iff_iff, accepts_iff_mem (wellFormed_completed ha), accepts_iff_mem ha,
    language_completed]

/-! ## What completion adds -/

/-- A state that is neither the start nor final, and that nothing leaves. -/
structure Trap (a : Automaton) (t : Nat) : Prop where
  lt_size : t < a.size
  ne_start : t ≠ a.start
  not_final : a.isFinalAt t = false
  stays : ∀ u ∈ (a.stateAt t).transitions, u.target = t

/-- What is added is one trap at most. -/
theorem trap_completed (ha : a.WellFormed) (hpos : 0 < a.size)
    (hsize : a.completed.size = a.size + 1) : a.completed.Trap a.size where
  lt_size := by omega
  ne_start := by
    rw [start_completed]
    exact (ha.start_lt_of_pos hpos).ne'
  not_final := by
    rw [isFinalAt_completed, isFinalAt, stateAt_of_size_le le_rfl]
    rfl
  stays := by
    intro t ht
    rcases mem_completed ht with ht | ⟨-, c, -, rfl⟩
    · exact absurd (lt_size_of_mem ht) (Nat.lt_irrefl _)
    · rfl

/-- Completing a simple automaton gives every state a transition on every letter and changes
    nothing else: the words, the start and the final states stay, and behind its transitions
    each state gets one to a new state on each letter that it has none on. That state is a
    trap, and is there only if a letter is missing somewhere. A deterministic automaton stays
    so, and completing again changes nothing. -/
theorem complete_exact (ha : a.WellFormed) (hs : a.isSimple) :
    ∃ b, a.complete = .ok b ∧ b.WellFormed ∧ b.isComplete ∧
      (∀ w, b.accepts w = a.accepts w) ∧ b.start = a.start ∧ b.alphabet = a.alphabet ∧
      (∀ p < a.size, b.isFinalAt p = a.isFinalAt p ∧ ∃ letters : List Char,
        (b.stateAt p).transitions = (a.stateAt p).transitions ++ linksTo a.size letters ∧
        letters.Nodup ∧
        ∀ c, c ∈ letters ↔ c ∈ a.alphabet ∧ ∀ t ∈ (a.stateAt p).transitions, t.label ≠ .char c) ∧
      (b = a ∨ b.size = a.size + 1 ∧ b.Trap a.size ∧ ∃ p < a.size, ∃ c ∈ a.alphabet,
        ∀ t ∈ (a.stateAt p).transitions, t.label ≠ .char c) ∧
      (a.isDeterministic → b.isDeterministic) ∧ b.complete = .ok b := by
  refine ⟨a.completed, if_pos hs, wellFormed_completed ha, isComplete_completed hs,
    accepts_completed ha, start_completed a, alphabet_completed a, ?_, ?_,
    isDeterministic_completed, ?_⟩
  · intro p hp
    refine ⟨isFinalAt_completed a p, (a.stateAt p).missing a.alphabet, ?_,
      State.nodup_missing _ _, fun c => State.mem_missing_iff⟩
    rw [stateAt_completed (hp.trans_le (size_le_completed a))]
    rfl
  · rcases completed_cases a with ⟨-, e⟩ | ⟨⟨p, hp, hm⟩, hsize⟩
    · exact .inl e
    · obtain ⟨c, hc⟩ := List.exists_mem_of_ne_nil _ hm
      obtain ⟨hc, hnone⟩ := State.mem_missing_iff.mp hc
      exact .inr ⟨hsize, trap_completed ha (Nat.zero_lt_of_lt hp) hsize, p, hp, c, hc, hnone⟩
  · rw [complete, if_pos (isSimple_completed hs), completed_of_isComplete (isComplete_completed hs)]

/-- The first automaton is not deterministic and has a cycle of ε-transitions, the second is
    deterministic but for an ε-transition. Each lacks a letter in one state. -/
theorem complete_exact_gaps :
    let a : Automaton := ⟨[
      ⟨false, [⟨1, .char 'a'⟩, ⟨0, .char 'a'⟩, ⟨1, .eps⟩]⟩,
      ⟨true, [⟨1, .char 'b'⟩, ⟨0, .eps⟩, ⟨0, .char 'a'⟩]⟩], 0, .ofList ['a', 'b']⟩
    let d : Automaton := ⟨[
      ⟨false, [⟨1, .char 'b'⟩, ⟨1, .char 'a'⟩]⟩,
      ⟨true, [⟨0, .eps⟩, ⟨1, .char 'b'⟩]⟩], 1, .ofList ['a', 'b']⟩
    a.WellFormed ∧ a.isSimple ∧ d.WellFormed ∧ d.isSimple ∧
      (∃ b, a.complete = .ok b ∧ b.isComplete ∧ (∀ w, b.accepts w = a.accepts w) ∧
        b.size = 3 ∧ b.Trap 2 ∧ b.complete = .ok b) ∧
      ∃ e, d.complete = .ok e ∧ e.isComplete ∧ e.isDeterministic := by
  intro a d
  have ha : a.WellFormed := ⟨by decide, .inl (by decide), by decide, by
    simp [a, Regex.eps, epsilon]⟩
  have hd : d.WellFormed := ⟨by decide, .inl (by decide), by decide, by
    simp [d, Regex.eps, epsilon]⟩
  have has : a.isSimple := by decide
  have hds : d.isSimple := by decide
  obtain ⟨b, hb, -, hcomplete, haccepts, -, -, -, hmore, -, hagain⟩ := complete_exact ha has
  obtain ⟨e, he, -, hecomplete, -, -, -, -, -, hdet, -⟩ := complete_exact hd hds
  have hlacks : ¬a.isComplete := by decide
  obtain ⟨hsize, htrap, -⟩ := hmore.resolve_left fun h => hlacks (h ▸ hcomplete)
  exact ⟨ha, has, hd, hds, ⟨b, hb, hcomplete, haccepts, hsize, htrap, hagain⟩, e, he, hecomplete,
    hdet (by decide)⟩

end Automaton

/-! ## Transition functions

Each state has exactly one transition on each letter, letters ascending. Such automata are
complete, deterministic and free of ε, and determined by the function, the final states, the
start and the alphabet (`Tabular.eq_of`). -/

namespace Automaton

variable {a b : Automaton} {δ : Nat → Char → Nat}

/-- `a` has the transition function `δ`. -/
structure Tabular (a : Automaton) (δ : Nat → Char → Nat) : Prop where
  epsilon_not_mem : epsilon ∉ a.alphabet
  lt_size : ∀ p < a.size, ∀ c ∈ a.alphabet, δ p c < a.size
  transitions_eq : ∀ p < a.size,
    (a.stateAt p).transitions = a.alphabet.toList.map fun c => ⟨δ p c, .char c⟩

namespace Tabular

theorem mem_transitions (h : a.Tabular δ) {p : Nat} {t : Transition}
    (ht : t ∈ (a.stateAt p).transitions) : ∃ c ∈ a.alphabet, t = ⟨δ p c, .char c⟩ := by
  rw [h.transitions_eq p (lt_size_of_mem ht)] at ht
  obtain ⟨c, hc, rfl⟩ := List.mem_map.mp ht
  exact ⟨c, hc, rfl⟩

theorem mem_of_mem_alphabet (h : a.Tabular δ) {p : Nat} (hp : p < a.size) {c : Char}
    (hc : c ∈ a.alphabet) : ⟨δ p c, .char c⟩ ∈ (a.stateAt p).transitions := by
  rw [h.transitions_eq p hp]
  exact List.mem_map.mpr ⟨c, hc, rfl⟩

theorem ne_epsilon (h : a.Tabular δ) {c : Char} (hc : c ∈ a.alphabet) : c ≠ epsilon :=
  fun e => h.epsilon_not_mem (e ▸ hc)

theorem wellFormed (h : a.Tabular δ) (hs : a.start < a.size) : a.WellFormed := by
  refine .of_stateAt (.inl hs) h.epsilon_not_mem ?_
  intro p hp t ht
  obtain ⟨c, hc, rfl⟩ := h.mem_transitions ht
  refine ⟨h.lt_size p hp c hc, ?_⟩
  intro d hd
  rw [Regex.letters_char, if_neg (h.ne_epsilon hc)] at hd
  rwa [List.mem_singleton.mp hd]

theorem isSimple (h : a.Tabular δ) : a.isSimple := by
  apply isSimple_iff.mpr
  intro p t ht
  obtain ⟨c, -, rfl⟩ := h.mem_transitions ht
  rfl

theorem hasEpsilon (h : a.Tabular δ) : a.hasEpsilon = false := by
  apply hasEpsilon_eq_false_iff.mpr
  intro p t ht
  obtain ⟨c, hc, rfl⟩ := h.mem_transitions ht
  exact decide_eq_false (h.ne_epsilon hc)

theorem isComplete (h : a.Tabular δ) : a.isComplete :=
  isComplete_iff.mpr ⟨h.isSimple, fun _ hp _ hc => ⟨_, h.mem_of_mem_alphabet hp hc, rfl⟩⟩

theorem isDeterministic (h : a.Tabular δ) : a.isDeterministic := by
  refine isDeterministic_iff.mpr ⟨h.isSimple, ?_⟩
  intro p hp c _
  rw [State.count, h.transitions_eq p hp, countP_map_char]
  exact List.nodup_iff_count_le_one.mp a.alphabet.nodup_toList c

theorem mem_letterTargets_iff (h : a.Tabular δ) {p q : Nat} (hp : p < a.size) {c : Char} :
    q ∈ (a.stateAt p).letterTargets c ↔ c ∈ a.alphabet ∧ q = δ p c := by
  rw [State.mem_letterTargets]
  constructor
  · intro hx
    obtain ⟨t, ht, hc, rfl⟩ := hx
    obtain ⟨d, hd, rfl⟩ := h.mem_transitions ht
    obtain ⟨-, e⟩ := Regex.letter?_eq_some_iff.mp hc
    cases e
    exact ⟨hd, rfl⟩
  · intro hx
    obtain ⟨hc, rfl⟩ := hx
    exact ⟨_, h.mem_of_mem_alphabet hp hc, Regex.letter?_eq_some_iff.mpr ⟨h.ne_epsilon hc, rfl⟩, rfl⟩

theorem nil_mem_languageFrom_iff (h : a.Tabular δ) {p : Nat} :
    [] ∈ a.languageFrom p ↔ a.isFinalAt p :=
  Automaton.nil_mem_languageFrom_iff h.isSimple h.hasEpsilon

theorem cons_mem_languageFrom_iff (h : a.Tabular δ) {p : Nat} (hp : p < a.size) {c : Char}
    {w : List Char} :
    c :: w ∈ a.languageFrom p ↔ c ∈ a.alphabet ∧ w ∈ a.languageFrom (δ p c) := by
  rw [Automaton.cons_mem_languageFrom_iff h.isSimple h.hasEpsilon]
  simp only [h.mem_letterTargets_iff hp]
  constructor
  · intro hx
    obtain ⟨q, ⟨hc, rfl⟩, hw⟩ := hx
    exact ⟨hc, hw⟩
  · intro hx
    obtain ⟨hc, hw⟩ := hx
    exact ⟨_, ⟨hc, rfl⟩, hw⟩

/-- Two automata of the same size that start and move alike are equal. -/
theorem eq_of {δ' : Nat → Char → Nat} (h : a.Tabular δ) (h' : b.Tabular δ') (hsize : a.size = b.size)
    (hstart : a.start = b.start) (hal : a.alphabet = b.alphabet)
    (hfinal : ∀ p < a.size, a.isFinalAt p = b.isFinalAt p)
    (hstep : ∀ p < a.size, ∀ c ∈ a.alphabet, δ p c = δ' p c) : a = b := by
  refine eq_of_stateAt hsize hstart hal fun p hp => ?_
  have ht : (a.stateAt p).transitions = (b.stateAt p).transitions := by
    rw [h.transitions_eq p hp, h'.transitions_eq p (hsize ▸ hp), ← hal]
    exact List.map_congr_left fun c hc => by rw [hstep p hp c hc]
  have hf : (a.stateAt p).isFinal = (b.stateAt p).isFinal := hfinal p hp
  exact congrArg₂ State.mk hf ht

end Tabular

end Automaton

end RegularLang
