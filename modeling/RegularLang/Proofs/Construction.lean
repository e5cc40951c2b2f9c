/-
  RegularLang.Proofs.Construction — the automata of a regex match its language.

  On the way to a deterministic automaton nothing is refused: each stage leaves what
  the next one asks for (`runStages_toDfa_eq_ok`). So a regex, its automaton and its
  deterministic automaton match the same words (`matchers_agree`), the minimal
  automaton decides whether two regexes do (`minimalDfa_eq_iff`) and has as few states
  as any (`minimalDfa_minimal`), the regex read off it matches them again
  (`toRegex_exact`), and the complement matches the other words (`complement_exact`).
-/

import RegularLang.Construction
import RegularLang.Proofs.Automaton.EpsilonFree
import RegularLang.Proofs.Automaton.ReadOff
import RegularLang.Proofs.Automaton.Residuals
import RegularLang.Proofs.Automaton.Trimmed
import RegularLang.Proofs.Regex.Quotient

namespace RegularLang

namespace Automaton

variable {a : Automaton} {r : Regex} {letters : Alphabet}

/-! ## The automaton of a regex -/

theorem language_ofRegex (r : Regex) : (ofRegex r).language = r.language := by
  have hlast : (ofRegex r).languageFrom 1 = 1 := by
    rw [languageFrom_eq]
    refine le_antisymm (State.reads_le_iff.mpr ⟨fun _ => le_rfl, nofun⟩) ?_
    exact State.one_le_reads rfl
  rw [language_eq_languageFrom]
  refine le_antisymm ?_ ?_
  · rw [languageFrom_eq]
    refine State.reads_le_iff.mpr ⟨nofun, ?_⟩
    intro t ht
    rw [List.mem_singleton.mp ht, hlast, mul_one]
  · have h := mul_le_languageFrom (a := ofRegex r) (p := 0) (t := ⟨1, r⟩) (List.mem_singleton_self _)
    rwa [hlast, mul_one] at h

theorem wellFormed_over (r : Regex) (letters : Alphabet) : (Automaton.over r letters).WellFormed :=
  (wellFormed_ofRegex r).extendAlphabet _

theorem languageFrom_extendAlphabet (a : Automaton) (cs : List Char) :
    (a.extendAlphabet cs).languageFrom = a.languageFrom :=
  languageFrom_congr fun _ _ => rfl

theorem language_over (r : Regex) (letters : Alphabet) :
    (Automaton.over r letters).language = r.language := by
  rw [← language_ofRegex, Automaton.over, language_eq_languageFrom, languageFrom_extendAlphabet]
  rfl

theorem mem_alphabet_over {c : Char} :
    c ∈ (Automaton.over r letters).alphabet ↔ c ∈ r.letters ∨ c ∈ letters ∧ c ≠ epsilon := by
  show c ∈ r.alphabet.insertAll _ ↔ _
  rw [SortedSet.mem_insertAll, Regex.mem_alphabet, List.mem_filter, decide_eq_true_iff]
  rfl

/-! ## The stages of the subset construction -/

/-- What the subset construction asks for. -/
structure Determinizable (a : Automaton) : Prop where
  wellFormed : a.WellFormed
  size_pos : 0 < a.size
  isComplete : a.isComplete
  hasEpsilon : a.hasEpsilon = false

theorem Determinizable.isSimple (h : a.Determinizable) : a.isSimple :=
  (isComplete_iff.mp h.isComplete).1

theorem Determinizable.determine_eq_ok (h : a.Determinizable) : a.determine = .ok a.determinized := by
  rw [determine, h.hasEpsilon, h.isComplete, if_neg nofun, if_neg nofun, if_neg h.size_pos.ne']

theorem Determinizable.tabular (h : a.Determinizable) : a.determinized.Tabular a.subsetStep :=
  tabular_determinized h.wellFormed h.size_pos

theorem Determinizable.language_eq (h : a.Determinizable) : a.determinized.language = a.language :=
  language_determinized h.wellFormed h.size_pos h.isSimple h.hasEpsilon

theorem Determinizable.start_lt (h : a.Determinizable) :
    a.determinized.start < a.determinized.size :=
  lt_size_determinized (getElem?_subsets_zero h.wellFormed h.size_pos)

/-! ### The minimal automaton of the result -/

section

variable (h : a.Determinizable)

include h

theorem Determinizable.wellFormed_determinized : a.determinized.WellFormed :=
  h.tabular.wellFormed h.start_lt

theorem Determinizable.tabular_minimized :
    a.determinized.minimized.Tabular a.determinized.classStep :=
  Automaton.tabular_minimized h.wellFormed_determinized h.tabular.isComplete

theorem Determinizable.discovered_minimized :
    a.determinized.minimized.Discovered a.determinized.classStep :=
  (discovered_determinized h.wellFormed h.size_pos).minimized h.tabular
    (Nat.zero_lt_of_lt h.start_lt)

theorem Determinizable.reduced_minimized : a.determinized.minimized.Reduced :=
  Automaton.reduced_minimized h.wellFormed_determinized h.tabular.isComplete

theorem Determinizable.size_minimized_pos : 0 < a.determinized.minimized.size :=
  Nat.zero_lt_of_lt (classOf_lt_size h.wellFormed_determinized h.tabular.isComplete h.start_lt)

omit h in
theorem alphabet_determinized (a : Automaton) : a.determinized.alphabet = a.alphabet := by
  rw [determinized]

omit h in
theorem alphabet_minimized (a : Automaton) : a.determinized.minimized.alphabet = a.alphabet := by
  rw [minimized, alphabet_determinized]

theorem Determinizable.dfa_determinized : a.determinized.Dfa := h.tabular.dfa h.start_lt

theorem Determinizable.dfa_minimized : a.determinized.minimized.Dfa :=
  Automaton.dfa_minimized h.wellFormed_determinized h.tabular.isComplete
    (Nat.zero_lt_of_lt h.start_lt)

theorem Determinizable.language_minimized : a.determinized.minimized.language = a.language := by
  rw [Automaton.language_minimized h.wellFormed_determinized h.tabular.isComplete
      (Nat.zero_lt_of_lt h.start_lt),
    stepLanguage_eq h.wellFormed_determinized h.tabular.isDeterministic h.tabular.hasEpsilon,
    ← language_eq_languageFrom, h.language_eq]

end

/-! ### From any automaton -/

/-- The stages before the last one leave what it asks for. -/
theorem runStages_toDfa_eq_ok (ha : a.WellFormed) (hpos : 0 < a.size) :
    ∃ b : Automaton, a.runStages Stage.toDfa = .ok b.determinized ∧ b.Determinizable ∧
      b.alphabet = a.alphabet ∧ b.language = a.language := by
  have hsimplified := extends_simplified ha
  obtain ⟨b, hb, hm, hfree⟩ := epsilonFree_eq_ok hsimplified.wellFormed (isSimple_simplified a)
  obtain ⟨c, gone, f, hc, hf, hl, -⟩ := trim_eq_ok hm.wellFormed
  have hzeros : b.dropZeros.isSimple := isSimple_iff.mpr fun p t ht =>
    isSimple_iff.mp hm.isSimple p t (mem_dropZeros ht)
  have hzerosfree : b.dropZeros.hasEpsilon = false := hasEpsilon_eq_false_iff.mpr fun p t ht =>
    hasEpsilon_eq_false_iff.mp hfree p t (mem_dropZeros ht)
  have hcwf := hf.wellFormed (wellFormed_dropZeros hm.wellFormed)
  have hcs := hf.isSimple hzeros
  have hcpos : 0 < c.size := by
    have hbpos := hm.size_pos (hpos.trans_le hsimplified.size_le)
    have hlt : f c.start < b.dropZeros.size := by
      rw [hf.start_eq, dropZeros, size_mapStates]
      exact hm.wellFormed.start_lt_of_pos hbpos
    exact Nat.zero_lt_of_lt (hf.lt_size_iff.mpr hlt)
  have hdet : c.completed.Determinizable :=
    ⟨wellFormed_completed hcwf, hcpos.trans_le (size_le_completed c), isComplete_completed hcs,
      hasEpsilon_completed hcwf (hf.hasEpsilon hzerosfree)⟩
  have hrun : a.runStages Stage.toDfa = .ok c.completed.determinized := by
    have hcomplete : c.complete = .ok c.completed := if_pos hcs
    simp only [Stage.toDfa, runStages_cons, Stage.apply, hb, hc, hcomplete, hdet.determine_eq_ok,
      Except.bind, runStages_nil]
  refine ⟨c.completed, hrun, hdet, ?_, ?_⟩
  · rw [alphabet_completed, hf.alphabet_eq]
    exact hm.alphabet_eq.trans hsimplified.alphabet_eq
  · rw [language_completed, hl, hm.language_eq, language_simplified ha]

end Automaton

/-! ## Three matchers -/

namespace Regex

theorem dfa_eq_ok (r : Regex) (letters : Alphabet) :
    ∃ b : Automaton, r.dfa letters = .ok b.determinized ∧ b.Determinizable ∧
      b.alphabet = (Automaton.over r letters).alphabet ∧ b.language = r.language := by
  obtain ⟨b, hb, hdet, hal, hl⟩ := Automaton.runStages_toDfa_eq_ok
    (Automaton.wellFormed_over r letters) (Nat.zero_lt_two)
  exact ⟨b, hb, hdet, hal, hl.trans (Automaton.language_over r letters)⟩

/-- Derivatives, the simulation of the automaton of a regex and its deterministic
    automaton, which always exists, match the words of the regex. -/
theorem matchers_agree (r : Regex) (letters : Alphabet) :
    ∃ d, r.dfa letters = .ok d ∧ ∀ w,
      (r.accepts w ↔ w ∈ r.language) ∧
      ((Automaton.over r letters).accepts w ↔ w ∈ r.language) ∧
      (d.accepts w ↔ w ∈ r.language) := by
  obtain ⟨b, hd, hdet, -, hl⟩ := dfa_eq_ok r letters
  refine ⟨_, hd, fun w => ⟨accepts_iff_mem, ?_, ?_⟩⟩
  · rw [Automaton.accepts_iff_mem (Automaton.wellFormed_over r letters), Automaton.language_over]
  · rw [Automaton.accepts_iff_mem hdet.wellFormed_determinized, hdet.language_eq, hl]

/-! ## Minimal automata -/

theorem minimalDfa_eq_ok (r : Regex) (letters : Alphabet) :
    ∃ b : Automaton, r.minimalDfa letters = .ok b.determinized.minimized ∧ b.Determinizable ∧
      b.alphabet = (Automaton.over r letters).alphabet ∧ b.language = r.language := by
  obtain ⟨b, hb, hdet, hal, hl⟩ := dfa_eq_ok r letters
  refine ⟨b, ?_, hdet, hal, hl⟩
  rw [minimalDfa, hb]
  exact Automaton.minimize_eq_ok hdet.tabular.isDeterministic hdet.tabular.isComplete
    (Nat.zero_lt_of_lt hdet.start_lt)

/-- The letters that an automaton of `r` over `letters` knows. -/
def knownLetters (r : Regex) (letters : Alphabet) : Set Char :=
  {c | (c ∈ r.letters ∨ c ∈ letters) ∧ c ≠ epsilon}

theorem knownLetters_eq (r : Regex) (letters : Alphabet) :
    knownLetters r letters = {c | c ∈ (Automaton.over r letters).alphabet} := by
  ext c
  show (c ∈ r.letters ∨ c ∈ letters) ∧ c ≠ epsilon ↔ c ∈ (Automaton.over r letters).alphabet
  rw [Automaton.mem_alphabet_over, or_and_right]
  exact or_congr_left (and_iff_left_of_imp fun h e => r.epsilon_not_mem_letters (e ▸ h))

theorem letters_eq_knownLetters {a : Automaton} {r : Regex} {letters : Alphabet}
    (h : a.alphabet = (Automaton.over r letters).alphabet) : a.letters = knownLetters r letters := by
  rw [knownLetters_eq, ← h]
  rfl

/-- Minimal automata are equal, with their numbers and the order of their transitions,
    exactly when their regexes match the same words and they know the same letters. -/
theorem minimalDfa_eq_iff (r₁ r₂ : Regex) (A₁ A₂ : Alphabet) :
    ∃ d₁ d₂, r₁.minimalDfa A₁ = .ok d₁ ∧ r₂.minimalDfa A₂ = .ok d₂ ∧
      (d₁ = d₂ ↔ r₁.language = r₂.language ∧ knownLetters r₁ A₁ = knownLetters r₂ A₂) := by
  obtain ⟨b₁, hd₁, hdet₁, hal₁, hl₁⟩ := minimalDfa_eq_ok r₁ A₁
  obtain ⟨b₂, hd₂, hdet₂, hal₂, hl₂⟩ := minimalDfa_eq_ok r₂ A₂
  refine ⟨_, _, hd₁, hd₂, ?_⟩
  rw [knownLetters_eq, knownLetters_eq, ← hal₁, ← hal₂, ← hl₁, ← hl₂, ← hdet₁.language_minimized,
    ← hdet₂.language_minimized]
  constructor
  · intro e
    have hal := congrArg Automaton.alphabet e
    rw [Automaton.alphabet_minimized, Automaton.alphabet_minimized] at hal
    rw [e, hal]
    exact ⟨rfl, rfl⟩
  · intro h
    obtain ⟨hl, hal⟩ := h
    have hal : b₁.determinized.minimized.alphabet = b₂.determinized.minimized.alphabet := by
      rw [Automaton.alphabet_minimized, Automaton.alphabet_minimized]
      exact SortedSet.ext fun c => Set.ext_iff.mp hal c
    exact hdet₁.discovered_minimized.eq_of_language hdet₂.discovered_minimized hdet₁.tabular_minimized
      hdet₂.tabular_minimized hdet₁.reduced_minimized hdet₂.reduced_minimized hal
      hdet₁.size_minimized_pos hdet₂.size_minimized_pos hl

/-- The minimal automaton is complete, deterministic and free of ε over the known letters,
    reaches all its states and matches the words of the regex. Its states are as many as
    the residuals of these, so that no complete deterministic automaton has fewer. -/
theorem minimalDfa_minimal (r : Regex) (letters : Alphabet) :
    ∃ d, r.minimalDfa letters = .ok d ∧ d.Dfa ∧ d.letters = knownLetters r letters ∧
      (∀ q < d.size, ∃ u, d.Path d.start u q) ∧
      (∀ w, d.accepts w ↔ w ∈ r.language) ∧
      (residuals (knownLetters r letters) r.language).encard = d.size ∧
      (∀ b : Automaton, b.Dfa → b.letters = knownLetters r letters → b.language = r.language →
        d.size ≤ b.size) ∧
      ∀ (σ : Type) [Fintype σ] (M : DFA (knownLetters r letters) σ),
        (∀ v, v ∈ M.accepts ↔ v.map Subtype.val ∈ r.language) → d.size ≤ Fintype.card σ := by
  obtain ⟨b, hb, hdet, hal, hl⟩ := minimalDfa_eq_ok r letters
  have hd := hdet.dfa_minimized
  have hletters := letters_eq_knownLetters ((Automaton.alphabet_minimized b).trans hal)
  have hlang := hdet.language_minimized.trans hl
  have hreach := fun q => hdet.discovered_minimized.exists_walk? hdet.tabular_minimized (q := q)
  have hcard := hd.encard_residuals_eq hdet.reduced_minimized hreach
  rw [hletters, hlang] at hcard
  refine ⟨_, hb, hd, hletters, ?_, ?_, hcard, ?_, ?_⟩
  · intro q hq
    obtain ⟨u, hu, hw⟩ := hreach q hq
    exact ⟨u, Automaton.path_of_walk? hd.wellFormed hu hw⟩
  · intro w
    rw [Automaton.accepts_iff_mem hd.wellFormed, hlang]
  · intro b' hb' hletters' hlang'
    have := hb'.encard_residuals_le
    rw [hletters', hlang', hcard] at this
    exact Nat.cast_le.mp this
  · intro σ _ M hM
    have := encard_residuals_le_card M hM
    rw [hcard] at this
    exact Nat.cast_le.mp this

/-- One state, final, with a transition on `a` back to itself. -/
def loopOnA : Automaton := ⟨[⟨true, [⟨0, .char 'a'⟩]⟩], 0, .ofList ['a']⟩

theorem minimalDfa_minimal_star :
    (loopOnA.Dfa ∧ loopOnA.letters = knownLetters (.star (.char 'a')) .empty ∧
      loopOnA.language = (star (.char 'a')).language) ∧
    ∃ d, (star (.char 'a')).minimalDfa .empty = .ok d ∧ d.size ≤ loopOnA.size ∧
      d.size ≤ Fintype.card Unit := by
  have hwf : loopOnA.WellFormed := ⟨by decide, by decide, by decide, by simp [loopOnA]⟩
  have hd : loopOnA.Dfa :=
    ⟨hwf, by decide, by decide +kernel, by decide +kernel, by decide +kernel⟩
  have hletters : loopOnA.letters = knownLetters (.star (.char 'a')) .empty :=
    letters_eq_knownLetters (by decide)
  have hlang : loopOnA.language = (star (.char 'a')).language :=
    Automaton.languageFrom_eq_of_alone rfl fun q hq => Nat.pos_of_ne_zero hq
  obtain ⟨d, hok, -, -, -, -, -, hb, hM⟩ := minimalDfa_minimal (.star (.char 'a')) .empty
  refine ⟨⟨hd, hletters, hlang⟩, d, hok, hb _ hd hletters hlang, ?_⟩
  apply hM Unit ⟨fun _ _ => (), (), Set.univ⟩
  intro v
  refine iff_of_true trivial ?_
  have hv : v.map Subtype.val ∈ wordsOver loopOnA.letters := by
    rw [hletters]
    exact mem_wordsOver_iff_exists_map.mpr ⟨v, rfl⟩
  obtain ⟨q, hq, hw⟩ := hd.exists_walk? hd.start_lt hv
  obtain rfl : q = 0 := Nat.lt_one_iff.mp hq
  rw [← hlang]
  exact ⟨0, rfl, Automaton.path_of_walk? hd.wellFormed hv hw⟩

/-! ## The complement -/

/-- The complement is read off a deterministic automaton with its final states flipped. -/
theorem complement_eq_ok (r : Regex) (letters : Alphabet) : ∃ n, ∃ d : Automaton,
    r.complement letters = .ok n ∧ n.language = d.inverted.language ∧ d.Dfa ∧
      d.letters = knownLetters r letters ∧ d.language = r.language := by
  obtain ⟨b, hb, hdet, hal, hl⟩ := dfa_eq_ok r letters
  have hd := hdet.dfa_determinized.inverted
  obtain ⟨n, hn, hnl⟩ := Automaton.toRegex_eq_ok hd.wellFormed hd.size_pos hd.isDeterministic
  have hletters := letters_eq_knownLetters ((Automaton.alphabet_determinized b).trans hal)
  refine ⟨n, b.determinized, ?_, hnl, hdet.dfa_determinized, hletters, hdet.language_eq.trans hl⟩
  simp only [complement, hb, bind, Except.bind, hn]

/-- The complement matches the words over the known letters that the regex does not. -/
theorem complement_exact (r : Regex) (letters : Alphabet) :
    ∃ n, r.complement letters = .ok n ∧ ∀ w,
      w ∈ n.language ↔ (∀ c ∈ w, c ∈ knownLetters r letters) ∧ w ∉ r.language := by
  obtain ⟨n, d, hn, hnl, hd, hletters, hl⟩ := complement_eq_ok r letters
  refine ⟨n, hn, fun w => ?_⟩
  rw [hnl, hd.mem_language_inverted, hletters, hl]
  rfl

/-! ## Back to a regex -/

theorem normalForm_eq_ok (r : Regex) (letters : Alphabet) :
    ∃ n, r.normalForm letters = .ok n ∧ n.language = r.language := by
  obtain ⟨b, hb, hdet, -, hl⟩ := minimalDfa_eq_ok r letters
  have hd := hdet.dfa_minimized
  obtain ⟨n, hn, hnl⟩ := Automaton.toRegex_eq_ok hd.wellFormed hd.size_pos hd.isDeterministic
  refine ⟨n, ?_, hnl.trans (hdet.language_minimized.trans hl)⟩
  simp only [normalForm, hb, bind, Except.bind, hn]

/-- The regex read off a deterministic automaton, which may have ε-transitions, matches
    the words of its paths. So the normal form of a regex matches the same words. -/
theorem toRegex_exact :
    (∀ a : Automaton, a.WellFormed → 0 < a.size → a.isDeterministic →
      ∃ r, a.toRegex = .ok r ∧ r.language = a.language) ∧
    ∀ (r : Regex) (letters : Alphabet), ∃ n, r.normalForm letters = .ok n ∧ n.language = r.language :=
  ⟨fun _ => Automaton.toRegex_eq_ok, normalForm_eq_ok⟩

theorem toRegex_exact_letter :
    ((Automaton.ofRegex (.char 'a')).WellFormed ∧ 0 < (Automaton.ofRegex (.char 'a')).size ∧
      (Automaton.ofRegex (.char 'a')).isDeterministic) ∧
    ∃ r, (Automaton.ofRegex (.char 'a')).toRegex = .ok r ∧
      r.language = (Automaton.ofRegex (.char 'a')).language := by
  have ha := Automaton.wellFormed_ofRegex (.char 'a')
  have hpos : 0 < (Automaton.ofRegex (.char 'a')).size := by decide
  have hd : (Automaton.ofRegex (.char 'a')).isDeterministic := by decide +kernel
  exact ⟨⟨ha, hpos, hd⟩, toRegex_exact.1 _ ha hpos hd⟩

end Regex

end RegularLang
