/-
  RegularLang.Proofs.Guarded.Pipelines — no construction from a regex meets anything
  unexpected (`pipelines_get_through`).

  A guarded stage of a well-formed automaton is the stage, and refused exactly where
  that is (`apply_eq`): nothing else can stop it. So it is enough that the stages from
  a regex on are not refused, each of which leaves what the next one asks for.
-/

import RegularLang.Proofs.Automaton.Edited
import RegularLang.Proofs.Guarded.Determinized
import RegularLang.Proofs.Guarded.Eliminated
import RegularLang.Proofs.Guarded.EpsilonFree
import RegularLang.Proofs.Guarded.Queue
import RegularLang.Proofs.Guarded.Trimmed
import RegularLang.Proofs.Guarded.Walked
import RegularLang.Proofs.Suffix

namespace RegularLang.Guarded

open Automaton

variable {a : Automaton} {r : Regex} {letters : Alphabet} {k : Nat}

/-! ## Stages -/

theorem apply_eq (ha : a.WellFormed) (s : Stage) : apply a s = (s.apply a).guard := by
  cases s with
  | initial => rfl
  | simplify => exact simplify_eq_ok ha
  | removeEpsilon => exact removeEpsilon_eq ha
  | optimize => exact optimize_eq ha
  | complete => exact complete_eq ha
  | determine => exact determine_eq ha
  | minify => exact minimize_eq ha
  | invert => exact invert_eq_ok a
  | collapse => exact collapse_eq ha

theorem runStages_eq (ha : a.WellFormed) (stages : List Stage) :
    runStages a stages = (a.runStages stages).guard := by
  induction stages generalizing a with
  | nil => rfl
  | cons s stages ih =>
    rw [runStages, List.foldlM_cons, apply_eq ha, runStages_cons]
    cases hb : s.apply a with
    | error f => rfl
    | ok b => exact ih (keepsForm_stage ha hb).wellFormed

theorem automatonOver_eq_ok (r : Regex) (letters : Alphabet) :
    automatonOver r letters = .ok (.over r letters) := by
  have hlink : ((Automaton.empty.addState false).addState true).addTransition 0 1 r =
      .ok (.ofRegex r) := by
    have hletters : r.letters.filter (· ≠ epsilon) = r.letters :=
      List.filter_eq_self.mpr fun c hc =>
        decide_eq_true fun e => r.epsilon_not_mem_letters (e ▸ hc)
    rw [addTransition, if_pos ⟨Nat.zero_lt_two, Nat.one_lt_two⟩, extendAlphabet, hletters]
    rfl
  rw [automatonOver]
  exact bind_of_eq_ok (Checked.guard_eq_ok hlink) _

theorem run_eq (r : Regex) (letters : Alphabet) (stages : List Stage) :
    run r letters stages = ((Automaton.over r letters).runStages stages).guard := by
  rw [run, bind_of_eq_ok (automatonOver_eq_ok r letters)]
  exact runStages_eq (wellFormed_over r letters) stages

/-! ## Constructions -/

theorem dfa_eq (r : Regex) (letters : Alphabet) : dfa r letters = (r.dfa letters).guard :=
  run_eq r letters Stage.toDfa

theorem dfa_of_eq_ok {d : Automaton} (h : r.dfa letters = .ok d) : d.Dfa := by
  obtain ⟨b, hb, hdet, -⟩ := r.dfa_eq_ok letters
  rw [← Except.ok.inj (hb.symm.trans h)]
  exact hdet.dfa_determinized

theorem minimalDfa_eq (r : Regex) (letters : Alphabet) :
    minimalDfa r letters = (r.minimalDfa letters).guard := by
  rw [minimalDfa, dfa_eq]
  exact guard_bind_congr fun d hd => minimize_eq (dfa_of_eq_ok hd).wellFormed

theorem dfa_of_minimalDfa_eq_ok {d : Automaton} (h : r.minimalDfa letters = .ok d) : d.Dfa := by
  obtain ⟨b, hb, hdet, -⟩ := r.minimalDfa_eq_ok letters
  rw [← Except.ok.inj (hb.symm.trans h)]
  exact hdet.dfa_minimized

theorem toRegex_eq (ha : a.WellFormed) : toRegex a = a.toRegex.guard := by
  rw [toRegex, collapse_eq ha]
  refine guard_bind_congr fun b hb => readOff_eq ?_
  have hstage : Stage.collapse.apply a = .ok b := hb
  exact (keepsForm_stage ha hstage).wellFormed

theorem normalForm_eq (r : Regex) (letters : Alphabet) :
    normalForm r letters = (r.normalForm letters).guard := by
  rw [normalForm, minimalDfa_eq]
  exact guard_bind_congr fun d hd => toRegex_eq (dfa_of_minimalDfa_eq_ok hd).wellFormed

theorem complement_eq (r : Regex) (letters : Alphabet) :
    complement r letters = (r.complement letters).guard := by
  rw [complement, dfa_eq]
  refine guard_bind_congr fun d hd => ?_
  rw [bind_of_eq_ok (invert_eq_ok d)]
  exact toRegex_eq (wellFormed_inverted (dfa_of_eq_ok hd).wellFormed)

theorem shortestWithSuffix_eq (r : Regex) (c : Char) (hk : k < lengthBound) (letters : Alphabet) :
    shortestWithSuffix r c k letters = (r.shortestWithSuffix c k letters).guard := by
  rw [shortestWithSuffix, dfa_eq]
  refine guard_bind_congr fun d hd => ?_
  have hdfa := dfa_of_eq_ok hd
  rw [bind_of_eq_ok (walk_eq_ok hdfa.wellFormed hdfa.size_pos hk c)]
  cases hs : d.leap c k with
  | none => rfl
  | some s =>
    have hlt : s < d.size :=
      walk?_lt_size hdfa.wellFormed hdfa.start_lt (leap_eq_walk? d c k ▸ hs)
    show (nearest d s >>= _) = Except.ok ((d.distance? s).bind fun n =>
      if n + k < lengthBound then some (n + k) else none)
    rw [bind_of_eq_ok (nearest_eq_distance? hdfa.wellFormed hlt)]
    cases d.distance? s <;> rfl

/-! ## Nothing is refused -/

/-- The stages up to one are some of those to the minimal automaton, or all of these and
    one that a minimal automaton is fit for. -/
theorem upTo_cases (s : Stage) : s.upTo <+: Stage.toDfa ++ [.minify] ∨
    (s = .invert ∨ s = .collapse) ∧ s.upTo = (Stage.toDfa ++ [.minify]) ++ [s] := by
  cases s <;> decide

theorem runStages_upTo_eq_ok (r : Regex) (letters : Alphabet) (s : Stage) :
    ∃ b, (Automaton.over r letters).runStages s.upTo = .ok b := by
  obtain ⟨b, hb, hdet, -⟩ := r.minimalDfa_eq_ok letters
  have hminimal : (Automaton.over r letters).runStages (Stage.toDfa ++ [.minify]) =
      .ok b.determinized.minimized := by
    obtain ⟨d, hd, hmin⟩ := Checked.bind_eq_ok.mp hb
    have hdfa : (Automaton.over r letters).runStages Stage.toDfa = .ok d := hd
    have hminify : Stage.minify.apply d = .ok b.determinized.minimized := hmin
    rw [runStages_append, hdfa]
    exact (runStages_cons ..).trans (by rw [hminify]; rfl)
  rcases upTo_cases s with ⟨more, hmore⟩ | ⟨hs, hupTo⟩
  · rw [← hmore, runStages_append] at hminimal
    obtain ⟨d, hd, -⟩ := Checked.bind_eq_ok.mp hminimal
    exact ⟨d, hd⟩
  · rw [hupTo, runStages_append, hminimal]
    show ∃ d, b.determinized.minimized.runStages [s] = .ok d
    rw [runStages_cons]
    rcases hs with rfl | rfl
    · exact ⟨b.determinized.minimized.inverted, rfl⟩
    · have hd := hdet.dfa_minimized
      obtain ⟨d, hd, -⟩ := eliminated_eq_ok hd.wellFormed hd.isDeterministic
      exact ⟨d, by rw [Stage.apply, hd]; rfl⟩

/-- Whatever the regex, the letters, the repeated letter and its number, the word and
    the stage are, no index is out of range, no operation is refused, nothing that is
    promised fails to hold and no number is too small or too large: every guarded
    construction has a result, which is that of the unguarded one. -/
theorem pipelines_get_through (r : Regex) (letters : Alphabet) (c : Char) (hk : k < lengthBound)
    (w : List Char) (s : Stage) :
    (∃ d, dfa r letters = .ok d ∧ r.dfa letters = .ok d ∧ accepts d w = .ok (d.accepts w)) ∧
    (∃ d, minimalDfa r letters = .ok d ∧ r.minimalDfa letters = .ok d) ∧
    (∃ n, normalForm r letters = .ok n ∧ r.normalForm letters = .ok n) ∧
    (∃ n, complement r letters = .ok n ∧ r.complement letters = .ok n) ∧
    (∃ n, shortestWithSuffix r c k letters = .ok n ∧ r.shortestWithSuffix c k letters = .ok n) ∧
    ∃ b, run r letters s.upTo = .ok b ∧
      (Automaton.over r letters).runStages s.upTo = .ok b := by
  refine ⟨?_, ?_, ?_, ?_, ?_, ?_⟩
  · obtain ⟨b, hb, hdet, -⟩ := r.dfa_eq_ok letters
    have hd := Checked.guard_eq_ok hb
    rw [← dfa_eq] at hd
    exact ⟨_, hd, hb, accepts_eq_ok hdet.wellFormed_determinized w⟩
  · obtain ⟨b, hb, -⟩ := r.minimalDfa_eq_ok letters
    exact ⟨_, (minimalDfa_eq r letters).trans (Checked.guard_eq_ok hb), hb⟩
  · obtain ⟨n, hn, -⟩ := r.normalForm_eq_ok letters
    exact ⟨n, (normalForm_eq r letters).trans (Checked.guard_eq_ok hn), hn⟩
  · obtain ⟨n, -, hn, -⟩ := r.complement_eq_ok letters
    exact ⟨n, (complement_eq r letters).trans (Checked.guard_eq_ok hn), hn⟩
  · obtain ⟨n, hn, -⟩ := r.shortestWithSuffix_eq_ok c k letters
    exact ⟨n, (shortestWithSuffix_eq r c hk letters).trans (Checked.guard_eq_ok hn), hn⟩
  · obtain ⟨b, hb⟩ := runStages_upTo_eq_ok r letters s
    exact ⟨b, (run_eq r letters s.upTo).trans (Checked.guard_eq_ok hb), hb⟩

/-- A regex of ε, ∅ and a letter over the letters ε and `b`. -/
theorem pipelines_get_through_blanks :
    let r : Regex := .sum [.star (.concat []), .concat [.char 'a', .sum []], .char epsilon]
    let letters : Alphabet := .ofList [epsilon, 'b']
    lengthBound - 1 < lengthBound ∧
    (∃ d, dfa r letters = .ok d ∧ r.dfa letters = .ok d ∧ accepts d ['b'] = .ok (d.accepts ['b'])) ∧
    (∃ n, shortestWithSuffix r 'b' (lengthBound - 1) letters = .ok n) ∧
    ∃ b, run r letters Stage.collapse.upTo = .ok b := by
  intro r letters
  have hk : lengthBound - 1 < lengthBound := by decide
  obtain ⟨hdfa, -, -, -, ⟨n, hn, -⟩, b, hb, -⟩ :=
    pipelines_get_through r letters 'b' hk ['b'] .collapse
  exact ⟨hk, hdfa, ⟨n, hn⟩, b, hb⟩

end RegularLang.Guarded
