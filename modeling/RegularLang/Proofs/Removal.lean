/-
  RegularLang.Proofs.Removal — ε-transitions can be removed in any order. What is removed
  is a cycle of them, or one of them once there is no cycle (`Removal`); the words stay the
  same (`Removal.mergedFrom`), and no run of removals goes on for ever (`acc_removal`), so
  each ends in an automaton that has none left.

  The states and the load of the ε-transitions decrease in lexicographic order. Merging a
  cycle loses a state, whatever the loads are then. Removing an ε-transition keeps the
  states and their weights, and so brings no cycle back, and it lessens the load, however
  many ε-transitions its source takes over.

  The removal as it is done, which takes the first cycle or the first ε-transition that it
  finds, is one of these runs (`epsilonFree_exact`, `epsilonFree_terminates`).
-/

import RegularLang.Proofs.Guarded.EpsilonFree

namespace RegularLang

namespace Automaton

variable {a b : Automaton} {N : Nat → Nat}

/-- One removal. The cycle need not be the first, nor the ε-transition. -/
inductive Removal (a : Automaton) : Automaton → Prop
  | merge {cycle : List Nat} {b : Automaton} : a.EpsilonCycle cycle → a.mergeGroup cycle = .ok b →
      Removal a b
  | absorb {s i : Nat} {t : Transition} : a.epsilonCycle? = none → a.transition? s i = some t →
      t.label.isEps → Removal a (a.absorb s i)

/-! ## What removals keep -/

theorem EpsilonCycle.mergedFrom {cycle : List Nat} (h : a.EpsilonCycle cycle) (ha : a.WellFormed)
    (hsimple : a.isSimple) (hb : a.mergeGroup cycle = .ok b) : a.MergedFrom b ∧ b.size < a.size := by
  obtain ⟨c, hc, hm, hlt⟩ := h.mergeGroup_eq_ok ha hsimple
  cases hc.symm.trans hb
  exact ⟨hm, hlt⟩

theorem Removal.mergedFrom (h : a.Removal b) (ha : a.WellFormed) (hsimple : a.isSimple) :
    a.MergedFrom b := by
  cases h with
  | merge hcycle hmerge => exact (hcycle.mergedFrom ha hsimple hmerge).1
  | @absorb s i t hnone htransition ht =>
    have hext := extends_absorb ha htransition ht
    have hsize := size_absorb a s i
    exact ⟨hext.wellFormed, isSimple_absorb hsimple htransition, hext.alphabet_eq, hsize.le,
      fun hpos => by omega, hext.language_eq ha⟩

theorem mergedFrom_of_removals (h : Relation.ReflTransGen Removal a b) (ha : a.WellFormed)
    (hsimple : a.isSimple) : a.MergedFrom b := by
  induction h with
  | refl => exact .refl ha hsimple
  | tail _ hstep ih => exact ih.trans (hstep.mergedFrom ih.wellFormed ih.isSimple)

/-! ## Termination -/

/-- Without cycles only ε-transitions are removed, and each removal lessens their load. -/
theorem acc_removal_of_weighed (hN : a.Weighed N) : Acc (fun c b => Removal b c) a := by
  induction hload : a.totalLoad N using Nat.strong_induction_on generalizing a with
  | h load ih =>
    refine .intro a fun b hb => ?_
    cases hb with
    | merge hcycle _ => exact absurd hcycle (hN.not_epsilonCycle _)
    | absorb _ htransition ht =>
      have hlt := totalLoad_absorb_lt hN htransition ht
      exact ih _ (hload ▸ hlt) (hN.absorb htransition ht) rfl

theorem acc_removal (ha : a.WellFormed) (hsimple : a.isSimple) : Acc (fun c b => Removal b c) a := by
  induction hsize : a.size using Nat.strong_induction_on generalizing a with
  | h size ih =>
    refine .intro a fun b hb => ?_
    cases hb with
    | merge hcycle hmerge =>
      obtain ⟨hm, hlt⟩ := hcycle.mergedFrom ha hsimple hmerge
      exact ih _ (hsize ▸ hlt) hm.wellFormed hm.isSimple rfl
    | absorb hnone htransition ht =>
      obtain ⟨N, hN, -⟩ := exists_weighed ha hnone
      exact (acc_removal_of_weighed hN).inv (.absorb hnone htransition ht)

/-- Where nothing can be removed, nothing is left that should be. -/
theorem eq_none_of_not_removal (ha : a.WellFormed) (hsimple : a.isSimple) (h : ∀ b, ¬a.Removal b) :
    a.epsilonCycle? = none ∧ a.hasEpsilon = false := by
  have hnone : a.epsilonCycle? = none := by
    cases hc : a.epsilonCycle? with
    | none => rfl
    | some cycle =>
      have hcycle := epsilonCycle_of_eq_some ha hc
      obtain ⟨b, hb, -⟩ := hcycle.mergeGroup_eq_ok ha hsimple
      exact absurd (.merge hcycle hb) (h b)
  refine ⟨hnone, hasEpsilon_eq_false_iff.mpr fun s t hmem => ?_⟩
  obtain ⟨i, htransition⟩ := List.mem_iff_getElem?.mp hmem
  by_contra ht
  exact h _ (.absorb hnone htransition (by simpa using ht))

end Automaton

/-! ## The removal as it is done -/

namespace Guarded

open Automaton

variable {a b : Automaton} {n : Nat} {found : List Nat ⊕ Nat × Nat}

theorem removal_of_round (ha : a.WellFormed) (hpick : removable? a = .ok (some found))
    (hact : removeOne a found = .ok b) : a.Removal b := by
  cases hc : a.epsilonCycle? with
  | some cycle =>
    rw [removable?_of_cycle ha hc] at hpick
    cases hpick
    have hcycle := epsilonCycle_of_eq_some ha hc
    rw [removeOne, mergeGroup_eq ha hcycle.lt_size] at hact
    exact .merge hcycle (Checked.mapError_eq_ok.mp hact)
  | none =>
    rw [removable?_of_acyclic ha hc] at hpick
    obtain ⟨⟨s, i⟩, hfirst, rfl⟩ := Option.map_eq_some_iff.mp (Except.ok.inj hpick)
    obtain ⟨t, htransition, ht⟩ := firstTransition?_eq_some hfirst
    rw [removeOne, absorb_eq_ok ha htransition] at hact
    cases hact
    exact .absorb hc htransition ht

theorem removals_of_rounds (h : Rounds removable? removeOne n a b) (ha : a.WellFormed)
    (hsimple : a.isSimple) : Relation.ReflTransGen Removal a b := by
  induction h with
  | nil => exact .refl
  | cons hpick hact _ ih =>
    have hstep := removal_of_round ha hpick hact
    have hm := hstep.mergedFrom ha hsimple
    exact .head hstep (ih hm.wellFormed hm.isSimple)

theorem epsilonCycle?_eq_none_of_removable? (ha : a.WellFormed) (h : removable? a = .ok none) :
    a.epsilonCycle? = none := by
  cases hc : a.epsilonCycle? with
  | none => rfl
  | some cycle =>
    rw [removable?_of_cycle ha hc] at h
    cases h

/-- The loop ends, with the automaton that is the result. -/
theorem exists_rounds_epsilonFree (ha : a.WellFormed) (hsimple : a.isSimple) :
    ∃ n ≤ removals a, ∃ b, a.epsilonFree = .ok b ∧ Rounds removable? removeOne n a b ∧
      removable? b = .ok none := by
  obtain ⟨b, hb, -⟩ := epsilonFree_eq_ok ha hsimple
  have hremove : removeEpsilon a = .ok b := (removeEpsilon_eq ha).trans (Checked.guard_eq_ok hb)
  rw [removeEpsilon, bind_of_eq_ok (require_of_true hsimple _)] at hremove
  obtain ⟨c, hloop, hremove⟩ := Checked.bind_eq_ok.mp hremove
  obtain ⟨-, -, hc⟩ := Checked.bind_eq_ok.mp hremove
  cases hc
  obtain ⟨n, hn, hrounds, hend⟩ := exists_rounds hloop
  exact ⟨n, hn, b, hb, hrounds, hend⟩

end Guarded

namespace Automaton

variable {a : Automaton}

/-- Removing the ε-transitions of any simple automaton leaves a simple automaton without
    them, of the same words and letters and with no more states. -/
theorem epsilonFree_exact (ha : a.WellFormed) (hsimple : a.isSimple) :
    ∃ b, a.epsilonFree = .ok b ∧ b.WellFormed ∧ b.isSimple ∧ b.hasEpsilon = false ∧
      b.language = a.language ∧ (∀ w, b.accepts w = a.accepts w) ∧
      b.alphabet = a.alphabet ∧ b.size ≤ a.size := by
  obtain ⟨b, hb, hm, hfree⟩ := epsilonFree_eq_ok ha hsimple
  refine ⟨b, hb, hm.wellFormed, hm.isSimple, hfree, hm.language_eq, ?_, hm.alphabet_eq, hm.size_le⟩
  intro w
  rw [Bool.eq_iff_iff, accepts_iff_mem hm.wellFormed, accepts_iff_mem ha, hm.language_eq]

/-- Two cycles of ε-transitions share a state, the start and a final state are on them,
    and there are loops and parallel transitions. -/
theorem epsilonFree_exact_knot :
    let a : Automaton := ⟨[
      ⟨false, [⟨0, .eps⟩, ⟨1, .eps⟩, ⟨1, .eps⟩, ⟨3, .char 'a'⟩]⟩,
      ⟨false, [⟨2, .eps⟩, ⟨0, .eps⟩]⟩,
      ⟨true, [⟨1, .eps⟩, ⟨3, .eps⟩, ⟨3, .eps⟩]⟩,
      ⟨false, [⟨3, .eps⟩, ⟨0, .char 'b'⟩, ⟨4, .eps⟩]⟩,
      ⟨true, [⟨4, .char 'a'⟩]⟩], 1, .ofList ['a', 'b']⟩
    a.WellFormed ∧ a.isSimple ∧ a.hasEpsilon ∧ (∃ cycle, a.epsilonCycle? = some cycle) ∧
      ∃ b, a.epsilonFree = .ok b ∧ b.hasEpsilon = false ∧ ∀ w, b.accepts w = a.accepts w := by
  intro a
  have ha : a.WellFormed := ⟨by decide, .inl (by decide), by decide, by
    simp [a, Regex.eps, epsilon]⟩
  have hsimple : a.isSimple := by decide
  obtain ⟨b, hb, -, -, hfree, -, hw, -⟩ := epsilonFree_exact ha hsimple
  exact ⟨ha, hsimple, by decide, ⟨_, rfl⟩, b, hb, hfree, hw⟩

/-- Removing ε-transitions comes to an end. The loop stops after finitely many rounds,
    with the automaton that is the result and neither a cycle nor an ε-transition in it. It
    would do so in any order: no run of removals is endless, and one that cannot go on has
    left neither. -/
theorem epsilonFree_terminates (ha : a.WellFormed) (hsimple : a.isSimple) :
    (∃ n ≤ Guarded.removals a, ∃ b, a.epsilonFree = .ok b ∧
      Guarded.Rounds Guarded.removable? Guarded.removeOne n a b ∧
      Relation.ReflTransGen Removal a b ∧ Guarded.removable? b = .ok none ∧
      b.epsilonCycle? = none ∧ b.hasEpsilon = false) ∧
    Acc (fun c b => Removal b c) a ∧
    ∀ b, Relation.ReflTransGen Removal a b → (∀ c, ¬b.Removal c) →
      b.epsilonCycle? = none ∧ b.hasEpsilon = false := by
  refine ⟨?_, acc_removal ha hsimple, ?_⟩
  · obtain ⟨n, hn, b, hb, hrounds, hend⟩ := Guarded.exists_rounds_epsilonFree ha hsimple
    have hrun := Guarded.removals_of_rounds hrounds ha hsimple
    obtain ⟨c, hc, hm, hfree⟩ := epsilonFree_eq_ok ha hsimple
    cases hc.symm.trans hb
    exact ⟨n, hn, b, hb, hrounds, hrun, hend,
      Guarded.epsilonCycle?_eq_none_of_removable? hm.wellFormed hend, hfree⟩
  · intro b hrun hstuck
    have hm := mergedFrom_of_removals hrun ha hsimple
    exact eq_none_of_not_removal hm.wellFormed hm.isSimple hstuck

/-- Each of the first states passes two parallel ε-transitions on to the one before it. -/
theorem epsilonFree_terminates_ladder :
    let a : Automaton := ⟨[
      ⟨false, [⟨1, .eps⟩, ⟨1, .eps⟩]⟩,
      ⟨false, [⟨2, .eps⟩, ⟨2, .eps⟩]⟩,
      ⟨false, [⟨2, .eps⟩, ⟨3, .eps⟩, ⟨3, .eps⟩]⟩,
      ⟨true, [⟨3, .char 'a'⟩]⟩], 0, .ofList ['a']⟩
    a.WellFormed ∧ a.isSimple ∧ a.epsilonCount < (a.absorb 0 0).epsilonCount ∧
      ∃ n b, Guarded.Rounds Guarded.removable? Guarded.removeOne n a b ∧
        Guarded.removable? b = .ok none ∧ b.hasEpsilon = false := by
  intro a
  have ha : a.WellFormed := ⟨by decide, .inl (by decide), by decide, by
    simp [a, Regex.eps, epsilon]⟩
  have hsimple : a.isSimple := by decide
  obtain ⟨⟨n, -, b, -, hrounds, -, hend, -, hfree⟩, -, -⟩ := epsilonFree_terminates ha hsimple
  exact ⟨ha, hsimple, by decide, n, b, hrounds, hend, hfree⟩

end Automaton

end RegularLang
