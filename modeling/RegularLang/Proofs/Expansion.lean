/-
  RegularLang.Proofs.Expansion — labels can be taken apart in any order. What is taken
  apart is a label that is not a single character (`Expansion`), whichever it is; the
  words stay the same (`Expansion.extends`), also where the source of the transition is
  its target, the label has no operands or other labels are still composite.

  One composite node is gone after each of these steps (`Expansion.composites_eq`), so that
  no run of them is endless, and where none is possible every label is a single character
  (`isSimple_of_not_expansion`). Labels get no smaller by this: a star brings three
  ε-transitions with it.

  The simplification as it is done takes the first composite label that it finds, and is
  one of these runs (`simplified_exact`).

  The nodes say beforehand how long a run is and how many states it ends with, whatever the
  order (`expansions_exact`): a step takes one node away and brings in the states of that
  node only, so that nothing is left to do after as many steps as there are nodes, and not
  before.
-/

import Mathlib.Algebra.BigOperators.Group.List.Basic
import Mathlib.Algebra.Order.Ring.Nat
import RegularLang.Proofs.Automaton.Simulated

namespace RegularLang.Automaton

variable {a b c : Automaton} {s i : Nat} {t : Transition}

/-! ## One label -/

/-- Some label is taken apart, not necessarily the first. -/
def Expansion (a b : Automaton) : Prop := ∃ s i, a.expandTransition s i = .ok b

/-- Only what is there and is not a single character can be taken apart. -/
theorem expandTransition_eq_ok_iff : a.expandTransition s i = .ok b ↔
    ∃ t, a.transition? s i = some t ∧ t.label.isChar = false ∧ a.expand s i = b := by
  rw [expandTransition, Checked.bind_eq_ok]
  simp only [transition_eq_ok_iff]
  refine exists_congr fun t => and_congr_right fun _ => ?_
  cases t.label with
  | char d => exact iff_of_false nofun fun h => nomatch h.1
  | concat es | sum es | star e => simp [Regex.isChar]

theorem Expansion.extends (h : a.Expansion b) (ha : a.WellFormed) : a.Extends b := by
  obtain ⟨s, i, h⟩ := h
  obtain ⟨t, -, -, rfl⟩ := expandTransition_eq_ok_iff.mp h
  exact extends_expand ha s i

theorem Expansion.composites_eq (h : a.Expansion b) : b.composites + 1 = a.composites := by
  obtain ⟨s, i, h⟩ := h
  obtain ⟨t, ht, hchar, rfl⟩ := expandTransition_eq_ok_iff.mp h
  exact composites_expand ht hchar

theorem not_expansion_of_isSimple (h : a.isSimple) (b : Automaton) : ¬a.Expansion b := by
  intro hstep
  obtain ⟨s, i, hstep⟩ := hstep
  obtain ⟨t, ht, hchar, -⟩ := expandTransition_eq_ok_iff.mp hstep
  rw [isSimple_iff.mp h s t (List.mem_of_getElem? ht)] at hchar
  cases hchar

theorem isSimple_of_not_expansion (h : ∀ b, ¬a.Expansion b) : a.isSimple := by
  cases hc : a.firstComposite? with
  | none => exact isSimple_of_firstComposite?_eq_none hc
  | some place =>
    obtain ⟨s, i⟩ := place
    obtain ⟨t, ht, hchar⟩ := firstComposite?_eq_some hc
    exact absurd ⟨s, i, expandTransition_eq_ok_iff.mpr ⟨t, ht, hchar, rfl⟩⟩ (h (a.expand s i))

/-! ## Runs -/

/-- `Expansions n a b`: from `a`, labels are taken apart `n` times, in some order, up to `b`. -/
inductive Expansions : Nat → Automaton → Automaton → Prop
  | nil (a : Automaton) : Expansions 0 a a
  | cons {n : Nat} {a b c : Automaton} : a.Expansion b → Expansions n b c → Expansions (n + 1) a c

theorem extends_of_expansions (h : Relation.ReflTransGen Expansion a b) (ha : a.WellFormed) :
    a.Extends b := by
  induction h with
  | refl => exact .refl ha
  | tail _ hstep ih => exact ih.trans (hstep.extends ih.wellFormed)

/-- The number of composite nodes bounds every run. -/
theorem acc_expansion (a : Automaton) : Acc (fun c b => Expansion b c) a := by
  induction hn : a.composites using Nat.strong_induction_on generalizing a with
  | h n ih =>
    refine .intro a fun b hb => ?_
    have hdrop := hb.composites_eq
    exact ih b.composites (by omega) b rfl

/-! ## The first label each time -/

/-- The first composite label is taken apart. -/
def FirstExpansion (a b : Automaton) : Prop :=
  ∃ s i, a.firstComposite? = some (s, i) ∧ a.expandTransition s i = .ok b

theorem FirstExpansion.expansion (h : a.FirstExpansion b) : a.Expansion b := by
  obtain ⟨s, i, -, h⟩ := h
  exact ⟨s, i, h⟩

theorem firstExpansions_expandN (n : Nat) (a : Automaton) :
    Relation.ReflTransGen FirstExpansion a (expandN n a) := by
  induction n generalizing a with
  | zero => exact .refl
  | succ n ih =>
    rw [expandN]
    split
    · rename_i s i hfirst
      obtain ⟨t, ht, hchar⟩ := firstComposite?_eq_some hfirst
      exact .head ⟨s, i, hfirst, expandTransition_eq_ok_iff.mpr ⟨t, ht, hchar, rfl⟩⟩ (ih _)
    · exact .refl

/-- Taking any composite label apart keeps the words of the paths. So does every run of
    such steps, in any order; none is endless, and one that cannot go on has left a simple
    automaton, which accepts what the first does. The simplification is the run that takes
    the first composite label each time. -/
theorem simplified_exact (ha : a.WellFormed) :
    (∀ s i t, a.transition? s i = some t → t.label.isChar = false →
      ∃ b, a.expandTransition s i = .ok b ∧ b.WellFormed ∧ b.language = a.language) ∧
    (∀ b, Relation.ReflTransGen Expansion a b → b.WellFormed ∧ b.language = a.language) ∧
    Acc (fun c b => Expansion b c) a ∧
    (∀ b, Relation.ReflTransGen Expansion a b → (∀ c, ¬b.Expansion c) →
      b.isSimple ∧ b.language = a.language ∧ ∀ w, b.accepts w = a.accepts w) ∧
    Relation.ReflTransGen FirstExpansion a a.simplified ∧
    Relation.ReflTransGen Expansion a a.simplified ∧ ∀ c, ¬a.simplified.Expansion c := by
  have hfirst : Relation.ReflTransGen FirstExpansion a a.simplified := firstExpansions_expandN _ a
  have hrun : Relation.ReflTransGen Expansion a a.simplified :=
    Relation.ReflTransGen.mono (fun _ _ => FirstExpansion.expansion) _ _ hfirst
  refine ⟨?_, ?_, acc_expansion a, ?_, hfirst, hrun,
    not_expansion_of_isSimple (isSimple_simplified a)⟩
  · intro s i t ht hchar
    have hext := extends_expand ha s i
    exact ⟨_, expandTransition_eq_ok_iff.mpr ⟨t, ht, hchar, rfl⟩, hext.wellFormed, hext.language_eq ha⟩
  · intro b hrun
    have hext := extends_of_expansions hrun ha
    exact ⟨hext.wellFormed, hext.language_eq ha⟩
  · intro b hrun hstuck
    have hext := extends_of_expansions hrun ha
    have hlang := hext.language_eq ha
    refine ⟨isSimple_of_not_expansion hstuck, hlang, ?_⟩
    intro w
    rw [Bool.eq_iff_iff, accepts_iff_mem hext.wellFormed, accepts_iff_mem ha, hlang]

/-- A star on a loop, labels without operands and a sum in a product. -/
def nestedLabels : Automaton :=
  ⟨[⟨false, [⟨0, .star (.char 'a')⟩, ⟨1, .concat []⟩, ⟨1, .sum []⟩,
      ⟨1, .concat [.char 'b', .sum [.star (.char 'b'), .char 'a']]⟩]⟩,
    ⟨true, [⟨1, .star (.star (.char 'b'))⟩]⟩], 0, .ofList ['a', 'b']⟩

/-- The last label of all may be taken apart first. -/
theorem simplified_exact_nestedLabels :
    nestedLabels.WellFormed ∧ nestedLabels.firstComposite? = some (0, 0) ∧
    (∃ b, nestedLabels.expandTransition 1 0 = .ok b ∧ b.language = nestedLabels.language ∧
      b.firstComposite? = some (0, 0)) ∧
    nestedLabels.simplified.isSimple ∧
      ∀ w, nestedLabels.simplified.accepts w = nestedLabels.accepts w := by
  have ha : nestedLabels.WellFormed :=
    ⟨by decide, .inl (by decide), by decide, by simp [nestedLabels, epsilon]⟩
  obtain ⟨hone, -, -, hend, -, hrun, hstuck⟩ := simplified_exact ha
  obtain ⟨hsimple, -, hw⟩ := hend _ hrun hstuck
  obtain ⟨b, hb, -, hlang⟩ := hone 1 0 ⟨1, .star (.star (.char 'b'))⟩ rfl rfl
  obtain ⟨t, -, -, rfl⟩ := expandTransition_eq_ok_iff.mp hb
  exact ⟨ha, by decide, ⟨_, hb, hlang, by decide⟩, hsimple, hw⟩

/-! ## The length of a run and the states it ends with -/

/-- The states that the composite nodes of all labels need. -/
def innerStates (a : Automaton) : Nat := (a.compositeNodes.map Regex.innerStates).sum

/-- A step takes one composite node away, and brings in the states that this one needs. -/
theorem Expansion.exists_node (h : a.Expansion b) : ∃ e : Regex,
    (e :: b.compositeNodes).Perm a.compositeNodes ∧ b.size = a.size + e.innerStates := by
  obtain ⟨s, i, h⟩ := h
  obtain ⟨t, ht, hchar, rfl⟩ := expandTransition_eq_ok_iff.mp h
  exact ⟨t.label, compositeNodes_expand_perm ht hchar, size_expand ht⟩

/-- The nodes run out just where no step is possible. -/
theorem compositeNodes_eq_nil_iff : a.compositeNodes = [] ↔ ∀ b, ¬a.Expansion b := by
  constructor
  · intro h b hb
    obtain ⟨e, he, -⟩ := hb.exists_node
    rw [h] at he
    cases he.eq_nil
  · intro h
    refine List.flatMap_eq_nil_iff.mpr fun t ht => Regex.compositeNodes_of_isChar ?_
    obtain ⟨st, hst, ht⟩ := List.mem_flatMap.mp ht
    exact List.all_eq_true.mp (List.all_eq_true.mp (isSimple_of_not_expansion h) st hst) t ht

namespace Expansions

variable {n : Nat}

theorem length_add (h : Expansions n a b) :
    b.compositeNodes.length + n = a.compositeNodes.length := by
  induction h with
  | nil => rfl
  | cons hstep _ ih =>
    obtain ⟨e, he, -⟩ := hstep.exists_node
    have hlength := he.length_eq
    rw [List.length_cons] at hlength
    omega

theorem size_add (h : Expansions n a b) : b.size + b.innerStates = a.size + a.innerStates := by
  induction h with
  | nil => rfl
  | @cons _ a b _ hstep _ ih =>
    obtain ⟨e, he, hsize⟩ := hstep.exists_node
    have hsum : e.innerStates + b.innerStates = a.innerStates := by
      rw [innerStates, innerStates, ← (he.map Regex.innerStates).sum_eq, List.map_cons,
        List.sum_cons]
    omega

/-- A run cannot go on just when it has as many steps as there were composite nodes. -/
theorem forall_not_expansion_iff (h : Expansions n a b) :
    (∀ c, ¬b.Expansion c) ↔ n = a.compositeNodes.length := by
  rw [← compositeNodes_eq_nil_iff, ← List.length_eq_zero_iff, ← h.length_add]
  omega

end Expansions

theorem exists_expansions (h : Relation.ReflTransGen Expansion a b) : ∃ n, Expansions n a b := by
  induction h using Relation.ReflTransGen.head_induction_on with
  | refl => exact ⟨0, .nil b⟩
  | head hstep _ ih =>
    obtain ⟨n, h⟩ := ih
    exact ⟨n + 1, .cons hstep h⟩

/-- However the labels are chosen, a run ends after exactly as many steps as the labels have
    composite nodes: it has no more steps, and can go on while it has fewer. The states it
    then has are those from the beginning, one less than its operands for each concatenation
    that has any, and two for each star. The simplification is such a run. -/
theorem expansions_exact (a : Automaton) :
    (∀ n b, Expansions n a b →
      n ≤ a.compositeNodes.length ∧ ((∀ c, ¬b.Expansion c) ↔ n = a.compositeNodes.length)) ∧
    (∀ n b, Expansions n a b → (∀ c, ¬b.Expansion c) →
      b.size = a.size + (a.compositeNodes.map Regex.innerStates).sum) ∧
    Expansions a.compositeNodes.length a a.simplified := by
  refine ⟨?_, ?_, ?_⟩
  · intro n b h
    exact ⟨h.length_add ▸ Nat.le_add_left .., h.forall_not_expansion_iff⟩
  · intro n b h hstuck
    rw [← innerStates, ← h.size_add, innerStates, compositeNodes_eq_nil_iff.mpr hstuck,
      List.map_nil, List.sum_nil, Nat.add_zero]
  · have hrun : Relation.ReflTransGen Expansion a a.simplified :=
      Relation.ReflTransGen.mono (fun _ _ => FirstExpansion.expansion) _ _
        (firstExpansions_expandN _ a)
    obtain ⟨n, h⟩ := exists_expansions hrun
    have hstuck := not_expansion_of_isSimple (isSimple_simplified a)
    rwa [← h.forall_not_expansion_iff.mp hstuck]

/-- The last label is taken apart first, and seven steps are left to do. -/
theorem expansions_exact_nestedLabels :
    (∃ b, nestedLabels.expandTransition 1 0 = .ok b ∧ Expansions 1 nestedLabels b ∧
      ∃ c, b.Expansion c) ∧
    Expansions 8 nestedLabels nestedLabels.simplified ∧
    (∀ c, ¬nestedLabels.simplified.Expansion c) ∧ nestedLabels.simplified.size = 11 := by
  obtain ⟨hlength, hsize, hrun⟩ := expansions_exact nestedLabels
  have hnodes : nestedLabels.compositeNodes.length = 8 := by decide
  rw [hnodes] at hlength hrun
  have hstuck := (hlength 8 _ hrun).2.mpr rfl
  refine ⟨?_, hrun, hstuck, hsize 8 _ hrun hstuck⟩
  have hfirst : nestedLabels.expandTransition 1 0 = .ok (nestedLabels.expand 1 0) := rfl
  have hone : Expansions 1 nestedLabels (nestedLabels.expand 1 0) := .cons ⟨1, 0, hfirst⟩ (.nil _)
  refine ⟨_, hfirst, hone, ?_⟩
  by_contra hnone
  exact absurd ((hlength 1 _ hone).2.mp (not_exists.mp hnone)) (by decide)

end RegularLang.Automaton
