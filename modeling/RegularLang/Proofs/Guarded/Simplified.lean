/-
  RegularLang.Proofs.Guarded.Simplified — taking labels apart meets nothing unexpected
  (`simplify_eq_ok`): the parts of a label go between states that are there or have
  just been added, and their letters are those of the label.
-/

import RegularLang.Guarded.Stages
import RegularLang.Proofs.Guarded.Basic

namespace RegularLang.Guarded

open Automaton

variable {a : Automaton} {s i target : Nat} {e : Regex} {t : Transition}

theorem linkChain_eq_ok (hs : s < a.size) (ht : target < a.size) {es : List Regex}
    (he : ∀ c ∈ es.flatMap Regex.letters, c ∈ a.alphabet) :
    linkChain a s target es = .ok (a.linkChain s target es) := by
  induction es generalizing a s with
  | nil =>
    exact Checked.guard_eq_ok (addTransition_of_fits (t := ⟨target, .eps⟩) hs ⟨ht, nofun⟩)
  | cons e es ih =>
    obtain ⟨hfirst, hes⟩ := List.forall_mem_append.mp he
    cases es with
    | nil =>
      exact Checked.guard_eq_ok (addTransition_of_fits (t := ⟨target, e⟩) hs ⟨ht, hfirst⟩)
    | cons f es =>
      have hadd : ((a.addState false).addTransition s a.size e).guard =
          .ok ((a.addState false).link s a.size e) :=
        Checked.guard_eq_ok (addTransition_of_fits (t := ⟨a.size, e⟩)
          (by rw [size_addState]; omega) ⟨by simp, hfirst⟩)
      rw [linkChain, bind_of_eq_ok hadd]
      · exact ih (by simp) (by rw [size_link, size_addState]; omega) hes
      · nofun

theorem linkLoop_eq_ok (hs : s < a.size) (ht : target < a.size)
    (he : ∀ c ∈ e.letters, c ∈ a.alphabet) :
    linkLoop a s target e = .ok (a.linkLoop s target e) := by
  have hfits : ∀ t ∈ [(a.size, ⟨a.size + 1, e⟩), (s, ⟨a.size, .eps⟩), (a.size + 1, ⟨a.size, .eps⟩),
      (a.size, (⟨target, .eps⟩ : Transition))], t.1 < ((a.addState false).addState false).size ∧
        State.Fits ((a.addState false).addState false).size a.alphabet t.2 := by
    have heps : ∀ c ∈ Regex.eps.letters, c ∈ a.alphabet := fun c hc => absurd hc List.not_mem_nil
    simp only [List.forall_mem_cons, size_addState, State.Fits]
    refine ⟨⟨by omega, by omega, he⟩, ⟨by omega, by omega, heps⟩, ⟨by omega, by omega, heps⟩,
      ⟨by omega, by omega, heps⟩, List.forall_mem_nil _⟩
  rw [linkLoop, addTransitions_eq_ok hfits, linkAll_eq_foldl fun t ht => (hfits t ht).1]
  rfl

theorem linkParts_eq_ok (hs : s < a.size) (ht : target < a.size)
    (he : ∀ c ∈ e.letters, c ∈ a.alphabet) (hchar : e.isChar = false) :
    linkParts a s target e = .ok (a.linkParts s target e) := by
  cases e with
  | char c => cases hchar
  | concat es => exact linkChain_eq_ok hs ht (by rwa [← Regex.letters_concat])
  | sum es =>
    rw [Regex.letters_sum] at he
    have hfits : ∀ t ∈ es.map fun e => (s, (⟨target, e⟩ : Transition)),
        t.1 < a.size ∧ State.Fits a.size a.alphabet t.2 := by
      intro t hm
      obtain ⟨e, hmem, rfl⟩ := List.mem_map.mp hm
      exact ⟨hs, ht, fun c hc => he c (List.mem_flatMap.mpr ⟨e, hmem, hc⟩)⟩
    rw [linkParts, addTransitions_eq_ok hfits, linkAll_eq_foldl fun t ht => (hfits t ht).1,
      List.foldl_map]
    rfl
  | star e => exact linkLoop_eq_ok hs ht he

theorem removeTransition_of_transition? (h : a.transition? s i = some t) :
    (a.removeTransition s i).guard = .ok (t, a.unlink s i) := by
  rw [removeTransition, transition, h]
  rfl

theorem expand_eq_ok (ha : a.WellFormed) (h : a.transition? s i = some t)
    (ht : t.label.isChar = false) : expand a (s, i) = .ok (a.expand s i) := by
  have hmem := List.mem_of_getElem? h
  rw [expand, bind_of_eq_ok (removeTransition_of_transition? h), Automaton.expand, h]
  exact linkParts_eq_ok (by simpa using lt_size_of_transition? h)
    (by simpa using ha.target_lt_of_mem hmem) (fun _ => ha.letters_mem_of_mem hmem) ht

theorem whileFound_expand (ha : a.WellFormed) {n : Nat} (hn : a.composites ≤ n) :
    whileFound firstComposite? expand n a = .ok (expandN n a) := by
  induction n generalizing a with
  | zero =>
    cases hc : a.firstComposite? with
    | none => exact whileFound_of_none (congrArg Except.ok hc)
    | some si =>
      obtain ⟨t, ht, hchar⟩ := firstComposite?_eq_some hc
      have := composites_expand ht hchar
      omega
  | succ n ih =>
    rw [expandN]
    cases hc : a.firstComposite? with
    | none => exact whileFound_of_none (congrArg Except.ok hc)
    | some si =>
      obtain ⟨t, ht, hchar⟩ := firstComposite?_eq_some hc
      have := composites_expand ht hchar
      have hpick : firstComposite? a = .ok (some si) := congrArg Except.ok hc
      rw [whileFound_of_some hpick (expand_eq_ok ha ht hchar)]
      exact ih (extends_expand ha si.1 si.2).wellFormed (by omega)

theorem simplify_eq_ok (ha : a.WellFormed) : simplify a = .ok a.simplified := by
  rw [simplify, bind_of_eq_ok (whileFound_expand ha (Nat.le_refl _)),
    bind_of_eq_ok (ensure_of_true (isSimple_expandN (Nat.le_refl _)))]
  rfl

end RegularLang.Guarded
