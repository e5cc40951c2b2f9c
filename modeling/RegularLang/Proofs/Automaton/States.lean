/-
  RegularLang.Proofs.Automaton.States — what the basic edits do to each state and to
  the transitions as a whole, and that they keep an automaton well-formed.

  A look-up past the last state finds `State.dead`, so the equations hold of every
  number, not only of states that exist.
-/

import Mathlib.Data.List.Perm.Basic
import RegularLang.Automaton.Simulation

namespace RegularLang

namespace Automaton

variable {a : Automaton}

/-! ## Size and start -/

@[simp] theorem size_addState (a : Automaton) (f : Bool) : (a.addState f).size = a.size + 1 := by
  simp [addState, size]

@[simp] theorem size_mapStates (a : Automaton) (f : State → State) :
    (a.mapStates f).size = a.size := by simp [mapStates, size]

@[simp] theorem size_modifyState (a : Automaton) (s : Nat) (f : State → State) :
    (a.modifyState s f).size = a.size := by simp [modifyState, size]

@[simp] theorem size_link (a : Automaton) (s t : Nat) (e : Regex) : (a.link s t e).size = a.size :=
  size_modifyState ..

@[simp] theorem size_unlink (a : Automaton) (s i : Nat) : (a.unlink s i).size = a.size :=
  size_modifyState ..

@[simp] theorem start_addState (a : Automaton) (f : Bool) : (a.addState f).start = a.start := rfl

@[simp] theorem start_mapStates (a : Automaton) (f : State → State) :
    (a.mapStates f).start = a.start := rfl

/-! ## Each state -/

theorem lt_size_of_mem {p : Nat} {t : Transition} (h : t ∈ (a.stateAt p).transitions) :
    p < a.size := by
  by_contra hp
  rw [stateAt_of_size_le (Nat.not_lt.mp hp)] at h
  exact absurd h List.not_mem_nil

theorem lt_size_of_isFinalAt {p : Nat} (h : a.isFinalAt p) : p < a.size := by
  by_contra hp
  rw [isFinalAt, stateAt_of_size_le (Nat.not_lt.mp hp)] at h
  cases h

theorem mem_states_iff {st : State} : st ∈ a.states ↔ ∃ p < a.size, a.stateAt p = st := by
  constructor
  · intro h
    obtain ⟨p, hp, rfl⟩ := List.mem_iff_getElem.mp h
    exact ⟨p, hp, stateAt_eq_get hp⟩
  · intro hx
    obtain ⟨p, hp, rfl⟩ := hx
    exact stateAt_mem hp

theorem state_eq_ok {s : Nat} (hs : s < a.size) : a.state s = .ok (a.stateAt s) := by
  rw [state, List.getElem?_eq_getElem hs, stateAt_eq_get hs]
  rfl

theorem transition_eq_ok_iff {s i : Nat} {t : Transition} :
    a.transition s i = .ok t ↔ a.transition? s i = some t := by
  rw [transition]
  cases a.transition? s i <;> simp

theorem map_stateAt_range (a : Automaton) : (List.range a.size).map a.stateAt = a.states := by
  refine List.ext_getElem (by simp [size]) ?_
  intro s _ hs
  rw [List.getElem_map, List.getElem_range, stateAt_eq_get hs]
  rfl

theorem states_eq_of_stateAt {b : Automaton} (hsize : a.size = b.size)
    (h : ∀ p < a.size, a.stateAt p = b.stateAt p) : a.states = b.states := by
  rw [← map_stateAt_range a, ← map_stateAt_range b, ← hsize]
  exact List.map_congr_left fun p hp => h p (List.mem_range.mp hp)

/-- Automata that look the same everywhere are the same. -/
theorem eq_of_stateAt {b : Automaton} (hsize : a.size = b.size) (hstart : a.start = b.start)
    (hal : a.alphabet = b.alphabet) (h : ∀ p < a.size, a.stateAt p = b.stateAt p) : a = b := by
  have hstates := states_eq_of_stateAt hsize h
  cases a
  cases b
  cases hstates
  cases hstart
  cases hal
  rfl

/-- One more state at the end, which gets the number `a.size`. -/
theorem stateAt_snoc (a : Automaton) (st : State) (start p : Nat) (letters : Alphabet) :
    stateAt ⟨a.states ++ [st], start, letters⟩ p = if p = a.size then st else a.stateAt p := by
  simp only [stateAt, List.getD_eq_getElem?_getD, List.getElem?_append, size]
  split_ifs with h₁ h₂ h₂
  · omega
  · rfl
  · simp [h₂]
  · rw [List.getElem?_eq_none (by rw [List.length_singleton]; omega),
      List.getElem?_eq_none (by omega)]

theorem stateAt_addState (a : Automaton) (f : Bool) (p : Nat) :
    (a.addState f).stateAt p = if p = a.size then ⟨f, []⟩ else a.stateAt p :=
  stateAt_snoc ..

theorem stateAt_mapStates {f : State → State} {p : Nat} (h : p < a.size) :
    (a.mapStates f).stateAt p = f (a.stateAt p) := by
  simp only [stateAt, mapStates, List.getD_eq_getElem?_getD, List.getElem?_map]
  rw [List.getElem?_eq_getElem h]
  rfl

/-- A map that leaves the dead state alone does so past the last state too. -/
theorem stateAt_mapStates_of_dead {f : State → State} (hf : f .dead = .dead) (p : Nat) :
    (a.mapStates f).stateAt p = f (a.stateAt p) := by
  by_cases h : p < a.size
  · exact stateAt_mapStates h
  · have h := Nat.not_lt.mp h
    rw [stateAt_of_size_le (by simpa using h), stateAt_of_size_le h, hf]

theorem stateAt_modifyState {s : Nat} (hs : s < a.size) (f : State → State) (p : Nat) :
    (a.modifyState s f).stateAt p = if p = s then f (a.stateAt s) else a.stateAt p := by
  simp only [stateAt, modifyState, List.getD_eq_getElem?_getD, List.getElem?_modify]
  split_ifs with h₁ h₂ h₂
  · subst h₁
    rw [List.getElem?_eq_getElem hs]
    rfl
  · exact absurd h₁.symm h₂
  · exact absurd h₂.symm h₁
  · simp

theorem set_eq_modifyState {s : Nat} (hs : s < a.size) (f : State → State) :
    { a with states := a.states.set s (f (a.stateAt s)) } = a.modifyState s f := by
  rw [modifyState, List.modify_eq_set_getElem?, List.getElem?_eq_getElem hs, stateAt_eq_get hs]
  rfl

theorem setFinal_eq_ok {s : Nat} (hs : s < a.size) (f : Bool) :
    a.setFinal s f = .ok (a.modifyState s fun st => { st with isFinal := f }) := by
  rw [setFinal, state_eq_ok hs, ← set_eq_modifyState hs]
  rfl

theorem stateAt_link {s : Nat} (hs : s < a.size) (t : Nat) (e : Regex) (p : Nat) :
    (a.link s t e).stateAt p = if p = s then (a.stateAt s).link t e else a.stateAt p :=
  stateAt_modifyState hs ..

theorem stateAt_unlink {s : Nat} (hs : s < a.size) (i p : Nat) :
    (a.unlink s i).stateAt p = if p = s then (a.stateAt s).unlink i else a.stateAt p :=
  stateAt_modifyState hs ..

theorem lt_size_of_transition? {s i : Nat} {t : Transition} (h : a.transition? s i = some t) :
    s < a.size := lt_size_of_mem (List.mem_of_getElem? h)

theorem eraseIdx_append_perm {α : Type} {l : List α} {i : Nat} {x : α} (h : l[i]? = some x) :
    (l.eraseIdx i ++ [x]).Perm l := by
  obtain ⟨hi, rfl⟩ := List.getElem?_eq_some_iff.mp h
  exact (List.perm_append_singleton ..).trans (List.getElem_cons_eraseIdx_perm hi)

/-! ## All transitions -/

theorem all_states_iff {P : State → Bool} :
    a.states.all P ↔ ∀ p < a.size, P (a.stateAt p) := by
  rw [List.all_eq_true]
  constructor
  · intro h p hp
    exact h _ (stateAt_mem hp)
  · intro h st hst
    obtain ⟨p, hp, rfl⟩ := mem_states_iff.mp hst
    exact h p hp

theorem isSimple_iff : a.isSimple ↔ ∀ p, ∀ t ∈ (a.stateAt p).transitions, t.label.isChar := by
  rw [isSimple, all_states_iff]
  simp only [List.all_eq_true]
  exact ⟨fun h p t ht => h p (lt_size_of_mem ht) t ht, fun h p _ => h p⟩

theorem isDeterministic_iff : a.isDeterministic ↔ a.isSimple ∧ ∀ p < a.size, ∀ c ∈ a.alphabet,
    (a.stateAt p).count c ≤ 1 := by
  rw [isDeterministic, Bool.and_eq_true, all_states_iff]
  simp only [List.all_eq_true, decide_eq_true_eq]
  rfl

theorem hasEpsilon_eq_false_iff :
    a.hasEpsilon = false ↔ ∀ p, ∀ t ∈ (a.stateAt p).transitions, t.label.isEps = false := by
  simp only [hasEpsilon, anyTransition, List.any_eq_false, Bool.not_eq_true]
  constructor
  · intro h p t ht
    exact h _ (stateAt_mem (lt_size_of_mem ht)) t ht
  · intro h st hst t ht
    obtain ⟨p, -, rfl⟩ := mem_states_iff.mp hst
    exact h p t ht

@[simp] theorem transitions_addState (a : Automaton) (f : Bool) :
    (a.addState f).transitions = a.transitions := by
  simp [addState, transitions]

theorem flatMap_modify_perm {l : List State} {s : Nat} (hs : s < l.length) {f : State → State}
    {xs ys : List Transition}
    (h : (xs ++ (f l[s]).transitions).Perm (ys ++ l[s].transitions)) :
    (xs ++ (l.modify s f).flatMap (·.transitions)).Perm (ys ++ l.flatMap (·.transitions)) := by
  induction l generalizing s with
  | nil => cases hs
  | cons st l ih =>
    rw [List.perm_iff_count] at h ⊢
    intro t
    cases s with
    | zero =>
      have := h t
      simp only [List.getElem_cons_zero, List.count_append, List.modify_zero_cons,
        List.flatMap_cons] at this ⊢
      omega
    | succ s =>
      have := List.perm_iff_count.mp (ih (Nat.lt_of_succ_lt_succ hs) (List.perm_iff_count.mpr h)) t
      simp only [List.count_append, List.modify_succ_cons, List.flatMap_cons] at this ⊢
      omega

/-- A change of one state's transitions, up to order and counted with what is lost
    (`xs`) and gained (`ys`), is a change of all transitions. -/
theorem transitions_modifyState_perm {s : Nat} (hs : s < a.size) {f : State → State}
    (xs ys : List Transition)
    (h : (xs ++ (f (a.stateAt s)).transitions).Perm (ys ++ (a.stateAt s).transitions)) :
    (xs ++ (a.modifyState s f).transitions).Perm (ys ++ a.transitions) := by
  rw [stateAt_eq_get hs] at h
  exact flatMap_modify_perm hs h

theorem transitions_link_perm {s : Nat} (hs : s < a.size) (t : Nat) (e : Regex) :
    (a.link s t e).transitions.Perm (⟨t, e⟩ :: a.transitions) :=
  transitions_modifyState_perm hs [] [⟨t, e⟩] (List.perm_append_singleton ..)

theorem transitions_unlink_perm {s i : Nat} {t : Transition} (h : a.transition? s i = some t) :
    (t :: (a.unlink s i).transitions).Perm a.transitions :=
  transitions_modifyState_perm (lt_size_of_transition? h) [t] []
    ((List.perm_append_singleton ..).symm.trans (eraseIdx_append_perm h))

/-! ## Well-formedness -/

theorem WellFormed.letters_mem_of_mem (h : a.WellFormed) {s : Nat} {t : Transition}
    (ht : t ∈ (a.stateAt s).transitions) {c : Char} (hc : c ∈ t.label.letters) :
    c ∈ a.alphabet :=
  h.letters_mem _ (stateAt_mem (lt_size_of_mem ht)) t ht c hc

/-- Well-formedness, state by state. -/
theorem WellFormed.of_stateAt (hs : a.start < a.size ∨ a.states = [] ∧ a.start = 0)
    (he : epsilon ∉ a.alphabet)
    (ht : ∀ p < a.size, ∀ t ∈ (a.stateAt p).transitions,
      t.target < a.size ∧ ∀ c ∈ t.label.letters, c ∈ a.alphabet) : a.WellFormed where
  target_lt := by
    intro st hst t htm
    obtain ⟨p, hp, rfl⟩ := mem_states_iff.mp hst
    exact (ht p hp t htm).1
  start_lt := hs
  epsilon_not_mem := he
  letters_mem := by
    intro st hst t htm
    obtain ⟨p, hp, rfl⟩ := mem_states_iff.mp hst
    exact (ht p hp t htm).2

theorem WellFormed.start_lt_of_pos (h : a.WellFormed) (hs : 0 < a.size) : a.start < a.size := by
  rcases h.start_lt with h | ⟨h, -⟩
  · exact h
  · rw [size, h] at hs
    cases hs

theorem WellFormed.start_lt_of_lt (h : a.WellFormed) {s : Nat} (hs : s < a.size) :
    a.start < a.size := h.start_lt_of_pos (Nat.zero_lt_of_lt hs)

theorem WellFormed.addState (h : a.WellFormed) (f : Bool) : (a.addState f).WellFormed := by
  refine .of_stateAt ?_ h.epsilon_not_mem ?_
  · rw [start_addState, size_addState]
    rcases h.start_lt with hs | ⟨-, hs⟩ <;> omega
  · intro p hp t ht
    rw [stateAt_addState] at ht
    split_ifs at ht with hp'
    · cases ht
    · refine ⟨?_, fun c => h.letters_mem_of_mem ht⟩
      have := h.target_lt_of_mem ht
      rw [size_addState]
      omega

/-- A change of one state keeps an automaton well-formed if what it does has place. -/
theorem WellFormed.modifyState (h : a.WellFormed) {s : Nat} {f : State → State}
    (hf : ∀ t ∈ (f (a.stateAt s)).transitions,
      t.target < a.size ∧ ∀ c ∈ t.label.letters, c ∈ a.alphabet) :
    (a.modifyState s f).WellFormed := by
  by_cases hs : s < a.size
  · refine .of_stateAt (.inl ?_) h.epsilon_not_mem ?_
    · rw [size_modifyState]
      exact h.start_lt_of_lt hs
    · intro p hp t ht
      rw [size_modifyState]
      rw [stateAt_modifyState hs] at ht
      split_ifs at ht
      · exact hf t ht
      · exact ⟨h.target_lt_of_mem ht, fun c => h.letters_mem_of_mem ht⟩
  · have e : a.modifyState s f = a := by
      simp only [Automaton.modifyState, List.modify_eq_self (Nat.not_lt.mp hs)]
    rwa [e]

theorem WellFormed.link (h : a.WellFormed) {s t : Nat} {e : Regex} (ht : t < a.size)
    (he : ∀ c ∈ e.letters, c ∈ a.alphabet) : (a.link s t e).WellFormed := by
  apply h.modifyState
  intro t' ht'
  rcases List.mem_append.mp ht' with ht' | ht'
  · exact ⟨h.target_lt_of_mem ht', fun c => h.letters_mem_of_mem ht'⟩
  · rw [List.mem_singleton.mp ht']
    exact ⟨ht, he⟩

theorem WellFormed.unlink (h : a.WellFormed) (s i : Nat) : (a.unlink s i).WellFormed := by
  apply h.modifyState
  intro t ht
  have ht := List.mem_of_mem_eraseIdx ht
  exact ⟨h.target_lt_of_mem ht, fun c => h.letters_mem_of_mem ht⟩

theorem WellFormed.mapStates (h : a.WellFormed) {f : State → State}
    (hf : ∀ p, ∀ t ∈ (f (a.stateAt p)).transitions,
      t.target < a.size ∧ ∀ c ∈ t.label.letters, c ∈ a.alphabet) : (a.mapStates f).WellFormed := by
  refine .of_stateAt ?_ h.epsilon_not_mem ?_
  · rw [size_mapStates, start_mapStates]
    exact h.start_lt.imp_right fun hs => ⟨by simp [Automaton.mapStates, hs.1], hs.2⟩
  · intro p hp t ht
    rw [size_mapStates] at hp ⊢
    rw [stateAt_mapStates hp] at ht
    exact hf p t ht

theorem WellFormed.extendAlphabet (h : a.WellFormed) (cs : List Char) :
    (a.extendAlphabet cs).WellFormed := by
  refine .of_stateAt h.start_lt ?_ fun p hp t ht => ⟨h.target_lt_of_mem ht, ?_⟩
  · intro hm
    rcases SortedSet.mem_insertAll.mp hm with hm | hm
    · exact h.epsilon_not_mem hm
    · simp at hm
  · intro c hc
    exact SortedSet.mem_insertAll.mpr (.inl (h.letters_mem_of_mem ht hc))

end Automaton

end RegularLang
