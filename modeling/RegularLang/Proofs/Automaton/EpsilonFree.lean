/-
  RegularLang.Proofs.Automaton.EpsilonFree — removing ε-transitions is never refused and
  keeps the language (`epsilonFree_eq_ok`).

  Every merge of a cycle loses a state. When no cycle is left, the states have weights:
  a state weighs at least as much as its ε-transitions, each of which counts for one
  more than the state it leads to (`Weighed`). Taking over what a target can do keeps
  that, and lessens the whole load of ε-transitions, which is at first below two to the
  power of their number (`exists_weighed`).
-/

import Mathlib.Algebra.Order.BigOperators.Group.List
import Mathlib.Algebra.Order.Ring.Nat
import RegularLang.Proofs.Automaton.Cycles
import RegularLang.Proofs.Automaton.Merged

namespace RegularLang

/-! ## One removal, for its state -/

namespace State

variable {st other : State} {i s target : Nat} {t : Transition} {N M : Nat → Nat}

theorem epsilonTargets_unlink_perm (h : st.transitions[i]? = some t) (ht : t.label.isEps) :
    (t.target :: (st.unlink i).epsilonTargets).Perm st.epsilonTargets := by
  have hperm := (Automaton.eraseIdx_append_perm h).symm.trans (List.perm_append_singleton ..)
  have := (hperm.filter (·.label.isEps)).map (·.target)
  rw [List.filter_cons, if_pos ht] at this
  exact this.symm

theorem epsilonTargets_absorb (st other : State) (i target : Nat) :
    (st.absorb i target other).epsilonTargets =
      (st.unlink i).epsilonTargets ++ other.epsilonTargets.filter (· ≠ target) := by
  rw [epsilonTargets, absorb, List.filter_append, List.map_append, epsilonTargets, unlink]
  congr 1
  rw [epsilonTargets, List.filter_map, List.filter_filter, List.filter_filter]
  congr 1
  apply List.filter_congr
  intro u _
  cases u.label.isEps <;> simp

/-- What the ε-transitions of state `s` weigh: a loop is one. -/
def load (N : Nat → Nat) (s : Nat) (st : State) : Nat :=
  (st.epsilonTargets.map fun q => if q = s then 1 else N q + 1).sum

theorem load_congr (h : ∀ q ∈ st.epsilonTargets, q ≠ s → N q = M q) : st.load N s = st.load M s := by
  refine congrArg List.sum (List.map_congr_left ?_)
  intro q hq
  split_ifs with hs
  · rfl
  · rw [h q hq hs]

theorem lt_load {q : Nat} (hq : q ∈ st.epsilonTargets) (hne : q ≠ s) : N q < st.load N s := by
  have := List.single_le_sum (fun _ _ => Nat.zero_le _) _
    (List.mem_map_of_mem (f := fun q => if q = s then 1 else N q + 1) hq)
  rwa [if_neg hne] at this

theorem load_unlink (h : st.transitions[i]? = some t) (ht : t.label.isEps) :
    (if t.target = s then 1 else N t.target + 1) + (st.unlink i).load N s = st.load N s := by
  rw [load, load, ← ((epsilonTargets_unlink_perm h ht).map _).sum_eq, List.map_cons, List.sum_cons]

/-- A state whose target weighs no more than `N target` loses more than it takes over. -/
theorem load_absorb_lt (h : st.transitions[i]? = some t) (ht : t.label.isEps) (hne : t.target ≠ s)
    (hst : st.load N s ≤ N s) (hother : other.load N t.target ≤ N t.target) :
    (st.absorb i t.target other).load N s < st.load N s := by
  have hmem := State.mem_epsilonTargets.mpr ⟨t, List.mem_of_getElem? h, ht, rfl⟩
  have hlt := lt_load (N := N) (s := s) hmem hne
  have hunlink := load_unlink (N := N) (s := s) h ht
  rw [if_neg hne] at hunlink
  have htaken : ((other.epsilonTargets.filter (· ≠ t.target)).map
      fun q => if q = s then 1 else N q + 1).sum ≤ other.load N t.target := by
    have e : (other.epsilonTargets.filter (· ≠ t.target)).map (fun q => if q = s then 1 else N q + 1) =
        (other.epsilonTargets.filter (· ≠ t.target)).map fun q =>
          if q = t.target then 1 else N q + 1 := by
      apply List.map_congr_left
      intro q hq
      obtain ⟨hq, hqt⟩ := List.mem_filter.mp hq
      have hqt : q ≠ t.target := of_decide_eq_true hqt
      have hqs : q ≠ s := by
        intro e
        subst e
        have := lt_load (N := N) hq hqt
        omega
      rw [if_neg hqs, if_neg hqt]
    rw [e]
    exact (List.filter_sublist.map _).sum_le_sum fun _ _ => Nat.zero_le _
  have happend : (st.absorb i t.target other).load N s = (st.unlink i).load N s +
      ((other.epsilonTargets.filter (· ≠ t.target)).map
        fun q => if q = s then 1 else N q + 1).sum := by
    rw [load, epsilonTargets_absorb, List.map_append, List.sum_append]
    rfl
  omega

end State

namespace Automaton

variable {a : Automaton} {s i : Nat} {t : Transition}

/-! ## One removal -/

theorem stateAt_absorb (h : a.transition? s i = some t) (p : Nat) : (a.absorb s i).stateAt p =
    if p = s then
      if t.target = s then (a.stateAt s).unlink i
      else (a.stateAt s).absorb i t.target (a.stateAt t.target)
    else a.stateAt p := by
  have hs := lt_size_of_transition? h
  rw [absorb, h]
  dsimp only
  split_ifs with hloop hp hp
  · rw [stateAt_unlink hs, if_pos hp]
  · rw [stateAt_unlink hs, if_neg hp]
  · rw [stateAt_modifyState hs, if_pos hp]
  · rw [stateAt_modifyState hs, if_neg hp]

theorem size_absorb (a : Automaton) (s i : Nat) : (a.absorb s i).size = a.size := by
  rw [absorb]
  split
  · split <;> simp
  · rfl

theorem start_absorb (a : Automaton) (s i : Nat) : (a.absorb s i).start = a.start := by
  rw [absorb]
  split
  · split <;> rfl
  · rfl

theorem alphabet_absorb (a : Automaton) (s i : Nat) : (a.absorb s i).alphabet = a.alphabet := by
  rw [absorb]
  split
  · split <;> rfl
  · rfl

/-- No transition is new, but for where it starts. -/
theorem mem_absorb {p : Nat} {u : Transition} (h : a.transition? s i = some t)
    (hu : u ∈ ((a.absorb s i).stateAt p).transitions) : ∃ q, u ∈ (a.stateAt q).transitions := by
  rw [stateAt_absorb h] at hu
  split_ifs at hu with hp hloop
  · exact ⟨s, List.mem_of_mem_eraseIdx hu⟩
  · rcases List.mem_append.mp hu with hu | hu
    · exact ⟨s, List.mem_of_mem_eraseIdx hu⟩
    · exact ⟨t.target, (List.mem_filter.mp hu).1⟩
  · exact ⟨p, hu⟩

theorem wellFormed_absorb (ha : a.WellFormed) (h : a.transition? s i = some t) :
    (a.absorb s i).WellFormed := by
  refine .of_stateAt (.inl ?_) (alphabet_absorb a s i ▸ ha.epsilon_not_mem) ?_
  · rw [start_absorb, size_absorb]
    exact ha.start_lt_of_lt (lt_size_of_transition? h)
  · intro p _ u hu
    obtain ⟨q, hq⟩ := mem_absorb h hu
    rw [size_absorb, alphabet_absorb]
    exact ⟨ha.target_lt_of_mem hq, fun c => ha.letters_mem_of_mem hq⟩

theorem isSimple_absorb (hs : a.isSimple) (h : a.transition? s i = some t) :
    (a.absorb s i).isSimple := by
  apply isSimple_iff.mpr
  intro p u hu
  obtain ⟨q, hq⟩ := mem_absorb h hu
  exact isSimple_iff.mp hs q u hq

/-! ### Words -/

theorem languageFrom_absorb_le (h : a.transition? s i = some t) (ht : t.label.isEps) (p : Nat) :
    (a.absorb s i).languageFrom p ≤ a.languageFrom p := by
  have hle : a.languageFrom t.target ≤ a.languageFrom s :=
    languageFrom_le_of_epsilon (State.mem_epsilonTargets.mpr ⟨t, List.mem_of_getElem? h, ht, rfl⟩)
  refine languageFrom_le ?_ p
  intro p
  rw [stateAt_absorb h]
  split_ifs with hp hloop
  · subst hp
    exact State.reads_le_iff.mpr ⟨fun hf => one_le_languageFrom hf,
      fun u hu => mul_le_languageFrom (List.mem_of_mem_eraseIdx hu)⟩
  · subst hp
    refine State.reads_le_iff.mpr ⟨?_, ?_⟩
    · intro hf
      rcases Bool.or_eq_true_iff.mp hf with hf | hf
      · exact one_le_languageFrom hf
      · exact (one_le_languageFrom hf).trans hle
    · intro u hu
      rcases List.mem_append.mp hu with hu | hu
      · exact mul_le_languageFrom (List.mem_of_mem_eraseIdx hu)
      · exact (mul_le_languageFrom (List.mem_filter.mp hu).1).trans hle
  · exact a.reads_languageFrom_le p

/-- The target's words are among those of the state that took over from it. A loop of
    the target is not taken over, but reads nothing. -/
theorem languageFrom_target_le (h : a.transition? s i = some t) (hne : t.target ≠ s) :
    (a.absorb s i).languageFrom t.target ≤ (a.absorb s i).languageFrom s := by
  let b := a.absorb s i
  let X p := if p = t.target then b.languageFrom p ⊓ b.languageFrom s else b.languageFrom p
  have hX (p) : X p ≤ b.languageFrom p := by
    simp only [X]
    split_ifs
    · exact inf_le_left
    · exact le_rfl
  have hXt : X t.target = b.languageFrom t.target ⊓ b.languageFrom s := if_pos rfl
  suffices hle : b.languageFrom t.target ≤ X t.target from (hle.trans_eq hXt).trans inf_le_right
  refine languageFrom_le ?_ t.target
  intro p
  have hold : (b.stateAt p).reads X ≤ b.languageFrom p :=
    (State.reads_mono fun u _ => hX u.target).trans (b.reads_languageFrom_le p)
  by_cases hp : p = t.target
  · subst hp
    refine (le_inf hold ?_).trans_eq hXt.symm
    have hat : b.stateAt t.target = a.stateAt t.target := by
      simp only [b, stateAt_absorb h, if_neg hne]
    have hats : b.stateAt s = (a.stateAt s).absorb i t.target (a.stateAt t.target) := by
      simp only [b, stateAt_absorb h, if_neg hne, if_true]
    refine State.reads_le_iff.mpr ⟨fun hf => one_le_languageFrom ?_, ?_⟩
    · rw [isFinalAt, hats]
      rw [hat] at hf
      simp [State.absorb, hf]
    · intro u hu
      by_cases hloop : u.label.isEps ∧ u.target = t.target
      · rw [Regex.eq_eps_of_isEps hloop.1, Regex.language_eps, one_mul, hloop.2, hXt]
        exact inf_le_right
      · refine (mul_le_mul_right (hX u.target) _).trans (mul_le_languageFrom ?_)
        rw [hats]
        refine List.mem_append_right _ (List.mem_filter.mpr ⟨hat ▸ hu, ?_⟩)
        rw [Bool.not_eq_true', ← Bool.not_eq_true, Bool.and_eq_true, decide_eq_true_iff]
        exact hloop
  · simpa only [X, if_neg hp] using hold

theorem languageFrom_absorb (h : a.transition? s i = some t) (ht : t.label.isEps) :
    (a.absorb s i).languageFrom = a.languageFrom := by
  funext p
  refine le_antisymm (languageFrom_absorb_le h ht p) (languageFrom_le ?_ p)
  intro p
  have hle : (a.absorb s i).languageFrom t.target ≤ (a.absorb s i).languageFrom s := by
    by_cases hloop : t.target = s
    · rw [hloop]
    · exact languageFrom_target_le h hloop
  by_cases hp : p = s
  · subst hp
    refine State.reads_le_iff.mpr ⟨fun hf => one_le_languageFrom ?_, ?_⟩
    · rw [isFinalAt, stateAt_absorb h, if_pos rfl]
      split_ifs
      · exact hf
      · simp [State.absorb, hf]
    · intro u hu
      rcases List.mem_append.mp ((eraseIdx_append_perm h).mem_iff.mpr hu) with hu | hu
      · apply mul_le_languageFrom
        rw [stateAt_absorb h, if_pos rfl]
        split_ifs
        · exact hu
        · exact List.mem_append_left _ hu
      · rwa [List.mem_singleton.mp hu, Regex.eq_eps_of_isEps ht, Regex.language_eps, one_mul]
  · have hat : (a.absorb s i).stateAt p = a.stateAt p := by rw [stateAt_absorb h, if_neg hp]
    rw [← hat]
    exact reads_languageFrom_le _ p

theorem extends_absorb (ha : a.WellFormed) (h : a.transition? s i = some t) (ht : t.label.isEps) :
    a.Extends (a.absorb s i) where
  wellFormed := wellFormed_absorb ha h
  size_le := (size_absorb a s i).ge
  size_pos := fun hp => size_absorb a s i ▸ hp
  start_eq := start_absorb a s i
  alphabet_eq := alphabet_absorb a s i
  languageFrom_eq := fun p _ => by rw [languageFrom_absorb h ht]

/-! ## Weights -/

/-- Every state weighs at least as much as its ε-transitions. -/
def Weighed (a : Automaton) (N : Nat → Nat) : Prop := ∀ s, (a.stateAt s).load N s ≤ N s

/-- What all ε-transitions weigh. -/
def totalLoad (a : Automaton) (N : Nat → Nat) : Nat :=
  ((List.range a.size).map fun s => (a.stateAt s).load N s).sum

variable {N : Nat → Nat}

theorem load_stateAt_absorb_lt (hN : a.Weighed N) (h : a.transition? s i = some t)
    (ht : t.label.isEps) : ((a.absorb s i).stateAt s).load N s < (a.stateAt s).load N s := by
  rw [stateAt_absorb h, if_pos rfl]
  split_ifs with hloop
  · have := State.load_unlink (N := N) (s := s) h ht
    rw [if_pos hloop] at this
    omega
  · exact State.load_absorb_lt h ht hloop (hN s) (hN t.target)

theorem Weighed.absorb (hN : a.Weighed N) (h : a.transition? s i = some t) (ht : t.label.isEps) :
    (a.absorb s i).Weighed N := by
  intro p
  by_cases hp : p = s
  · subst hp
    exact (load_stateAt_absorb_lt hN h ht).le.trans (hN p)
  · rw [stateAt_absorb h, if_neg hp]
    exact hN p

theorem totalLoad_absorb_lt (hN : a.Weighed N) (h : a.transition? s i = some t)
    (ht : t.label.isEps) : (a.absorb s i).totalLoad N < a.totalLoad N := by
  rw [totalLoad, totalLoad, size_absorb]
  have hlt := load_stateAt_absorb_lt hN h ht
  refine List.sum_lt_sum _ _ ?_
    ⟨s, List.mem_range.mpr (lt_size_of_transition? h), hlt⟩
  intro p _
  by_cases hp : p = s
  · subst hp
    exact hlt.le
  · rw [stateAt_absorb h, if_neg hp]

/-- The states of an order can be weighed so that all together weigh less than two to
    the power of the number of their ε-transitions. -/
theorem Topological.exists_weights {l : List Nat} (h : a.Topological l) :
    ∃ N, (∀ s ∈ l, (a.stateAt s).load N s ≤ N s) ∧
      (l.map N).sum < 2 ^ (l.map fun s => (a.stateAt s).epsilonTargets.length).sum := by
  induction h with
  | nil => exact ⟨fun _ => 0, nofun, by simp⟩
  | @cons s l hlt hs htarget hl ih =>
    obtain ⟨N, hN, hsum⟩ := ih
    let load := (a.stateAt s).load N s
    let M q := if q = s then load else N q
    have hM {q} (hq : q ≠ s) : M q = N q := if_neg hq
    have hMs : M s = load := if_pos rfl
    have hmap : l.map M = l.map N :=
      List.map_congr_left fun q hq => hM fun e => hs (e ▸ hq)
    refine ⟨M, List.forall_mem_cons.mpr ⟨?_, ?_⟩, ?_⟩
    · rw [hMs, State.load_congr fun q _ hne => hM hne]
    · intro q hq
      rw [hM fun e => hs (e ▸ hq), State.load_congr (M := N) fun r hr hne => hM ?_]
      · exact hN q hq
      · exact fun e => hs (e ▸ hl.mem_of_mem q hq r hr hne)
    · have hload : load ≤ (a.stateAt s).epsilonTargets.length * ((l.map N).sum + 1) := by
        refine (List.sum_le_card_nsmul _ ((l.map N).sum + 1) ?_).trans_eq (by simp)
        intro n hn
        obtain ⟨q, hq, rfl⟩ := List.mem_map.mp hn
        split_ifs with hqs
        · exact Nat.le_add_left ..
        · exact Nat.succ_le_succ (List.single_le_sum (fun _ _ => Nat.zero_le _) _
            (List.mem_map_of_mem (htarget q hq hqs)))
      rw [List.map_cons, List.map_cons, List.sum_cons, List.sum_cons, hMs, hmap, pow_add]
      set d := (a.stateAt s).epsilonTargets.length
      calc load + (l.map N).sum
          < (d + 1) * ((l.map N).sum + 1) := by rw [Nat.succ_mul]; omega
        _ ≤ 2 ^ d * 2 ^ (l.map fun s => (a.stateAt s).epsilonTargets.length).sum :=
          Nat.mul_le_mul Nat.lt_two_pow_self hsum

theorem epsilonCount_eq (a : Automaton) : a.epsilonCount =
    ((List.range a.size).map fun s => (a.stateAt s).epsilonTargets.length).sum := by
  have e : (fun s => (a.stateAt s).epsilonTargets.length) =
      (fun st : State => st.transitions.countP (·.label.isEps)) ∘ a.stateAt := by
    funext s
    rw [State.epsilonTargets, List.length_map, ← List.countP_eq_length_filter]
    rfl
  rw [e, ← List.map_map, map_stateAt_range, epsilonCount, transitions, List.countP_flatMap]
  rfl

theorem exists_weighed (ha : a.WellFormed) (h : a.epsilonCycle? = none) :
    ∃ N, a.Weighed N ∧ a.totalLoad N < Nat.pow 2 a.epsilonCount := by
  obtain ⟨l, hl, hperm⟩ := exists_topological ha h
  obtain ⟨N, hN, hsum⟩ := hl.exists_weights
  have hw : a.Weighed N := by
    intro s
    by_cases hs : s < a.size
    · exact hN s (hperm.mem_iff.mpr (List.mem_range.mpr hs))
    · rw [stateAt_of_size_le (Nat.not_lt.mp hs)]
      exact Nat.zero_le _
  refine ⟨N, hw, ?_⟩
  rw [(hperm.map _).sum_eq, (hperm.map _).sum_eq, ← epsilonCount_eq] at hsum
  exact (List.sum_le_sum fun s _ => hw s).trans_lt hsum

/-- An ε-path to another state leads to a lighter one. -/
theorem Weighed.lt_of_epsilonPath (hN : a.Weighed N) {p q : Nat} (h : a.EpsilonPath p q) :
    q = p ∨ N q < N p := by
  induction h with
  | refl => exact .inl rfl
  | @tail r q _ hstep ih =>
    by_cases e : q = r
    · rwa [e]
    · have hlt := (State.lt_load (N := N) hstep e).trans_le (hN r)
      rcases ih with rfl | hr
      · exact .inr hlt
      · exact .inr (hlt.trans hr)

theorem Weighed.not_epsilonCycle (hN : a.Weighed N) (cycle : List Nat) : ¬a.EpsilonCycle cycle := by
  intro h
  obtain ⟨p, q, rest, rfl⟩ : ∃ p q rest, cycle = p :: q :: rest :=
    match cycle, h.two_le with
    | p :: q :: rest, _ => ⟨p, q, rest, rfl⟩
  have hp : p ∈ p :: q :: rest := List.mem_cons_self ..
  have hq : q ∈ p :: q :: rest := List.mem_cons_of_mem _ (List.mem_cons_self ..)
  have hne : q ≠ p := fun e => (List.nodup_cons.mp h.nodup).1 (e ▸ List.mem_cons_self ..)
  have hpq := (hN.lt_of_epsilonPath (h.path p hp q hq)).resolve_left hne
  have hqp := (hN.lt_of_epsilonPath (h.path q hq p hp)).resolve_left hne.symm
  omega

theorem Weighed.epsilonCycle?_eq_none (ha : a.WellFormed) (hN : a.Weighed N) :
    a.epsilonCycle? = none := by
  cases hc : a.epsilonCycle? with
  | none => rfl
  | some cycle => exact absurd (epsilonCycle_of_eq_some ha hc) (hN.not_epsilonCycle cycle)

/-! ## What the search for cycles finds -/

/-- Without a cycle found, no two states lead to each other. -/
theorem eq_of_epsilonPaths (ha : a.WellFormed) (h : a.epsilonCycle? = none) {p q : Nat}
    (hpq : a.EpsilonPath p q) (hqp : a.EpsilonPath q p) : p = q := by
  obtain ⟨N, hN, -⟩ := exists_weighed ha h
  have hq := hN.lt_of_epsilonPath hpq
  have hp := hN.lt_of_epsilonPath hqp
  omega

/-- The search finds a cycle of ε-transitions through two or more states if there is one
    anywhere, reached from the start or not: what it reports is one, in the order of its
    transitions, and when it reports nothing no closed path of ε-transitions leaves
    the state where it begins. -/
theorem epsilonCycle_exact (ha : a.WellFormed) :
    (∀ cycle, a.epsilonCycle? = some cycle → a.EpsilonRing cycle) ∧
    (a.epsilonCycle? = none → (∀ cycle, ¬a.EpsilonRing cycle) ∧
      ∀ p q, p ≠ q → a.EpsilonPath p q → ¬a.EpsilonPath q p) := by
  refine ⟨fun cycle h => epsilonRing_of_eq_some ha h, fun h => ⟨?_, ?_⟩⟩
  · intro cycle hring
    obtain ⟨N, hN, -⟩ := exists_weighed ha h
    exact hN.not_epsilonCycle cycle hring.epsilonCycle
  · intro p q hne hpq hqp
    exact hne (eq_of_epsilonPaths ha h hpq hqp)

/-- The first automaton has a cycle that nothing reaches, behind a loop and a dead end. The
    second has ε-transitions that part and meet again, and a cycle that a letter closes. -/
theorem epsilonCycle_exact_unreached :
    let a : Automaton := ⟨[
      ⟨true, [⟨0, .eps⟩, ⟨1, .eps⟩]⟩,
      ⟨false, [⟨1, .star (.char 'a')⟩]⟩,
      ⟨false, [⟨1, .eps⟩, ⟨4, .eps⟩]⟩,
      ⟨false, [⟨2, .char 'a'⟩, ⟨2, .eps⟩]⟩,
      ⟨false, [⟨3, .eps⟩, ⟨2, .eps⟩]⟩], 0, .ofList ['a']⟩
    let b : Automaton := ⟨[
      ⟨false, [⟨1, .eps⟩, ⟨2, .eps⟩]⟩,
      ⟨false, [⟨3, .eps⟩]⟩,
      ⟨false, [⟨3, .eps⟩, ⟨2, .eps⟩]⟩,
      ⟨true, [⟨0, .char 'a'⟩]⟩], 0, .ofList ['a']⟩
    a.WellFormed ∧ a.EpsilonRing [2, 4, 3] ∧ b.WellFormed ∧ ∀ cycle, ¬b.EpsilonRing cycle := by
  intro a b
  have ha : a.WellFormed := ⟨by decide, .inl (by decide), by decide, by
    simp [a, Regex.eps, epsilon]⟩
  have hb : b.WellFormed := ⟨by decide, .inl (by decide), by decide, by
    simp [b, Regex.eps, epsilon]⟩
  exact ⟨ha, (epsilonCycle_exact ha).1 _ rfl, hb, ((epsilonCycle_exact hb).2 rfl).1⟩

/-! ## All removals -/

theorem find?_epsilon_eq_some {st : State} (h : st.find? epsilon = some i) :
    ∃ t, st.transitions[i]? = some t ∧ t.label.isEps := by
  obtain ⟨hlt, hp, -⟩ := List.findIdx?_eq_some_iff_getElem.mp h
  exact ⟨_, List.getElem?_eq_getElem hlt, Regex.isEps_iff.mpr (of_decide_eq_true hp)⟩

theorem epsilonTargets_eq_nil_of_find? {st : State} (h : st.find? epsilon = none) :
    st.epsilonTargets = [] := by
  apply List.eq_nil_iff_forall_not_mem.mpr
  intro q hq
  obtain ⟨t, ht, he, -⟩ := State.mem_epsilonTargets.mp hq
  exact of_decide_eq_false (List.findIdx?_eq_none_iff.mp h t ht) (Regex.isEps_iff.mp he)

theorem hasEpsilon_eq_false_of_targets (h : ∀ p < a.size, (a.stateAt p).epsilonTargets = []) :
    a.hasEpsilon = false := by
  apply hasEpsilon_eq_false_iff.mpr
  intro p t ht
  rw [← Bool.not_eq_true]
  intro he
  have hmem := State.mem_epsilonTargets.mpr ⟨t, ht, he, rfl⟩
  rw [h p (lt_size_of_mem ht)] at hmem
  exact List.not_mem_nil hmem

/-- The states before `s` have no ε-transitions left, and there is fuel for the others. -/
theorem absorbN_spec {n : Nat} (ha : a.WellFormed) (hsimple : a.isSimple) (hN : a.Weighed N)
    (hbefore : ∀ p < s, (a.stateAt p).epsilonTargets = []) (hn : a.size + a.totalLoad N ≤ n + s) :
    a.Extends (absorbN n s a) ∧ (absorbN n s a).size = a.size ∧ (absorbN n s a).isSimple ∧
      (absorbN n s a).hasEpsilon = false := by
  induction n generalizing a s with
  | zero =>
    rw [absorbN]
    exact ⟨.refl ha, rfl, hsimple,
      hasEpsilon_eq_false_of_targets fun p hp => hbefore p (by omega)⟩
  | succ n ih =>
    rw [absorbN]
    split
    · rename_i hs
      have hs : a.size ≤ s := List.getElem?_eq_none_iff.mp hs
      exact ⟨.refl ha, rfl, hsimple,
        hasEpsilon_eq_false_of_targets fun p hp => hbefore p (by omega)⟩
    · rename_i st hst
      obtain rfl : a.stateAt s = st := by
        rw [stateAt, List.getD_eq_getElem?_getD, hst]
        rfl
      split
      · rename_i i hi
        obtain ⟨t, h, ht⟩ := find?_epsilon_eq_some hi
        have hlt := totalLoad_absorb_lt hN h ht
        have hsize := size_absorb a s i
        have hext := extends_absorb ha h ht
        have hbefore' : ∀ p < s, ((a.absorb s i).stateAt p).epsilonTargets = [] := by
          intro p hp
          rw [stateAt_absorb h, if_neg hp.ne]
          exact hbefore p hp
        obtain ⟨hr, hrsize, hrest⟩ := ih hext.wellFormed (isSimple_absorb hsimple h)
          (hN.absorb h ht) hbefore' (by omega)
        exact ⟨hext.trans hr, hrsize.trans hsize, hrest⟩
      · rename_i hi
        refine ih ha hsimple hN ?_ (by omega)
        intro p hp
        rcases Nat.lt_succ_iff_lt_or_eq.mp hp with hp | rfl
        · exact hbefore p hp
        · exact epsilonTargets_eq_nil_of_find? hi

theorem absorbed_spec (ha : a.WellFormed) (hsimple : a.isSimple) (h : a.epsilonCycle? = none) :
    a.Extends a.absorbed ∧ a.absorbed.size = a.size ∧ a.absorbed.isSimple ∧
      a.absorbed.hasEpsilon = false := by
  obtain ⟨N, hN, hlt⟩ := exists_weighed ha h
  exact absorbN_spec ha hsimple hN nofun (Nat.add_le_add_left hlt.le _)

/-! ## All merges -/

/-- What the merges keep. -/
structure MergedFrom (a b : Automaton) : Prop where
  wellFormed : b.WellFormed
  isSimple : b.isSimple
  alphabet_eq : b.alphabet = a.alphabet
  size_le : b.size ≤ a.size
  size_pos : 0 < a.size → 0 < b.size
  language_eq : b.language = a.language

theorem MergedFrom.refl (ha : a.WellFormed) (hsimple : a.isSimple) : a.MergedFrom a :=
  ⟨ha, hsimple, rfl, le_rfl, id, rfl⟩

theorem MergedFrom.trans {b c : Automaton} (h : a.MergedFrom b) (h' : b.MergedFrom c) :
    a.MergedFrom c where
  wellFormed := h'.wellFormed
  isSimple := h'.isSimple
  alphabet_eq := h'.alphabet_eq.trans h.alphabet_eq
  size_le := h'.size_le.trans h.size_le
  size_pos := h'.size_pos ∘ h.size_pos
  language_eq := h'.language_eq.trans h.language_eq

theorem EpsilonCycle.mergeGroup_eq_ok {cycle : List Nat} (h : a.EpsilonCycle cycle)
    (ha : a.WellFormed) (hsimple : a.isSimple) :
    ∃ b, a.mergeGroup cycle = .ok b ∧ a.MergedFrom b ∧ b.size < a.size := by
  have hlen := length_le_of_nodup_lt _ h.nodup h.lt_size
  have htwo := h.two_le
  obtain ⟨s, hs⟩ := List.exists_mem_of_length_pos (by omega : 0 < cycle.length)
  obtain ⟨b, hb, hwf, hal, hsize, hl, hbs⟩ := Automaton.mergeGroup_eq_ok ha h.lt_size h.nodup
    (fun p hp => h.languageFrom_eq hp hs) (by omega)
  exact ⟨b, hb, ⟨hwf, hbs hsimple, hal, by omega, fun _ => by omega, hl⟩, by omega⟩

theorem acyclicN_eq_ok {n : Nat} (ha : a.WellFormed) (hsimple : a.isSimple) (hn : a.size ≤ n) :
    ∃ b, acyclicN n a = .ok b ∧ a.MergedFrom b ∧ b.epsilonCycle? = none := by
  induction n generalizing a with
  | zero =>
    refine ⟨a, rfl, .refl ha hsimple, ?_⟩
    cases hc : a.epsilonCycle? with
    | none => rfl
    | some cycle =>
      obtain ⟨b, -, -, hlt⟩ := (epsilonCycle_of_eq_some ha hc).mergeGroup_eq_ok ha hsimple
      omega
  | succ n ih =>
    rw [acyclicN]
    split
    · rename_i cycle hc
      obtain ⟨b, hb, hm, hlt⟩ := (epsilonCycle_of_eq_some ha hc).mergeGroup_eq_ok ha hsimple
      obtain ⟨c, hc, hm', hnone⟩ := ih hm.wellFormed hm.isSimple (by omega)
      refine ⟨c, ?_, hm.trans hm', hnone⟩
      rw [hb]
      exact hc
    · exact ⟨a, rfl, .refl ha hsimple, ‹_›⟩

/-! ## Both -/

theorem epsilonFree_eq_ok (ha : a.WellFormed) (hsimple : a.isSimple) :
    ∃ b, a.epsilonFree = .ok b ∧ a.MergedFrom b ∧ b.hasEpsilon = false := by
  obtain ⟨b, hb, hm, hnone⟩ := acyclicN_eq_ok ha hsimple le_rfl
  obtain ⟨hext, hsize, hbs, hfree⟩ := absorbed_spec hm.wellFormed hm.isSimple hnone
  refine ⟨b.absorbed, ?_, ⟨hext.wellFormed, hbs, hext.alphabet_eq.trans hm.alphabet_eq,
    hsize.trans_le hm.size_le, fun hp => hsize ▸ hm.size_pos hp,
    (hext.language_eq hm.wellFormed).trans hm.language_eq⟩, hfree⟩
  rw [epsilonFree, if_pos hsimple, acyclic, hb]
  rfl

end Automaton

end RegularLang
