/-
  RegularLang.Proofs.Guarded.EpsilonFree — removing ε-transitions meets nothing
  unexpected (`removeEpsilon_eq`).

  The guarded removal looks for a cycle again before every step. It finds none once
  all are merged, because the weights by which the removals come to an end also say
  that no ε-path comes back to where it started (`Weighed.epsilonCycle?_eq_none`).
-/

import RegularLang.Proofs.Automaton.Edited
import RegularLang.Proofs.Guarded.Simplified

namespace RegularLang

open Automaton

variable {a b : Automaton} {path finished group : List Nat} {seen : IndexedSet Nat} {s i p n m : Nat}
  {t : Transition} {N : Nat → Nat}

/-! ## Searching for cycles -/

namespace Guarded

theorem searchCycle_eq (ha : a.WellFormed) (h : a.Searched path finished seen)
    (hs : s < a.size) (hnew : s ∉ seen)
    (hlink : ∀ p ∈ path.head?, s ∈ (a.stateAt p).epsilonTargets) (hn : a.size ≤ n + path.length) :
    searchCycle a n path seen s = (a.table.searchCycle n path seen s).mapError .inr := by
  induction n generalizing path seen s finished with
  | zero =>
    have h' := h.enter hs hnew hlink
    have := length_le_of_nodup_lt _ h'.nodup h'.lt_size
    rw [List.length_cons] at this
    omega
  | succ n ih =>
    have hstate : (a.state s).guard.mapError (Sum.inl (β := List Nat)) = .ok (a.stateAt s) := by
      rw [state_eq_ok hs]
      rfl
    rw [searchCycle, searchCycle_succ, bind_of_eq_ok hstate]
    refine foldlM_mapError (P := fun seen => ∃ finished, a.Searched (s :: path) finished seen) ?_
      ⟨finished, h.enter hs hnew hlink⟩
    intro next hnext seen hseen
    obtain ⟨finished, h⟩ := hseen
    have hlt := epsilonTarget_lt ha hnext
    have hindex : (index a.size next).mapError (Sum.inl (β := List Nat)) = .ok next := by
      rw [index_of_lt hlt]
      rfl
    have hlink' : ∀ p ∈ (s :: path).head?, next ∈ (a.stateAt p).epsilonTargets := by
      intro p hp
      cases hp
      exact hnext
    have hlen : a.size ≤ n + (s :: path).length := by
      rw [List.length_cons]
      omega
    have hends := ends_follow h hnext fun hm => ends_searchCycle ha h hlt hm hlink' hlen
    constructor
    · rw [bind_of_eq_ok hindex, follow]
      split_ifs with he hm hp
      · rfl
      · rfl
      · rfl
      · exact ih h hlt hm hlink' hlen
    · intro seen' hok
      rw [hok] at hends
      obtain ⟨finished', -, -, h'⟩ := hends
      exact ⟨finished', h'⟩

theorem epsilonCycle?_eq_ok (ha : a.WellFormed) : epsilonCycle? a = .ok a.epsilonCycle? := by
  have hsearch : (List.range a.size).foldlM (fun seen s =>
      if s ∈ seen then .ok seen else searchCycle a a.size [] seen s) IndexedSet.empty =
        a.searchAll.mapError .inr := by
    refine foldlM_mapError (P := fun seen => ∃ finished, a.Searched [] finished seen) ?_
      ⟨[], by simp, nofun, List.nodup_nil, nofun, .nil, .nil⟩
    intro s hs seen hseen
    obtain ⟨finished, h⟩ := hseen
    split_ifs with hm
    · exact ⟨rfl, fun z hz => ⟨finished, Except.ok.inj hz ▸ h⟩⟩
    · have hlt := List.mem_range.mp hs
      refine ⟨searchCycle_eq ha h hlt hm nofun (Nat.le_add_right ..), fun seen' hok => ?_⟩
      have hends := ends_searchCycle ha h hlt hm nofun (Nat.le_add_right ..)
      rw [hok] at hends
      obtain ⟨finished', -, -, h'⟩ := hends
      exact ⟨finished', h'⟩
  rw [epsilonCycle?, hsearch]
  cases hr : a.searchAll with
  | error cycle => exact congrArg Except.ok (epsilonCycle?_eq_some.mpr hr).symm
  | ok seen =>
    refine congrArg Except.ok ?_
    cases hc : a.epsilonCycle? with
    | none => rfl
    | some cycle =>
      rw [epsilonCycle?_eq_some.mp hc] at hr
      cases hr

/-! ## Merging a cycle -/

theorem outOf_redirected (a : Automaton) (group : List Nat) (p : Nat) :
    outOf (redirected a group a.size) p = (a.states.mapIdx fun s st =>
      if s ∈ group then if a.size = p then st.asMerged group a.size else []
      else if s = p then st.intoMerged group a.size else []).flatten := by
  rw [redirected, outOf_flatten]
  refine congrArg List.flatten (List.ext_getElem? fun i => ?_)
  rw [List.getElem?_map, List.getElem?_mapIdx, List.getElem?_mapIdx, Option.map_map]
  refine congrArg (Option.map · _) (funext fun st => ?_)
  rw [Function.comp_apply]
  split_ifs <;> simp_all [outOf_map]

theorem outOf_redirected_of_lt (hp : p < a.size) : outOf (redirected a group a.size) p =
    if p ∈ group then [] else (a.stateAt p).intoMerged group a.size := by
  rw [outOf_redirected, flatten_mapIdx_eq (getElem?_states hp)]
  · simp [Nat.ne_of_gt hp]
  · intro s st hs
    simp [Nat.ne_of_gt hp, hs]

theorem outOf_redirected_size (a : Automaton) (group : List Nat) :
    outOf (redirected a group a.size) a.size = (a.states.mapIdx fun s st =>
      if s ∈ group then st.asMerged group a.size else []).flatten := by
  rw [outOf_redirected]
  refine congrArg List.flatten (List.ext_getElem? fun s => ?_)
  rw [List.getElem?_mapIdx, List.getElem?_mapIdx]
  cases hx : a.states[s]? with
  | none => rfl
  | some st =>
    have hs : s ≠ a.size := Nat.ne_of_lt (List.getElem?_eq_some_iff.mp hx).1
    simp [hs]

theorem source_redirected_lt : ∀ t ∈ redirected a group a.size, t.1 < a.size + 1 := by
  intro t ht
  obtain ⟨row, hrow, ht⟩ := List.mem_flatten.mp ht
  obtain ⟨s, hs, rfl⟩ := List.mem_mapIdx.mp hrow
  have hs : s < a.size := hs
  split_ifs at ht
  · obtain ⟨u, -, rfl⟩ := List.mem_map.mp ht
    exact Nat.lt_succ_self _
  · obtain ⟨u, -, rfl⟩ := List.mem_map.mp ht
    exact Nat.lt_succ_of_lt hs

theorem addTransitions_redirected (ha : a.WellFormed) (final : Bool) :
    addTransitions (a.addState final) (redirected a group a.size) =
      .ok { a.addMerged group final with start := a.start } := by
  refine addTransitions_eq_of_rows (wellFormed_addMerged ha) ?_ rfl ?_ ?_
  · rw [size_addMerged, size_addState]
  · rw [size_addState]
    exact source_redirected_lt
  · intro p hp
    rw [size_addState] at hp
    rw [stateAt_addState]
    rcases Nat.lt_succ_iff_lt_or_eq.mp hp with hp | rfl
    · rw [stateAt_addMerged_of_lt hp, outOf_redirected_of_lt hp, if_neg (Nat.ne_of_lt hp)]
      split_ifs
      · rw [List.append_nil]
      · rfl
    · rw [stateAt_addMerged_size, outOf_redirected_size, if_pos rfl]
      rfl

theorem moveStart_addMerged (a : Automaton) (group : List Nat) (final : Bool) :
    moveStart { a.addMerged group final with start := a.start } group a.size =
      .ok (a.addMerged group final) := by
  rw [moveStart]
  split_ifs with h
  · have hlt : a.size < (a.addMerged group final).size := by
      rw [size_addMerged]
      exact Nat.lt_succ_self _
    refine Checked.guard_eq_ok ((if_pos hlt).trans (congrArg Except.ok ?_))
    exact eq_of_stateAt rfl (if_pos h).symm rfl fun _ _ => rfl
  · exact congrArg Except.ok (eq_of_stateAt rfl (if_neg h).symm rfl fun _ _ => rfl)

theorem mergeGroup_eq (ha : a.WellFormed) (hlt : ∀ s ∈ group, s < a.size) :
    mergeGroup a group = (a.mergeGroup group).guard := by
  rw [mergeGroup, Automaton.mergeGroup, groupFinal_eq_ok hlt]
  show (addTransitions (a.addState _) (redirected a group a.size) >>= _) = _
  rw [bind_of_eq_ok (addTransitions_redirected ha _)]
  exact bind_of_eq_ok (moveStart_addMerged ..) _

/-! ## Absorbing a target -/

theorem takeOver_eq_ok (ha : a.WellFormed) (hs : s < a.size) (hp : p < a.size) :
    takeOver a s p = .ok (a.modifyState s fun st =>
      ⟨st.isFinal || a.isFinalAt p, st.transitions ++
        (a.stateAt p).transitions.filter fun u => !(u.label.isEps && u.target = p)⟩) := by
  let copied := (a.stateAt p).transitions.filter fun u => !(u.label.isEps && u.target = p)
  let b := a.linkAll (copied.map fun u => (s, u))
  have hadd : addTransitions a (copied.map fun u => (s, u)) = .ok b := by
    refine addTransitions_eq_ok fun u hu => ?_
    obtain ⟨v, hv, rfl⟩ := List.mem_map.mp hu
    exact ⟨hs, ha.fits (List.mem_of_mem_filter hv)⟩
  have hb {q : Nat} (hq : q < a.size) : b.stateAt q = { a.stateAt q with
      transitions := (a.stateAt q).transitions ++ if s = q then copied else [] } := by
    rw [stateAt_linkAll hq, outOf_map]
  have hsize : b.size = a.size := size_linkAll ..
  have hstate : (b.state p).guard = .ok (b.stateAt p) :=
    guard_state_eq_ok (hsize ▸ hp)
  have hfinal : (b.stateAt p).isFinal = a.isFinalAt p := by
    rw [hb hp]
    rfl
  rw [takeOver, bind_of_eq_ok (guard_state_eq_ok hp), bind_of_eq_ok hadd,
    bind_of_eq_ok hstate, hfinal]
  split_ifs with h
  · refine Checked.guard_eq_ok ((setFinal_eq_ok (hsize ▸ hs) true).trans (congrArg Except.ok ?_))
    refine eq_of_stateAt (by simp [hsize]) rfl rfl fun q hq => ?_
    rw [size_modifyState, hsize] at hq
    rw [stateAt_modifyState (hsize ▸ hs), stateAt_modifyState hs, hb hs, hb hq]
    by_cases e : q = s
    · rw [if_pos e, if_pos e, if_pos rfl, h, Bool.or_true]
    · rw [if_neg e, if_neg e, if_neg (Ne.symm e), List.append_nil]
  · refine congrArg Except.ok (eq_of_stateAt (by simp [hsize]) rfl rfl fun q hq => ?_)
    rw [hsize] at hq
    rw [stateAt_modifyState hs, hb hq]
    by_cases e : q = s
    · subst e
      rw [if_pos rfl, if_pos rfl, Bool.eq_false_of_not_eq_true h, Bool.or_false]
    · rw [if_neg e, if_neg (Ne.symm e), List.append_nil]

theorem absorb_eq_ok (ha : a.WellFormed) (h : a.transition? s i = some t) :
    absorb a s i = .ok (a.absorb s i) := by
  have hs := lt_size_of_transition? h
  have ht : (a.transition s i).guard = .ok t := by
    rw [transition, h]
    rfl
  rw [absorb, bind_of_eq_ok ht, Automaton.absorb, h]
  dsimp only
  split_ifs with hloop
  · exact bind_of_eq_ok (removeTransition_of_transition? h) _
  · rw [bind_of_eq_ok (takeOver_eq_ok ha hs (ha.target_lt_of_mem (List.mem_of_getElem? h)))]
    have hi : i < (a.stateAt s).transitions.length := (List.getElem?_eq_some_iff.mp h).1
    rw [bind_of_eq_ok (removeTransition_of_transition? (t := t) ?_)]
    · refine congrArg Except.ok (eq_of_stateAt (by simp) rfl rfl fun q hq => ?_)
      rw [stateAt_unlink (by simpa), stateAt_modifyState hs, stateAt_modifyState hs,
        stateAt_modifyState hs, if_pos rfl]
      split_ifs with e
      · rw [State.unlink, State.absorb, List.eraseIdx_append_of_lt_length hi]
        rfl
      · rfl
    · rw [transition?, stateAt_modifyState hs, if_pos rfl, List.getElem?_append_left hi]
      exact h

end Guarded

/-! ## One step of the removal -/

namespace Automaton

theorem firstTransitionFrom_eq {P : Transition → Bool} {sts : List State} {st : State} {k : Nat}
    (hst : sts[s]? = some st) (hi : st.transitions.findIdx? P = some i)
    (hbefore : ∀ p < s, ∀ st, sts[p]? = some st → st.transitions.findIdx? P = none) :
    firstTransitionFrom P k sts = some (k + s, i) := by
  induction sts generalizing s k with
  | nil => cases hst
  | cons st' sts ih =>
    rw [firstTransitionFrom]
    cases s with
    | zero =>
      cases hst
      rw [hi]
      rfl
    | succ s =>
      rw [hbefore 0 (Nat.succ_pos s) st' rfl]
      refine (ih hst fun p hp st hst => hbefore (p + 1) (by omega) st hst).trans ?_
      rw [Nat.add_right_comm, Nat.add_assoc]

end Automaton

namespace Guarded

theorem find?_epsilon (st : State) : st.find? epsilon = st.transitions.findIdx? (·.label.isEps) := by
  refine congrArg (List.findIdx? · st.transitions) (funext fun t => ?_)
  exact Bool.eq_iff_iff.mpr (decide_eq_true_iff.trans Regex.isEps_iff.symm)

/-- The first state with ε-transitions has the first of them. -/
theorem firstTransition?_epsilon (hs : s < a.size) (hi : (a.stateAt s).find? epsilon = some i)
    (hbefore : ∀ p < s, (a.stateAt p).epsilonTargets = []) :
    a.firstTransition? (·.label.isEps) = some (s, i) := by
  have hfirst : a.firstTransition? (·.label.isEps) = some (0 + s, i) := by
    refine firstTransitionFrom_eq (getElem?_states hs) ((find?_epsilon _).symm.trans hi) ?_
    intro p hp st hst
    rw [getElem?_states (hp.trans hs)] at hst
    cases hst
    refine List.findIdx?_eq_none_iff.mpr fun t ht => Bool.eq_false_of_not_eq_true fun he => ?_
    have hmem := State.mem_epsilonTargets.mpr ⟨t, ht, he, rfl⟩
    rw [hbefore p hp] at hmem
    exact List.not_mem_nil hmem
  rwa [Nat.zero_add] at hfirst

theorem removable?_of_cycle (ha : a.WellFormed) {cycle : List Nat}
    (h : a.epsilonCycle? = some cycle) : removable? a = .ok (some (.inl cycle)) := by
  rw [removable?, epsilonCycle?_eq_ok ha, h]
  rfl

theorem removable?_of_acyclic (ha : a.WellFormed) (h : a.epsilonCycle? = none) :
    removable? a = .ok ((a.firstTransition? (·.label.isEps)).map .inr) := by
  rw [removable?, epsilonCycle?_eq_ok ha, h]
  rfl

theorem removable?_of_epsilonFree (ha : a.WellFormed) (hN : a.Weighed N)
    (h : ∀ p < a.size, (a.stateAt p).epsilonTargets = []) : removable? a = .ok none := by
  rw [removable?_of_acyclic ha (hN.epsilonCycle?_eq_none ha)]
  cases hfirst : a.firstTransition? (·.label.isEps) with
  | none => rfl
  | some at_ =>
    obtain ⟨t, ht, he⟩ := firstTransition?_eq_some hfirst
    have hfree := hasEpsilon_eq_false_iff.mp (hasEpsilon_eq_false_of_targets h)
    rw [hfree _ t (List.mem_of_getElem? ht)] at he
    cases he

/-- The removal goes on to the next state when a state has lost its ε-transitions. -/
theorem whileFound_absorbN (ha : a.WellFormed) (hN : a.Weighed N)
    (hbefore : ∀ p < s, (a.stateAt p).epsilonTargets = []) (hm : a.totalLoad N ≤ m)
    (hn : a.size + a.totalLoad N ≤ n + s) :
    whileFound removable? removeOne m a = .ok (absorbN n s a) := by
  induction n generalizing a s m with
  | zero =>
    exact whileFound_of_none
      (removable?_of_epsilonFree ha hN fun p hp => hbefore p (by omega))
  | succ n ih =>
    rw [absorbN]
    by_cases hs : s < a.size
    · rw [getElem?_states hs]
      dsimp only
      cases hi : (a.stateAt s).find? epsilon with
      | some i =>
        obtain ⟨t, h, ht⟩ := find?_epsilon_eq_some hi
        have hlt := totalLoad_absorb_lt hN h ht
        have hsize := size_absorb a s i
        obtain ⟨m, rfl⟩ : ∃ m', m = m' + 1 := ⟨m - 1, by omega⟩
        have hpick : removable? a = .ok (some (.inr (s, i))) := by
          rw [removable?_of_acyclic ha (hN.epsilonCycle?_eq_none ha),
            firstTransition?_epsilon hs hi hbefore]
          rfl
        rw [whileFound_of_some hpick (absorb_eq_ok ha h)]
        refine ih (wellFormed_absorb ha h) (hN.absorb h ht) ?_ (by omega) (by omega)
        intro p hp
        rw [stateAt_absorb h, if_neg hp.ne]
        exact hbefore p hp
      | none =>
        refine ih ha hN ?_ hm (by omega)
        intro p hp
        rcases Nat.lt_succ_iff_lt_or_eq.mp hp with hp | rfl
        · exact hbefore p hp
        · exact epsilonTargets_eq_nil_of_find? hi
    · rw [List.getElem?_eq_none (Nat.not_lt.mp hs)]
      exact whileFound_of_none
        (removable?_of_epsilonFree ha hN fun p hp => hbefore p (by omega))

/-- Once the cycles are merged some of the bound is left. -/
theorem exists_whileFound_acyclicN (ha : a.WellFormed) (hb : acyclicN n a = .ok b) (m : Nat) :
    ∃ j, whileFound removable? removeOne (n + m) a =
      whileFound removable? removeOne (j + m) b := by
  induction n generalizing a with
  | zero =>
    cases hb
    exact ⟨0, rfl⟩
  | succ n ih =>
    rw [acyclicN] at hb
    cases hc : a.epsilonCycle? with
    | none =>
      rw [hc] at hb
      cases hb
      exact ⟨n + 1, rfl⟩
    | some cycle =>
      rw [hc] at hb
      obtain ⟨c, hmerge, hb⟩ := Checked.bind_eq_ok.mp hb
      obtain ⟨j, hj⟩ := ih (keepsForm_mergeGroup ha hmerge).wellFormed hb
      have hone : removeOne a (.inl cycle) = .ok c := by
        rw [removeOne, mergeGroup_eq ha (epsilonCycle_of_eq_some ha hc).lt_size, hmerge]
        rfl
      refine ⟨j, ?_⟩
      rw [Nat.succ_add, whileFound_of_some (removable?_of_cycle ha hc) hone, hj]

theorem removeEpsilon_eq (ha : a.WellFormed) : removeEpsilon a = a.epsilonFree.guard := by
  by_cases hsimple : a.isSimple
  · obtain ⟨b, hb, hm, hnone⟩ := acyclicN_eq_ok ha hsimple le_rfl
    obtain ⟨N, hN, hlt⟩ := exists_weighed hm.wellFormed hnone
    have hbound : removals a = a.size + Nat.pow 2 b.epsilonCount := by
      rw [removals, acyclic, hb]
    obtain ⟨j, hj⟩ := exists_whileFound_acyclicN ha hb (Nat.pow 2 b.epsilonCount)
    have hloop : whileFound removable? removeOne (removals a) a = .ok b.absorbed := by
      rw [hbound, hj]
      exact whileFound_absorbN hm.wellFormed hN (fun p hp => absurd hp (Nat.not_lt_zero p)) (by omega)
        (Nat.add_le_add_left hlt.le _)
    have hfree := (absorbed_spec hm.wellFormed hm.isSimple hnone).2.2.2
    rw [removeEpsilon, bind_of_eq_ok (require_of_true hsimple _), bind_of_eq_ok hloop,
      bind_of_eq_ok (ensure_of_true (by rw [hfree]; rfl)), epsilonFree, if_pos hsimple, acyclic, hb]
    rfl
  · rw [removeEpsilon, require_of_false (Bool.eq_false_of_not_eq_true hsimple), epsilonFree,
      if_neg hsimple]
    rfl

end Guarded

end RegularLang
