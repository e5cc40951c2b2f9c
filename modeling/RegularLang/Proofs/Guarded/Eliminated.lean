/-
  RegularLang.Proofs.Guarded.Eliminated — collapsing an automaton and reading off its
  regex meet nothing unexpected (`collapse_eq`, `readOff_eq`).

  Merging the parallel transitions of a state once leaves none
  (`mergeParallel_mergeParallel`), which is why merging them until there are none ends
  at the second look.
-/

import RegularLang.Proofs.Automaton.Edited
import RegularLang.Proofs.Guarded.Simplified

namespace RegularLang

namespace Guarded

open Automaton

variable {a : Automaton} {s p : Nat}

/-! ## One final state -/

theorem divert_eq_ok {output : Nat} (hs : s < a.size) (hout : output < a.size) :
    divert output a s = .ok (a.modifyState s (·.divert output)) := by
  rw [divert, bind_of_eq_ok (guard_state_eq_ok hs)]
  split_ifs with h
  · rw [bind_of_eq_ok (Checked.guard_eq_ok (setFinal_eq_ok hs false)),
      addTransition_of_fits (t := ⟨output, .eps⟩) (by simpa) ⟨by simpa, nofun⟩]
    refine congrArg Except.ok (eq_of_stateAt (by simp) rfl rfl fun p hp => ?_)
    rw [stateAt_link (by simpa), stateAt_modifyState hs, stateAt_modifyState hs,
      stateAt_modifyState hs, if_pos rfl, State.divert, if_pos h]
    split_ifs <;> rfl
  · refine congrArg Except.ok (eq_of_stateAt (by simp) rfl rfl fun p hp => ?_)
    rw [stateAt_modifyState hs, State.divert, if_neg h]
    split_ifs with e
    · rw [e]
    · rfl

theorem singleFinal_eq_ok (a : Automaton) : singleFinal a = .ok a.singleFinal := by
  rw [singleFinal]
  split_ifs with h
  · rw [Automaton.singleFinal, if_pos h]
  · have hsize : (a.addState true).size = a.size + 1 := size_addState ..
    rw [foldlM_eq_ok (f := (·.divert a.size)) _ _ List.nodup_range]
    · refine congrArg Except.ok (eq_of_stateAt ?_ ?_ ?_ fun p hp => ?_)
      · rw [size_mapAt, hsize, size_singleFinal h]
      · rw [Automaton.singleFinal, if_neg h]
        rfl
      · rw [Automaton.singleFinal, if_neg h]
        rfl
      · rw [size_mapAt] at hp
        rw [stateAt_mapAt hp, stateAt_singleFinal h, stateAt_addState]
        rw [hsize] at hp
        rcases Nat.lt_succ_iff_lt_or_eq.mp hp with hp | rfl
        · rw [if_pos (List.mem_range.mpr hp), if_neg hp.ne, if_neg hp.ne]
        · rw [if_neg fun h => Nat.lt_irrefl _ (List.mem_range.mp h), if_pos rfl, if_pos rfl]
    · intro b hb _ s hs
      have hs := List.mem_range.mp hs
      exact divert_eq_ok (by omega) (by omega)
    · intro s hs
      have hs := List.mem_range.mp hs
      omega

/-! ## Merging parallel transitions -/

theorem mergeEdges_eq_ok (hs : s < a.size) : (a.mergeEdges s).guard = .ok
    (decide ((a.stateAt s).mergeEdges.transitions.length ≠ (a.stateAt s).transitions.length),
      a.modifyState s (·.mergeEdges)) := by
  rw [Automaton.mergeEdges, state_eq_ok hs]
  rfl

theorem mergeEdges_mergeEdges (st : State) : st.mergeEdges.mergeEdges = st.mergeEdges := by
  rw [State.mergeEdges, State.mergeEdges]
  exact congrArg (State.mk st.isFinal) (mergeParallel_mergeParallel st.transitions)

theorem mergeEdgesN_eq_ok (hs : s < a.size) :
    mergeEdgesN 2 a s = .ok (a.modifyState s (·.mergeEdges)) := by
  have hs' : s < (a.modifyState s (·.mergeEdges)).size := by simpa
  have hstate : (a.modifyState s (·.mergeEdges)).stateAt s = (a.stateAt s).mergeEdges := by
    rw [stateAt_modifyState hs, if_pos rfl]
  have hagain : (a.modifyState s (·.mergeEdges)).modifyState s (·.mergeEdges) =
      a.modifyState s (·.mergeEdges) := by
    refine eq_of_stateAt (by simp) rfl rfl fun p hp => ?_
    rw [stateAt_modifyState hs', hstate, mergeEdges_mergeEdges]
    split_ifs with e
    · rw [e, hstate]
    · rfl
  have hsecond : mergeEdgesN 1 (a.modifyState s (·.mergeEdges)) s =
      .ok (a.modifyState s (·.mergeEdges)) := by
    rw [mergeEdgesN, bind_of_eq_ok (mergeEdges_eq_ok hs'), hstate, mergeEdges_mergeEdges, hagain]
    simp only [ne_eq, not_true_eq_false, decide_false, Bool.false_eq_true, if_false]
    rfl
  rw [mergeEdgesN, bind_of_eq_ok (mergeEdges_eq_ok hs)]
  dsimp only
  split_ifs
  · exact hsecond
  · rfl

/-! ## Eliminating a state -/

/-- The detours that replace the transitions `into`. -/
def past (into : List Transition) (loop : Regex) (out : List Transition) : List Transition :=
  into.flatMap fun t => out.map fun o => ⟨o.target, t.label * loop * o.label⟩

theorem outOf_incoming (hp : p < a.size) : outOf (incoming a s) p =
    if p = s then [] else (a.stateAt p).transitions.filter (·.target = s) := by
  rw [incoming, outOf_rows (getElem?_states hp)]

theorem outOf_detours (into : List (Nat × Transition)) (loop : Regex) (out : List Transition)
    (p : Nat) : outOf (detours into loop out) p = past (outOf into p) loop out := by
  induction into with
  | nil => rfl
  | cons t into ih =>
    have hrow : outOf (out.map fun o =>
        (t.1, (⟨o.target, t.2.label * loop * o.label⟩ : Transition))) p =
          if t.1 = p then out.map fun o => ⟨o.target, t.2.label * loop * o.label⟩ else [] := by
      rw [← outOf_map, List.map_map]
      rfl
    rw [detours, List.flatMap_cons, outOf_append, hrow, ← detours, ih, outOf_cons, past, past,
      List.flatMap_append]
    split_ifs
    · rw [List.flatMap_singleton]
    · rfl

theorem mem_sources {into : List (Nat × Transition)} {out : List Transition} :
    p ∈ sources into out ↔ out ≠ [] ∧ outOf into p ≠ [] := by
  rw [sources, ne_eq, ne_eq, outOf_eq_nil_iff, ← List.isEmpty_iff]
  split_ifs with h <;> simp [h]

theorem nodup_sources (into : List (Nat × Transition)) (out : List Transition) :
    (sources into out).Nodup := by
  rw [sources]
  split_ifs
  · exact List.nodup_nil
  · exact nodup_insertAllNew _ List.nodup_nil

theorem fits_detours (ha : a.WellFormed) (s : Nat) :
    ∀ t ∈ detours (incoming a s) (a.loopAt s) (a.leaving s),
      t.1 < a.size ∧ State.Fits a.size a.alphabet t.2 := by
  intro t ht
  obtain ⟨u, hu, ht⟩ := List.mem_flatMap.mp ht
  obtain ⟨o, ho, rfl⟩ := List.mem_map.mp ht
  have hlt : u.1 < a.size := source_rows_lt u hu
  have hmem : u.2 ∈ outOf (incoming a s) u.1 :=
    List.mem_map.mpr ⟨u, List.mem_filter.mpr ⟨hu, decide_eq_true rfl⟩, rfl⟩
  rw [outOf_incoming hlt] at hmem
  split_ifs at hmem
  · cases hmem
  · exact ⟨hlt, State.fits_mul (ha.fits (List.mem_filter.mp hmem).1).2 (letters_loopAt ha s)
      (ha.fits (mem_leaving.mp ho).1)⟩

theorem detour_eq (st : State) (s : Nat) (loop : Regex) (out : List Transition) :
    st.detour s loop out =
      let into := st.transitions.filter (·.target = s)
      let longer : State := ⟨st.isFinal, st.transitions ++ past into loop out⟩
      if out ≠ [] ∧ into ≠ [] then longer.mergeEdges else longer := by
  rw [State.detour]
  dsimp only
  simp only [Bool.or_eq_true, List.isEmpty_iff]
  by_cases hinto : st.transitions.filter (·.target = s) = []
  · rw [if_pos (.inl hinto), if_neg fun h => h.2 hinto, hinto]
    exact congrArg (State.mk _) (List.append_nil _).symm
  · by_cases hout : out = []
    · have hnone : past (st.transitions.filter (·.target = s)) loop [] = [] := by
        simp [past]
      rw [if_pos (.inr hout), if_neg fun h => h.1 hout, hout, hnone, List.append_nil]
    · rw [if_neg (not_or.mpr ⟨hinto, hout⟩), if_pos ⟨hout, hinto⟩]
      rfl

/-- Going past a state is adding the detours and merging where there are some. -/
theorem mergeEdges_detours (a : Automaton) (s : Nat) :
    (sources (incoming a s) (a.leaving s)).foldlM (mergeEdgesN 2)
      (a.linkAll (detours (incoming a s) (a.loopAt s) (a.leaving s))) = .ok (a.detour s) := by
  have hlt : ∀ p ∈ sources (incoming a s) (a.leaving s), p < a.size := by
    intro p hp
    obtain ⟨t, ht, rfl⟩ : ∃ t ∈ incoming a s, t.1 = p := by
      have hne := (mem_sources.mp hp).2
      rw [ne_eq, outOf_eq_nil_iff] at hne
      simpa using hne
    exact source_rows_lt t ht
  rw [foldlM_eq_ok (f := (·.mergeEdges)) _ _ (nodup_sources ..)]
  · refine congrArg Except.ok (eq_of_stateAt ?_ rfl rfl fun p hp => ?_)
    · rw [size_mapAt, size_linkAll, size_detour]
    · rw [size_mapAt, size_linkAll] at hp
      rw [stateAt_mapAt (by simpa), stateAt_linkAll hp, stateAt_detour, outOf_detours,
        outOf_incoming hp]
      have hsource : p ∈ sources (incoming a s) (a.leaving s) ↔ a.leaving s ≠ [] ∧
          (if p = s then [] else (a.stateAt p).transitions.filter (·.target = s)) ≠ [] := by
        rw [mem_sources, outOf_incoming hp]
      by_cases e : p = s
      · rw [if_pos e] at hsource ⊢
        rw [if_neg (fun h => (hsource.mp h).2 rfl), if_pos e]
        exact congrArg (State.mk _) (List.append_nil _)
      · rw [if_neg e] at hsource ⊢
        rw [if_neg e, detour_eq]
        exact if_congr hsource rfl rfl
  · intro b hb _ p hp
    exact mergeEdgesN_eq_ok (hb ▸ (size_linkAll ..).symm ▸ hlt p hp)
  · intro p hp
    rw [size_linkAll]
    exact hlt p hp

theorem eliminate_eq (ha : a.WellFormed) (hs : s < a.size) :
    eliminate a s = (a.eliminate s).guard := by
  rw [eliminate, Automaton.eliminate, bind_of_eq_ok (guard_state_eq_ok hs)]
  show (addTransitions a (detours (incoming a s) (a.loopAt s) (a.leaving s)) >>= fun b =>
    (sources (incoming a s) (a.leaving s)).foldlM (mergeEdgesN 2) b >>= fun b =>
      (b.removeState s).guard) = _
  rw [bind_of_eq_ok (addTransitions_eq_ok (fits_detours ha s)),
    bind_of_eq_ok (mergeEdges_detours a s), state_eq_ok hs]
  rfl

/-! ## All of them -/

theorem whileFound_eliminate {n : Nat} (ha : a.WellFormed) (hn : a.size ≤ n) :
    whileFound firstInner? eliminate n a = (eliminateN n a).guard := by
  induction n generalizing a with
  | zero =>
    have hnone : a.firstInner? = none := by
      rw [Automaton.firstInner?, Nat.le_zero.mp hn]
      rfl
    exact whileFound_of_none (congrArg Except.ok hnone)
  | succ n ih =>
    rw [eliminateN]
    cases hinner : a.firstInner? with
    | none => exact whileFound_of_none (congrArg Except.ok hinner)
    | some s =>
      obtain ⟨hs, hne, -⟩ := firstInner?_eq_some hinner
      have hok := eliminate_eq_ok hs hne
      have hact : eliminate a s = .ok ((a.detour s).without s) := by
        rw [eliminate_eq ha hs, hok]
        rfl
      have hpick : firstInner? a = .ok (some s) := congrArg Except.ok hinner
      have hsize : ((a.detour s).without s).size + 1 = a.size :=
        (size_without ((size_detour a s).symm ▸ hs)).trans (size_detour a s)
      rw [whileFound_of_some hpick hact, ih (keepsForm_eliminate ha hok).wellFormed (by omega)]
      exact congrArg Checked.guard (bind_of_eq_ok hok _).symm

theorem collapse_eq (ha : a.WellFormed) : collapse a = a.eliminated.guard := by
  by_cases hd : a.isDeterministic
  · have hwf := (extends_mergeEdges (extends_singleFinal ha).wellFormed).wellFormed
    have hmerge : forStates a.singleFinal (fun a s => do return (← (a.mergeEdges s).guard).2) =
        .ok (a.singleFinal.mapStates (·.mergeEdges)) := by
      refine forStates_eq_ok fun b hb s hs => ?_
      rw [bind_of_eq_ok (mergeEdges_eq_ok (hb ▸ hs))]
      rfl
    rw [collapse, bind_of_eq_ok (require_of_true hd _), bind_of_eq_ok (singleFinal_eq_ok a),
      bind_of_eq_ok hmerge, whileFound_eliminate hwf (Nat.le_refl _), eliminated, if_pos hd]
  · rw [collapse, require_of_false (Bool.eq_false_of_not_eq_true hd), eliminated, if_neg hd]
    rfl

/-! ## Reading off -/

theorem readOff_of_size_eq_one (h : a.size = 1) :
    readOff a = .ok (if a.isFinalAt 0 then (a.label 0 0).closure else .zero) := by
  have hzero : 0 < a.size := h ▸ Nat.zero_lt_one
  have hstate := guard_state_eq_ok hzero
  have hlabel : (a.labelBetween 0 0).guard = .ok (a.label 0 0) := by
    rw [labelBetween, state_eq_ok hzero]
    rfl
  rw [readOff, bind_of_eq_ok (require_of_true (by simp [h]) _), if_pos h, bind_of_eq_ok hstate]
  show (if a.isFinalAt 0 then _ else _) = _
  split_ifs
  · rw [bind_of_eq_ok hlabel]
    rfl
  · rfl

theorem readOff_of_size_eq_two (ha : a.WellFormed) (h : a.size = 2) :
    readOff a = if !a.isFinalAt a.start && a.isFinalAt (1 - a.start) then
      .ok (a.betweenTwo a.start (1 - a.start)) else .error (.refused .unexpectedFinals) := by
  have hstart : a.start < a.size := ha.start_lt_of_pos (h ▸ Nat.zero_lt_two)
  have hstop : 1 - a.start < a.size := by omega
  have hbetween : (a.regexBetween a.start (1 - a.start)).guard =
      .ok (a.betweenTwo a.start (1 - a.start)) := by
    rw [regexBetween, state_eq_ok hstart, state_eq_ok hstop]
    rfl
  rw [readOff, bind_of_eq_ok (require_of_true (by simp [h]) _), if_neg (by omega),
    bind_of_eq_ok (minus_of_le (by omega)), bind_of_eq_ok (guard_state_eq_ok hstart),
    bind_of_eq_ok (guard_state_eq_ok hstop)]
  show (require (!a.isFinalAt a.start && a.isFinalAt (1 - a.start)) _ >>= fun _ => _) = _
  split_ifs with hfinals
  · rw [bind_of_eq_ok (require_of_true hfinals _), hbetween]
  · rw [require_of_false (Bool.eq_false_of_not_eq_true hfinals)]
    rfl

theorem readOff_eq (ha : a.WellFormed) : readOff a = a.readOff.guard := by
  rcases hstates : a.states with _ | ⟨st, _ | ⟨st', _ | ⟨st'', sts⟩⟩⟩
  · have hsize : a.size = 0 := congrArg List.length hstates
    rw [readOff, Automaton.readOff, hstates, hsize]
    rfl
  · have hsize : a.size = 1 := congrArg List.length hstates
    have hat : a.stateAt 0 = st := by
      rw [stateAt, hstates]
      rfl
    rw [readOff_of_size_eq_one hsize, Automaton.readOff, hstates, isFinalAt, label, hat]
    rfl
  · have hsize : a.size = 2 := congrArg List.length hstates
    rw [readOff_of_size_eq_two ha hsize, Automaton.readOff, hstates]
    dsimp only
    split_ifs <;> rfl
  · have hsize : a.size = sts.length + 3 := congrArg List.length hstates
    have hmany : ¬(0 < a.size ∧ a.size ≤ 2) := by omega
    rw [readOff, require_of_false (decide_eq_false hmany), Automaton.readOff, hstates]
    rfl

end Guarded

end RegularLang
