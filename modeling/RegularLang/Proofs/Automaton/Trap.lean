/-
  RegularLang.Proofs.Automaton.Trap — a state that nothing leaves plays no part in what is
  read off an automaton: it may be taken out first (`Trap.toRegex_eq`).

  State elimination comes to it in its turn. Until then it only adds transitions into it to
  the states that lead past an eliminated state, and these go with it. So eliminating a state
  before the trap and taking the trap out commute (`without_detour`, `without_without`).
-/

import RegularLang.Proofs.Automaton.Minimized
import RegularLang.Proofs.Automaton.ReadOff

namespace RegularLang

variable {s t p : Nat}

/-! ## States -/

namespace State

variable {st : State} {loop : Regex} {out : List Transition}

/-- No two transitions have the same target. -/
def NoParallel (st : State) : Prop := (st.transitions.map (·.target)).Nodup

theorem NoParallel.without (h : st.NoParallel) (s : Nat) : (st.without s).NoParallel :=
  nodup_targets_dropTarget h s

theorem NoParallel.detour (h : st.NoParallel) (s : Nat) (loop : Regex) (out : List Transition) :
    (st.detour s loop out).NoParallel := by
  rw [State.detour]
  dsimp only
  split_ifs
  · exact h
  · exact nodup_targets_mergeParallel _

theorem incoming_without (hs : s < t) (st : State) :
    (st.without t).transitions.filter (·.target = s) = st.transitions.filter (·.target = s) := by
  refine (filter_dropTarget (P := (· = s)) (lower_eq_iff_of_lt hs) st.transitions).trans
    (dropTarget_of_lt ?_)
  intro u hu
  have : u.target = s := by simpa using (List.mem_filter.mp hu).2
  omega

theorem without_detour (h : st.NoParallel) (hs : s < t) :
    (st.detour s loop out).without t = (st.without t).detour s loop (dropTarget t out) := by
  rw [detour, detour, incoming_without hs]
  dsimp only
  generalize st.transitions.filter (·.target = s) = into
  by_cases hskip : into.isEmpty || out.isEmpty
  · rw [if_pos hskip, if_pos]
    rcases Bool.or_eq_true_iff.mp hskip with hinto | hout
    · rw [hinto, Bool.true_or]
    · rw [List.isEmpty_iff.mp hout, dropTarget_nil, List.isEmpty_nil, Bool.or_true]
  · have hpast : dropTarget t (into.flatMap fun u =>
        out.map fun o => (⟨o.target, u.label * loop * o.label⟩ : Transition)) =
          into.flatMap fun u =>
            (dropTarget t out).map fun o => ⟨o.target, u.label * loop * o.label⟩ := by
      rw [dropTarget_flatMap]
      exact List.flatMap_congr fun u _ => dropTarget_relabel t (u.label * loop * ·) out
    rw [if_neg hskip, without_eq, dropTarget_mergeParallel, dropTarget_append, hpast]
    split_ifs with hskip'
    · -- Only the dropped target is left to go on to, and nothing is merged.
      have hout : dropTarget t out = [] := by
        rw [Bool.or_eq_true, List.isEmpty_iff, List.isEmpty_iff] at hskip hskip'
        exact hskip'.resolve_left fun hinto => hskip (.inl hinto)
      rw [hout, List.flatMap_eq_nil_iff.mpr fun _ _ => List.map_nil, List.append_nil]
      exact congrArg (State.mk st.isFinal) (mergeParallel_of_nodup (h.without t))
    · rfl

theorem without_mergeEdges (st : State) (t : Nat) :
    st.mergeEdges.without t = (st.without t).mergeEdges :=
  congrArg (State.mk st.isFinal) (dropTarget_mergeParallel t st.transitions)

theorem without_divert {output : Nat} (h : output ≠ t) (st : State) :
    (st.divert output).without t = (st.without t).divert (lower t output) := by
  rw [divert, divert]
  by_cases hf : st.isFinal
  · rw [if_pos hf, if_pos (show (st.without t).isFinal from hf), without_eq, dropTarget_append,
      dropTarget_cons_of_ne h]
    rfl
  · rw [if_neg hf, if_neg (show ¬(st.without t).isFinal from hf)]

end State

/-! ## Automata -/

namespace Automaton

variable {a : Automaton}

def NoParallel (a : Automaton) : Prop := ∀ p, (a.stateAt p).NoParallel

theorem raise_eq_iff_of_lt (hs : s < t) : raise t p = s ↔ p = s := by
  unfold raise
  split_ifs <;> omega

theorem stateAt_without_of_lt (a : Automaton) (hs : s < t) :
    (a.without t).stateAt s = (a.stateAt s).without t := by
  rw [stateAt_without, (raise_eq_iff_of_lt hs).mpr rfl]

/-- Two states may be taken out in either order. -/
theorem without_without (a : Automaton) (hs : s < t) (ht : t < a.size) :
    (a.without s).without (t - 1) = (a.without t).without s := by
  have hsize := size_without (hs.trans ht)
  have hsize' := size_without ht
  have hleft := size_without (a := a.without s) (s := t - 1) (by omega)
  have hright := size_without (a := a.without t) (s := s) (by omega)
  refine eq_of_stateAt (by omega) (lower_lower hs a.start) rfl fun p _ => ?_
  have hraise : raise s (raise (t - 1) p) = raise t (raise s p) := by
    unfold raise
    split_ifs <;> omega
  rw [stateAt_without, stateAt_without, stateAt_without, stateAt_without, hraise]
  exact congrArg (State.mk _) (dropTarget_dropTarget hs _)

theorem loopAt_without (a : Automaton) (hs : s < t) : (a.without t).loopAt s = a.loopAt s := by
  rw [loopAt, loopAt, stateAt_without_of_lt a hs, State.labelTo, State.labelTo,
    State.incoming_without hs]

theorem leaving_without (a : Automaton) (hs : s < t) :
    (a.without t).leaving s = dropTarget t (a.leaving s) := by
  rw [leaving, leaving, stateAt_without_of_lt a hs]
  exact filter_dropTarget (P := (· ≠ s)) (fun p => not_congr (lower_eq_iff_of_lt hs p)) _

/-- A smaller state may be gone past before or after. -/
theorem without_detour (h : a.NoParallel) (hs : s < t) (ht : t < a.size) :
    (a.detour s).without t = (a.without t).detour s := by
  have hsize := size_without (a := a.detour s) (size_detour a s ▸ ht)
  have hsize' := size_without ht
  rw [size_detour] at hsize
  refine eq_of_stateAt (by rw [size_detour]; omega) rfl rfl fun p _ => ?_
  rw [stateAt_without, stateAt_detour, stateAt_detour, loopAt_without a hs, leaving_without a hs,
    stateAt_without]
  by_cases hp : p = s
  · rw [if_pos ((raise_eq_iff_of_lt hs).mpr hp), if_pos hp]
  · rw [if_neg (mt (raise_eq_iff_of_lt hs).mp hp), if_neg hp, State.without_detour (h _) hs]

theorem NoParallel.without (h : a.NoParallel) (s : Nat) : (a.without s).NoParallel := by
  intro p
  rw [stateAt_without]
  exact (h _).without s

theorem NoParallel.detour (h : a.NoParallel) (s : Nat) : (a.detour s).NoParallel := by
  intro p
  rw [stateAt_detour]
  split_ifs
  · exact h p
  · exact (h p).detour s _ _

/-! ## Eliminating states -/

theorem isFinalAt_without (a : Automaton) (s p : Nat) :
    (a.without s).isFinalAt p = a.isFinalAt (raise s p) := by
  rw [isFinalAt, stateAt_without]
  rfl

theorem firstInner?_eq_some_iff : a.firstInner? = some s ↔
    (s < a.size ∧ s ≠ a.start ∧ a.isFinalAt s = false) ∧
      ∀ p < s, ¬(p ≠ a.start ∧ a.isFinalAt p = false) := by
  rw [firstInner?, List.find?_range_eq_some]
  simp only [Bool.and_eq_true, Bool.not_eq_true', decide_eq_true_eq, List.mem_range]
  grind

namespace Trap

theorem exists_firstInner (h : a.Trap t) : ∃ s ≤ t, a.firstInner? = some s := by
  cases hinner : a.firstInner? with
  | none =>
    have hf := isFinalAt_of_firstInner?_eq_none hinner h.lt_size h.ne_start
    exact absurd (hf.symm.trans h.not_final) nofun
  | some s =>
    refine ⟨s, ?_, rfl⟩
    by_contra hlt
    exact (firstInner?_eq_some_iff.mp hinner).2 t (Nat.not_le.mp hlt) ⟨h.ne_start, h.not_final⟩

theorem firstInner_without (h : a.Trap t) (hs : s < t) (hinner : a.firstInner? = some s) :
    (a.without t).firstInner? = some s := by
  have hsize := size_without h.lt_size
  -- Below the trap all states are as they were.
  have hsame : ∀ p < t, (p ≠ (a.without t).start ↔ p ≠ a.start) ∧
      (a.without t).isFinalAt p = a.isFinalAt p := by
    intro p hp
    refine ⟨not_congr (eq_comm.trans ((lower_eq_iff_of_lt hp _).trans eq_comm)), ?_⟩
    rw [isFinalAt_without, (raise_eq_iff_of_lt hp).mpr rfl]
  obtain ⟨⟨-, hne, hf⟩, hfirst⟩ := firstInner?_eq_some_iff.mp hinner
  refine firstInner?_eq_some_iff.mpr ⟨⟨?_, (hsame s hs).1.mpr hne, (hsame s hs).2.trans hf⟩, ?_⟩
  · have := h.lt_size
    omega
  · intro p hp
    rw [(hsame p (hp.trans hs)).1, (hsame p (hp.trans hs)).2]
    exact hfirst p hp

theorem detour_eq (h : a.Trap t) : a.detour t = a := by
  have hleaving : a.leaving t = [] :=
    List.filter_eq_nil_iff.mpr fun u hu => by simpa using h.stays u hu
  refine eq_of_stateAt (size_detour a t) rfl rfl fun p _ => ?_
  rw [stateAt_detour, hleaving, State.detour, List.isEmpty_nil, Bool.or_true, if_pos rfl]
  exact ite_self _

/-- The trap is still one once a smaller state is eliminated. -/
theorem eliminated (h : a.Trap t) (hs : s < t) (hne : s ≠ a.start) :
    ((a.detour s).without s).Trap (t - 1) := by
  have hlower : lower s t = t - 1 := if_pos hs
  have hraise : raise s (t - 1) = t := (if_neg (by omega)).trans (by omega)
  have hstate : (a.detour s).stateAt t = a.stateAt t := by
    have hincoming : (a.stateAt t).transitions.filter (·.target = s) = [] := by
      refine List.filter_eq_nil_iff.mpr fun u hu => ?_
      rw [h.stays u hu, decide_eq_true_iff]
      exact hs.ne'
    rw [stateAt_detour, if_neg hs.ne', State.detour, hincoming]
    rfl
  refine ⟨?_, ?_, ?_, ?_⟩
  · have := size_eliminate (hs.trans h.lt_size)
    have := h.lt_size
    omega
  · rw [← hlower]
    exact mt (lower_inj hs.ne' hne.symm).mp h.ne_start
  · rw [isFinalAt_without, hraise, isFinalAt_detour]
    exact h.not_final
  · intro u hu
    rw [stateAt_without, hraise, hstate] at hu
    obtain ⟨v, hv, rfl⟩ := List.mem_map.mp hu
    exact (congrArg (lower s) (h.stays v (List.mem_filter.mp hv).1)).trans hlower

theorem eliminateN_self {n : Nat} (h : a.Trap t) (hinner : a.firstInner? = some t) :
    eliminateN (n + 1) a = eliminateN n (a.without t) := by
  rw [eliminateN_of_firstInner hinner, h.detour_eq]

/-- It makes no difference to take the trap out before all other states. -/
theorem eliminateN_succ {n : Nat} (h : a.Trap t) (hpar : a.NoParallel) (hn : a.size ≤ n + 1) :
    eliminateN (n + 1) a = eliminateN n (a.without t) := by
  have ht := h.lt_size
  obtain ⟨s, hst, hinner⟩ := h.exists_firstInner
  induction n generalizing a s t with
  | zero =>
    obtain rfl : s = t := by omega
    exact h.eliminateN_self hinner
  | succ n ih =>
    rcases Nat.lt_or_eq_of_le hst with hst | rfl
    · obtain ⟨hs, hne, -⟩ := firstInner?_eq_some hinner
      have hsize := size_eliminate hs
      have htrap := h.eliminated hst hne
      obtain ⟨s', hst', hinner'⟩ := htrap.exists_firstInner
      rw [eliminateN_of_firstInner hinner,
        eliminateN_of_firstInner (h.firstInner_without hst hinner), ← without_detour hpar hst ht,
        ← without_without _ hst (by rwa [size_detour])]
      exact ih htrap ((hpar.detour s).without s) (by omega) htrap.lt_size s' hst' hinner'
    · exact h.eliminateN_self hinner

end Trap

/-! ## Reading off -/

theorem finalCount_without (ht : t < a.size) (hf : a.isFinalAt t = false) :
    (a.without t).finalCount = a.finalCount := by
  have hstate : (a.states.map (·.without t))[t]? = some ((a.stateAt t).without t) := by
    rw [List.getElem?_map, List.getElem?_eq_getElem ht, stateAt_eq_get ht]
    rfl
  have hcount := (eraseIdx_append_perm hstate).countP_eq (·.isFinal)
  have hnot : ((a.stateAt t).without t).isFinal = false := hf
  rw [List.countP_append, List.countP_singleton, hnot, List.countP_map] at hcount
  exact hcount

theorem Trap.singleFinal_without (h : a.Trap t) :
    a.singleFinal.without t = (a.without t).singleFinal := by
  have hsize := size_without h.lt_size
  have hcount := finalCount_without h.lt_size h.not_final
  by_cases hle : a.finalCount ≤ 1
  · rw [singleFinal, if_pos hle, singleFinal, if_pos (hcount.le.trans hle)]
  · have hle' : ¬(a.without t).finalCount ≤ 1 := by rwa [hcount]
    have hlt : t < a.singleFinal.size := by
      rw [size_singleFinal hle]
      exact h.lt_size.trans (Nat.lt_succ_self _)
    have hsingle := size_without hlt
    have hlower : lower t a.size = (a.without t).size := (if_pos h.lt_size).trans (by omega)
    refine eq_of_stateAt ?_ ?_ ?_ fun p _ => ?_
    · rw [size_singleFinal hle] at hsingle
      rw [size_singleFinal hle']
      omega
    · rw [singleFinal, if_neg hle, singleFinal, if_neg hle']
      rfl
    · rw [singleFinal, if_neg hle, singleFinal, if_neg hle']
      rfl
    · rw [stateAt_without, stateAt_singleFinal hle, stateAt_singleFinal hle', stateAt_without,
        ← hlower, ← State.without_divert h.lt_size.ne']
      have hraise : raise t p = a.size ↔ p = lower t a.size := by
        have ht := h.lt_size
        rw [hlower]
        unfold raise
        split_ifs <;> omega
      by_cases hp : raise t p = a.size
      · rw [if_pos hp, if_pos (hraise.mp hp)]
        rfl
      · rw [if_neg hp, if_neg (mt hraise.mpr hp)]

theorem Trap.singleFinal (h : a.Trap t) : a.singleFinal.Trap t := by
  by_cases hle : a.finalCount ≤ 1
  · rwa [Automaton.singleFinal, if_pos hle]
  · have hf : ¬(a.stateAt t).isFinal := Bool.eq_false_iff.mp h.not_final
    have hstate : a.singleFinal.stateAt t = a.stateAt t := by
      rw [stateAt_singleFinal hle, if_neg h.lt_size.ne, State.divert, if_neg hf]
    refine ⟨?_, ?_, ?_, ?_⟩
    · rw [size_singleFinal hle]
      exact h.lt_size.trans (Nat.lt_succ_self _)
    · rw [Automaton.singleFinal, if_neg hle]
      exact h.ne_start
    · rw [isFinalAt, hstate]
      exact h.not_final
    · rw [hstate]
      exact h.stays

theorem Trap.mergeEdges (h : a.Trap t) : (a.mapStates (·.mergeEdges)).Trap t := by
  refine ⟨(size_mapStates ..).symm ▸ h.lt_size, h.ne_start, ?_, ?_⟩
  · rw [isFinalAt, stateAt_mapStates_of_dead rfl]
    exact h.not_final
  · rw [stateAt_mapStates_of_dead rfl]
    exact (forall_mem_mergeParallel_iff (P := fun u => u.target = t)
      fun _ _ _ => (and_self_iff).symm).mpr h.stays

theorem noParallel_mergeEdges (a : Automaton) : (a.mapStates (·.mergeEdges)).NoParallel := by
  intro p
  rw [stateAt_mapStates_of_dead rfl]
  exact nodup_targets_mergeParallel _

theorem without_mergeEdges (a : Automaton) (t : Nat) :
    (a.mapStates (·.mergeEdges)).without t = (a.without t).mapStates (·.mergeEdges) := by
  simp only [without, mapStates, List.map_map, ← List.eraseIdx_map]
  congr 2
  exact List.map_congr_left fun st _ => State.without_mergeEdges st t

theorem isDeterministic_without (ht : t < a.size) (hne : t ≠ a.start) (h : a.isDeterministic) :
    (a.without t).isDeterministic := by
  obtain ⟨hsimple, hcount⟩ := isDeterministic_iff.mp h
  have hr := restricts_without ht hne
  refine isDeterministic_iff.mpr ⟨hr.isSimple hsimple, ?_⟩
  intro p hp c hc
  refine le_trans ?_ (hcount _ (hr.lt_size_iff.mp hp) c hc)
  rw [stateAt_without, State.count, State.without_eq, dropTarget, List.countP_map]
  exact List.filter_sublist.countP_le

/-- The regex that is read off does not depend on the trap. -/
theorem Trap.toRegex_eq (h : a.Trap t) (hd : a.isDeterministic) :
    (a.without t).toRegex = a.toRegex := by
  have htrap := h.singleFinal.mergeEdges
  have hsize := size_without htrap.lt_size
  rw [toRegex, toRegex, Automaton.eliminated, Automaton.eliminated, if_pos hd,
    if_pos (isDeterministic_without h.lt_size h.ne_start hd), ← h.singleFinal_without,
    ← without_mergeEdges]
  dsimp only
  rw [← hsize, htrap.eliminateN_succ (noParallel_mergeEdges _) hsize.ge]

end Automaton

end RegularLang
