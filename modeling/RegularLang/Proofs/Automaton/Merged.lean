/-
  RegularLang.Proofs.Automaton.Merged — merging a group of states with the same words
  keeps the language and is never refused (`mergeGroup_eq_ok`). Whatever words they have, it
  is the same as joining them by ε-transitions (`mergeGroup_exact`).

  The automaton with both the group and the state that replaces it is looked at first
  (`addMerged`); the group is gone from it in the result.
-/

import Mathlib.Data.List.Sort
import RegularLang.Automaton.EpsilonFree
import RegularLang.Proofs.Automaton.Restricted
import RegularLang.Proofs.Automaton.Simulated

namespace RegularLang

namespace State

variable {st : State} {group : List Nat} {merged : Nat} {t : Transition}

theorem mem_intoMerged : t ∈ st.intoMerged group merged ↔
    ∃ u ∈ st.transitions, u.target ∈ group ∧ t = ⟨merged, u.label⟩ := by
  simp [intoMerged, and_assoc, eq_comm]

theorem mem_asMerged : t ∈ st.asMerged group merged ↔
    ∃ u ∈ st.transitions, u.target ∈ group ∧ u.label.isEps = false ∧ t = ⟨merged, u.label⟩ ∨
      u.target ∉ group ∧ t = u := by
  rw [asMerged, List.mem_filterMap]
  refine exists_congr fun u => and_congr_right ?_
  intro _
  split_ifs with hg he
  · simp [hg, he]
  · simp [hg, he, eq_comm (a := t)]
  · simp [hg, eq_comm (a := t)]

end State

namespace Automaton

variable {a : Automaton} {group : List Nat} {final : Bool} {p : Nat}

/-! ## Whether the group is final -/

theorem groupFinal_eq_ok (hlt : ∀ s ∈ group, s < a.size) :
    a.groupFinal group = .ok (group.any a.isFinalAt) := by
  induction group with
  | nil => rfl
  | cons s group ih =>
    obtain ⟨hs, hlt⟩ := List.forall_mem_cons.mp hlt
    rw [groupFinal, state_eq_ok hs, ih hlt, List.any_cons]
    show (if a.isFinalAt s then _ else _) = _
    cases a.isFinalAt s <;> rfl

/-! ## With the merged state -/

theorem size_addMerged (a : Automaton) (group : List Nat) (final : Bool) :
    (a.addMerged group final).size = a.size + 1 := by
  simp [addMerged, size]

theorem stateAt_addMerged_of_lt (hp : p < a.size) : (a.addMerged group final).stateAt p =
    if p ∈ group then a.stateAt p
    else ⟨a.isFinalAt p, (a.stateAt p).transitions ++ (a.stateAt p).intoMerged group a.size⟩ := by
  rw [isFinalAt, stateAt, addMerged, List.getD_eq_getElem?_getD, List.getElem?_append_left (by simpa),
    List.getElem?_mapIdx, List.getElem?_eq_getElem hp, stateAt_eq_get hp]
  rfl

theorem stateAt_addMerged_size : (a.addMerged group final).stateAt a.size =
    ⟨final, (a.states.mapIdx fun s st =>
      if s ∈ group then st.asMerged group a.size else []).flatten⟩ := by
  rw [stateAt, addMerged, List.getD_eq_getElem?_getD, List.getElem?_append_right (by simp [size]),
    List.length_mapIdx, ← size, Nat.sub_self]
  rfl

theorem mem_merged {t : Transition} : t ∈ ((a.addMerged group final).stateAt a.size).transitions ↔
    ∃ s ∈ group, t ∈ (a.stateAt s).asMerged group a.size := by
  simp only [stateAt_addMerged_size, List.mem_flatten, List.mem_mapIdx]
  constructor
  · intro h
    obtain ⟨l, ⟨s, hs, rfl⟩, ht⟩ := h
    split_ifs at ht with hg
    · exact ⟨s, hg, by rwa [stateAt_eq_get hs]⟩
    · cases ht
  · intro hx
    obtain ⟨s, hg, ht⟩ := hx
    obtain ⟨u, hu, -⟩ := State.mem_asMerged.mp ht
    have hs := lt_size_of_mem hu
    refine ⟨_, ⟨s, hs, rfl⟩, ?_⟩
    rw [if_pos hg]
    rwa [stateAt_eq_get hs] at ht

theorem lt_or_eq_of_lt_size_addMerged (h : p < (a.addMerged group final).size) :
    p < a.size ∨ p = a.size := by
  rw [size_addMerged] at h
  omega

/-- Every transition is one from before, perhaps into the merged state instead. -/
theorem mem_addMerged {t : Transition} (h : t ∈ ((a.addMerged group final).stateAt p).transitions) :
    ∃ s, ∃ u ∈ (a.stateAt s).transitions,
      t.label = u.label ∧ (t.target = u.target ∨ t.target = a.size) := by
  rcases lt_or_eq_of_lt_size_addMerged (lt_size_of_mem h) with hp | rfl
  · rw [stateAt_addMerged_of_lt hp] at h
    split_ifs at h
    · exact ⟨p, t, h, rfl, .inl rfl⟩
    · rcases List.mem_append.mp h with h | h
      · exact ⟨p, t, h, rfl, .inl rfl⟩
      · obtain ⟨u, hu, -, rfl⟩ := State.mem_intoMerged.mp h
        exact ⟨p, u, hu, rfl, .inr rfl⟩
  · obtain ⟨s, -, h⟩ := mem_merged.mp h
    obtain ⟨u, hu, ⟨-, -, rfl⟩ | ⟨-, rfl⟩⟩ := State.mem_asMerged.mp h
    · exact ⟨s, u, hu, rfl, .inr rfl⟩
    · exact ⟨s, t, hu, rfl, .inl rfl⟩

/-- An ε-transition inside the group is dropped; any other transition is kept, or moved
    to the merged state with the states that it joins. -/
theorem mem_addMerged_of_mem {t : Transition} (ht : t ∈ (a.stateAt p).transitions)
    (hloop : ¬(p ∈ group ∧ t.target ∈ group ∧ t.label.isEps)) :
    ⟨if t.target ∈ group then a.size else t.target, t.label⟩ ∈
      ((a.addMerged group final).stateAt (if p ∈ group then a.size else p)).transitions := by
  by_cases hp : p ∈ group
  · rw [if_pos hp]
    refine mem_merged.mpr ⟨p, hp, State.mem_asMerged.mpr ⟨t, ht, ?_⟩⟩
    split_ifs with htarget
    · exact .inl ⟨htarget, by simpa using fun e => hloop ⟨hp, htarget, e⟩, rfl⟩
    · exact .inr ⟨htarget, rfl⟩
  · rw [if_neg hp, stateAt_addMerged_of_lt (lt_size_of_mem ht), if_neg hp]
    apply List.mem_append.mpr
    split_ifs with htarget
    · exact .inr (State.mem_intoMerged.mpr ⟨t, ht, htarget, rfl⟩)
    · exact .inl ht

theorem isFinalAt_addMerged (hfinal : final = group.any a.isFinalAt) (h : a.isFinalAt p) :
    (a.addMerged group final).isFinalAt (if p ∈ group then a.size else p) := by
  rw [isFinalAt]
  split_ifs with hp
  · rw [stateAt_addMerged_size, hfinal]
    exact List.any_eq_true.mpr ⟨p, hp, h⟩
  · rw [stateAt_addMerged_of_lt (lt_size_of_isFinalAt h), if_neg hp]
    exact h

theorem wellFormed_addMerged (ha : a.WellFormed) : (a.addMerged group final).WellFormed := by
  refine .of_stateAt (.inl ?_) ha.epsilon_not_mem ?_
  · rw [size_addMerged]
    have : a.start ≤ a.size := by rcases ha.start_lt with h | ⟨-, h⟩ <;> omega
    simp only [addMerged]
    split_ifs <;> omega
  · intro p _ t ht
    obtain ⟨s, u, hu, hl, htarget⟩ := mem_addMerged ht
    have := ha.target_lt_of_mem hu
    rw [size_addMerged, hl]
    exact ⟨by omega, fun c => ha.letters_mem_of_mem hu⟩

/-! ## Words -/

/-- The words are those of the states from before, the merged state having the words
    that all of its group have. -/
theorem languageFrom_addMerged_le (ha : a.WellFormed) {l : Language Char}
    (hl : ∀ s ∈ group, a.languageFrom s = l) (hfinal : final = group.any a.isFinalAt) :
    ∀ p, (a.addMerged group final).languageFrom p ≤ if p = a.size then l else a.languageFrom p := by
  refine languageFrom_le fun p => State.reads_le_iff.mpr ⟨?_, ?_⟩
  · intro hf
    rcases lt_or_eq_of_lt_size_addMerged (lt_size_of_isFinalAt hf) with hp | rfl
    · rw [if_neg hp.ne]
      rw [stateAt_addMerged_of_lt hp] at hf
      split_ifs at hf <;> exact one_le_languageFrom hf
    · rw [if_pos rfl]
      rw [stateAt_addMerged_size] at hf
      obtain ⟨s, hs, h⟩ := List.any_eq_true.mp (hfinal.symm.trans hf)
      exact (one_le_languageFrom h).trans_eq (hl s hs)
  · intro t ht
    -- What a transition of `a` reads, it still reads when it leads to the merged state.
    have old {s : Nat} {u : Transition} (hu : u ∈ (a.stateAt s).transitions) :
        u.label.language * (if u.target = a.size then l else a.languageFrom u.target) ≤
          a.languageFrom s := by
      rw [if_neg (ha.target_lt_of_mem hu).ne]
      exact mul_le_languageFrom hu
    have moved {s : Nat} {u : Transition} (hu : u ∈ (a.stateAt s).transitions)
        (hg : u.target ∈ group) : u.label.language * l ≤ a.languageFrom s := by
      rw [← hl _ hg]
      exact mul_le_languageFrom hu
    rcases lt_or_eq_of_lt_size_addMerged (lt_size_of_mem ht) with hp | rfl
    · rw [if_neg hp.ne]
      rw [stateAt_addMerged_of_lt hp] at ht
      split_ifs at ht
      · exact old ht
      · rcases List.mem_append.mp ht with ht | ht
        · exact old ht
        · obtain ⟨u, hu, hg, rfl⟩ := State.mem_intoMerged.mp ht
          rw [if_pos rfl]
          exact moved (u := u) hu hg
    · obtain ⟨s, hs, ht⟩ := mem_merged.mp ht
      rw [if_pos rfl]
      refine le_of_le_of_eq ?_ (hl s hs)
      obtain ⟨u, hu, ⟨hg, -, rfl⟩ | ⟨-, rfl⟩⟩ := State.mem_asMerged.mp ht
      · rw [if_pos rfl]
        exact moved (u := u) hu hg
      · exact old hu

/-- Once the group is gone, a state has at least the words that it had, or that it
    had as one of the group. -/
theorem languageFrom_le_of_merged {b : Automaton} {gone : List Nat} {f : Nat → Nat}
    (hf : (a.addMerged group final).Restricts b gone f) (hgone : ∀ {s}, s ∈ gone ↔ s ∈ group)
    (hlt : ∀ s ∈ group, s < a.size) (hfinal : final = group.any a.isFinalAt) {p q : Nat}
    (h : f q = if p ∈ group then a.size else p) :
    a.languageFrom p ≤ b.languageFrom q := by
  -- The words that each state of `a` has in `b`.
  let Y p := Function.extend f b.languageFrom 0 (if p ∈ group then a.size else p)
  have hY {p q} (h : f q = if p ∈ group then a.size else p) : Y p = b.languageFrom q := by
    simp only [Y, ← h]
    exact hf.strictMono.injective.extend_apply ..
  have exists_eq (p) : ∃ q, f q = if p ∈ group then a.size else p := by
    rw [← hf.not_mem_gone_iff, hgone]
    split_ifs with h
    · exact fun hm => lt_irrefl _ (hlt _ hm)
    · exact h
  refine (languageFrom_le (X := Y) ?_ p).trans_eq (hY h)
  intro p
  obtain ⟨q, hq⟩ := exists_eq p
  rw [hY hq]
  refine State.reads_le_iff.mpr ⟨fun h => one_le_languageFrom ?_, ?_⟩
  · rw [hf.isFinalAt_eq, hq]
    exact isFinalAt_addMerged hfinal h
  · intro t ht
    obtain ⟨r, hr⟩ := exists_eq t.target
    rw [hY hr]
    by_cases hloop : p ∈ group ∧ t.target ∈ group ∧ t.label.isEps
    · rw [if_pos hloop.1] at hq
      rw [if_pos hloop.2.1] at hr
      rw [hf.strictMono.injective (hr.trans hq.symm), Regex.eq_eps_of_isEps hloop.2.2,
        Regex.language_eps, one_mul]
    · refine mul_le_languageFrom (t := ⟨r, t.label⟩) (hf.mem_transitions_iff.mpr ?_)
      rw [Transition.mapTarget, hr, hq]
      exact mem_addMerged_of_mem ht hloop

/-! ## Merging -/

theorem isSimple_addMerged (hs : a.isSimple) : (a.addMerged group final).isSimple := by
  apply isSimple_iff.mpr
  intro p t ht
  obtain ⟨s, u, hu, hl, -⟩ := mem_addMerged ht
  rw [hl]
  exact isSimple_iff.mp hs s u hu

theorem pairwise_mergeSort (hnodup : group.Nodup) :
    (group.mergeSort (· ≥ ·)).Pairwise (· > ·) := by
  have hsorted : (group.mergeSort (· ≥ ·)).Pairwise (· ≥ ·) :=
    List.pairwise_mergeSort' (· ≥ ·) group
  have hperm : (group.mergeSort (· ≥ ·)).Perm group := List.mergeSort_perm ..
  refine (hsorted.and (hperm.nodup_iff.mpr hnodup)).imp fun ⟨h, hne⟩ => ?_
  exact lt_of_le_of_ne h (Ne.symm hne)

theorem mergeGroup_eq_ok (ha : a.WellFormed) (hlt : ∀ s ∈ group, s < a.size) (hnodup : group.Nodup)
    {l : Language Char} (hl : ∀ s ∈ group, a.languageFrom s = l) (hpos : 0 < a.size) :
    ∃ b, a.mergeGroup group = .ok b ∧ b.WellFormed ∧ b.alphabet = a.alphabet ∧
      b.size + group.length = a.size + 1 ∧ b.language = a.language ∧ (a.isSimple → b.isSimple) := by
  let merged := a.addMerged group (group.any a.isFinalAt)
  let gone := group.mergeSort (· ≥ ·)
  have hperm : gone.Perm group := List.mergeSort_perm ..
  have hstart : merged.start = if a.start ∈ group then a.size else a.start := rfl
  have hmem : merged.start ∉ gone := by
    rw [hperm.mem_iff, hstart]
    split_ifs with h
    · exact fun hm => lt_irrefl _ (hlt _ hm)
    · exact h
  obtain ⟨b, f, hb, hf, hsize⟩ := removeStates_eq_ok (pairwise_mergeSort hnodup) (a := merged)
    (fun s hs => by
      have := hlt s (hperm.mem_iff.mp hs)
      rw [size_addMerged]
      omega) hmem
  rw [size_addMerged, hperm.length_eq] at hsize
  refine ⟨b, ?_, hf.wellFormed (wellFormed_addMerged ha), hf.alphabet_eq, hsize, ?_, ?_⟩
  · rw [mergeGroup, groupFinal_eq_ok hlt]
    exact hb
  · rw [language_eq_languageFrom, language_eq_languageFrom]
    refine le_antisymm ?_
      (languageFrom_le_of_merged hf hperm.mem_iff hlt rfl (hf.start_eq.trans hstart))
    refine (hf.languageFrom_le b.start).trans ((languageFrom_addMerged_le ha hl rfl _).trans ?_)
    rw [hf.start_eq, hstart]
    split_ifs with hm hm' hm'
    · exact (hl _ hm).ge
    · exact absurd rfl hm'
    · exact absurd hm' (ha.start_lt_of_pos hpos).ne
    · exact le_rfl
  · intro hs
    exact hf.isSimple (isSimple_addMerged hs)

end Automaton

/-! ## Bridges

Merging leaves out the ε-transitions within the group, and what the states of the group lead
to only stays with the state that replaces them. So it gives one result whether the bridges
are there or not (`mergeGroup_bridge`). Once they are, the states of the group have the same
words, and a group of such states may be merged. -/

/-- ε-transitions to the states of the group other than `s`. -/
def bridges (group : List Nat) (s : Nat) : List Transition :=
  (group.filter (· ≠ s)).map (⟨·, .eps⟩)

theorem mem_bridges {group : List Nat} {s : Nat} {t : Transition} :
    t ∈ bridges group s ↔ ∃ q ∈ group, q ≠ s ∧ t = ⟨q, .eps⟩ := by
  simp [bridges, and_assoc, eq_comm (a := t)]

namespace Automaton

/-- The automaton with an ε-transition from each state of the group to every other one. -/
def bridge (a : Automaton) (group : List Nat) : Automaton :=
  { a with states := a.states.mapIdx fun s st =>
      if s ∈ group then { st with transitions := st.transitions ++ bridges group s } else st }

variable {a : Automaton} {group : List Nat} {p q : Nat}

theorem size_bridge (a : Automaton) (group : List Nat) : (a.bridge group).size = a.size := by
  simp [bridge, size]

theorem stateAt_bridge (hp : p < a.size) : (a.bridge group).stateAt p =
    if p ∈ group then ⟨a.isFinalAt p, (a.stateAt p).transitions ++ bridges group p⟩
    else a.stateAt p := by
  rw [isFinalAt, stateAt, bridge, List.getD_eq_getElem?_getD, List.getElem?_mapIdx,
    List.getElem?_eq_getElem hp, stateAt_eq_get hp]
  rfl

/-- Nothing changes outside the group. -/
theorem stateAt_bridge_of_not_mem (hp : p ∉ group) : (a.bridge group).stateAt p = a.stateAt p := by
  by_cases hlt : p < a.size
  · rw [stateAt_bridge hlt, if_neg hp]
  · have hle := Nat.not_lt.mp hlt
    rw [stateAt_of_size_le (size_bridge a group ▸ hle), stateAt_of_size_le hle]

theorem isFinalAt_bridge (a : Automaton) (group : List Nat) :
    (a.bridge group).isFinalAt = a.isFinalAt := by
  funext p
  by_cases hp : p < a.size
  · rw [isFinalAt, stateAt_bridge hp]
    split_ifs <;> rfl
  · have hle := Nat.not_lt.mp hp
    rw [isFinalAt, isFinalAt, stateAt_of_size_le (size_bridge a group ▸ hle), stateAt_of_size_le hle]

theorem wellFormed_bridge (ha : a.WellFormed) (hlt : ∀ s ∈ group, s < a.size) :
    (a.bridge group).WellFormed := by
  refine .of_stateAt ?_ ha.epsilon_not_mem ?_
  · rw [size_bridge]
    refine ha.start_lt.imp_right fun h => ⟨?_, h.2⟩
    simp [bridge, h.1]
  · intro p hp t ht
    rw [size_bridge] at hp ⊢
    rw [stateAt_bridge hp] at ht
    split_ifs at ht
    · rcases List.mem_append.mp ht with ht | ht
      · exact ⟨ha.target_lt_of_mem ht, fun c => ha.letters_mem_of_mem ht⟩
      · obtain ⟨q, hq, -, rfl⟩ := mem_bridges.mp ht
        exact ⟨hlt q hq, fun c hc => by simp [Regex.eps] at hc⟩
    · exact ⟨ha.target_lt_of_mem ht, fun c => ha.letters_mem_of_mem ht⟩

theorem languageFrom_bridge_le (hlt : ∀ s ∈ group, s < a.size) (hp : p ∈ group) (hq : q ∈ group) :
    (a.bridge group).languageFrom q ≤ (a.bridge group).languageFrom p := by
  by_cases hne : q = p
  · rw [hne]
  · apply languageFrom_le_of_epsilon
    rw [State.mem_epsilonTargets, stateAt_bridge (hlt p hp), if_pos hp]
    exact ⟨⟨q, .eps⟩, List.mem_append_right _ (mem_bridges.mpr ⟨q, hq, hne, rfl⟩), rfl, rfl⟩

/-! ## Merging what is bridged -/

theorem asMerged_bridges {s merged : Nat} (st : State) :
    State.asMerged { st with transitions := st.transitions ++ bridges group s } group merged =
      st.asMerged group merged := by
  have hnone : (bridges group s).filterMap (fun t => if t.target ∈ group then
      if t.label.isEps then none else some { t with target := merged } else some t) = [] := by
    rw [List.filterMap_eq_nil_iff]
    intro t ht
    obtain ⟨q, hq, -, rfl⟩ := mem_bridges.mp ht
    rw [if_pos hq, if_pos Regex.isEps_eps]
  rw [State.asMerged, List.filterMap_append, hnone, List.append_nil]
  rfl

theorem stateAt_addMerged_bridge {final : Bool} (hp : p ∉ group) :
    ((a.bridge group).addMerged group final).stateAt p = (a.addMerged group final).stateAt p := by
  rcases lt_trichotomy p a.size with hlt | rfl | hgt
  · rw [stateAt_addMerged_of_lt (size_bridge a group ▸ hlt), stateAt_addMerged_of_lt hlt, if_neg hp,
      if_neg hp, stateAt_bridge_of_not_mem hp, isFinalAt_bridge, size_bridge]
  · have hrows : (a.bridge group).states.mapIdx (fun s st =>
        if s ∈ group then st.asMerged group a.size else []) =
          a.states.mapIdx fun s st => if s ∈ group then st.asMerged group a.size else [] := by
      rw [bridge, List.mapIdx_mapIdx]
      refine congrArg (List.mapIdx · a.states) (funext fun s => funext fun st => ?_)
      simp only [Function.comp_apply]
      split_ifs
      · exact asMerged_bridges st
      · rfl
    have hbridged : ((a.bridge group).addMerged group final).stateAt (a.bridge group).size = _ :=
      stateAt_addMerged_size
    rw [size_bridge, hrows] at hbridged
    rw [hbridged, stateAt_addMerged_size]
  · have hsize := size_addMerged a group final
    have hsize' := size_addMerged (a.bridge group) group final
    rw [size_bridge] at hsize'
    rw [stateAt_of_size_le (by omega), stateAt_of_size_le (by omega)]

/-- Merging does not see whether the bridges are there. -/
theorem mergeGroup_bridge (hlt : ∀ s ∈ group, s < a.size) (hnodup : group.Nodup) :
    (a.bridge group).mergeGroup group = a.mergeGroup group := by
  have hlt' : ∀ s ∈ group, s < (a.bridge group).size := by
    rw [size_bridge]
    exact hlt
  rw [mergeGroup, mergeGroup, groupFinal_eq_ok hlt', groupFinal_eq_ok hlt, isFinalAt_bridge]
  refine removeStates_congr (pairwise_mergeSort hnodup) ?_ ?_ rfl ?_
  · rw [size_addMerged, size_addMerged, size_bridge]
  · simp only [addMerged, size_bridge]
    rfl
  · intro p hp
    exact stateAt_addMerged_bridge fun hm => hp (List.mem_mergeSort.mpr hm)

/-- Merging the states of a group leaves one of them, and the words are those of the
    automaton with an ε-transition from each state of the group to every other one. So
    they stay as they are if the states of the group reach one another by ε-transitions. -/
theorem mergeGroup_exact (ha : a.WellFormed) (hne : group ≠ []) (hnodup : group.Nodup)
    (hlt : ∀ s ∈ group, s < a.size) :
    ∃ b, a.mergeGroup group = .ok b ∧ b.WellFormed ∧ b.size + (group.length - 1) = a.size ∧
      b.alphabet = a.alphabet ∧ b.language = (a.bridge group).language ∧
      ((∀ p ∈ group, ∀ q ∈ group, a.EpsilonPath p q) → b.language = a.language) := by
  obtain ⟨s, hs⟩ := List.exists_mem_of_ne_nil group hne
  have hpos : 0 < a.size := Nat.zero_lt_of_lt (hlt s hs)
  have hlen := List.length_pos_of_mem hs
  have hsame : ∀ p ∈ group, (a.bridge group).languageFrom p = (a.bridge group).languageFrom s :=
    fun p hp => le_antisymm (languageFrom_bridge_le hlt hs hp) (languageFrom_bridge_le hlt hp hs)
  obtain ⟨b, hb, hwf, hal, hsize, hl, -⟩ := mergeGroup_eq_ok (wellFormed_bridge ha hlt)
    (by rwa [size_bridge]) hnodup hsame (by rwa [size_bridge])
  rw [mergeGroup_bridge hlt hnodup] at hb
  rw [size_bridge] at hsize
  refine ⟨b, hb, hwf, by omega, hal, hl, ?_⟩
  intro hpath
  have hequal : ∀ p ∈ group, a.languageFrom p = a.languageFrom s := fun p hp =>
    le_antisymm (hpath s hs p hp).languageFrom_le (hpath p hp s hs).languageFrom_le
  obtain ⟨c, hc, -, -, -, hl', -⟩ := mergeGroup_eq_ok ha hlt hnodup hequal hpos
  cases hc.symm.trans hb
  exact hl'

/-- The group is the only final state and the start, in this order. From the start,
    ε-transitions lead back through a state that is not in the group. -/
theorem mergeGroup_exact_scattered :
    let a : Automaton := ⟨[
      ⟨false, [⟨3, .concat [.char 'a', .char 'b']⟩, ⟨1, .char 'a'⟩]⟩,
      ⟨false, [⟨2, .eps⟩, ⟨1, .star (.char 'b')⟩, ⟨0, .char 'a'⟩]⟩,
      ⟨false, [⟨3, .eps⟩, ⟨1, .char 'b'⟩]⟩,
      ⟨true, [⟨1, .eps⟩, ⟨4, .char 'b'⟩, ⟨1, .char 'a'⟩]⟩,
      ⟨false, [⟨0, .eps⟩, ⟨4, .char 'a'⟩]⟩], 1, .ofList ['a', 'b']⟩
    a.WellFormed ∧ [3, 1] ≠ [] ∧ [3, 1].Nodup ∧ (∀ s ∈ [3, 1], s < a.size) ∧
      (∀ p ∈ [3, 1], ∀ q ∈ [3, 1], a.EpsilonPath p q) ∧
      ∃ b, a.mergeGroup [3, 1] = .ok b ∧ b.size = 4 ∧
        b.language = (a.bridge [3, 1]).language ∧ b.language = a.language := by
  intro a
  have ha : a.WellFormed := ⟨by decide, .inl (by decide), by decide, by
    simp [a, Regex.eps, epsilon]⟩
  have hthree : a.EpsilonPath 3 1 := .single (by decide)
  have hone : a.EpsilonPath 1 3 := .head (b := 2) (by decide) (.single (by decide))
  have hpath : ∀ p ∈ [3, 1], ∀ q ∈ [3, 1], a.EpsilonPath p q := by
    simp only [List.forall_mem_cons, List.not_mem_nil, false_implies, implies_true, and_true]
    exact ⟨⟨.refl, hthree⟩, hone, .refl⟩
  have hlt : ∀ s ∈ [3, 1], s < a.size := by decide
  obtain ⟨b, hb, -, hsize, -, hbridge, hkept⟩ := mergeGroup_exact ha (by decide) (by decide) hlt
  exact ⟨ha, by decide, by decide, hlt, hpath, b, hb, Nat.succ.inj hsize, hbridge, hkept hpath⟩

end Automaton

end RegularLang
