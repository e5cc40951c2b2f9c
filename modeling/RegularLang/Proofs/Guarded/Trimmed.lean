/-
  RegularLang.Proofs.Guarded.Trimmed — cutting an automaton down to what can be
  reached, completing it and inverting it meet nothing unexpected (`optimize_eq`,
  `complete_eq`, `invert_eq_ok`).
-/

import RegularLang.Proofs.Automaton.Completed
import RegularLang.Proofs.Automaton.Trimmed
import RegularLang.Proofs.Guarded.Simplified

namespace RegularLang.Guarded

open Automaton

variable {a : Automaton} {s p : Nat}

/-! ## Optimizing -/

theorem dropZeros_eq_ok (a : Automaton) : dropZeros a = .ok a.dropZeros := by
  refine forStates_eq_ok fun b hb s hs => ?_
  rw [bind_of_eq_ok (guard_state_eq_ok (hb ▸ hs))]
  rfl

theorem targets_eq_ok (ha : a.WellFormed) (hs : s < a.size) :
    targets a s = .ok (a.stateAt s).targets := by
  rw [targets, bind_of_eq_ok (guard_state_eq_ok hs)]
  exact mapM_index fun q hq => target_lt ha hq

theorem reached_eq_ok (ha : a.WellFormed) (hpos : 0 < a.size) :
    reached a = .ok (a.reachableFrom a.start) := by
  have hstart := ha.start_lt_of_pos hpos
  rw [reached, if_neg (isEmpty_states_iff.not.mpr hpos.ne'), bind_of_eq_ok (index_of_lt hstart), reachableFrom,
    table_stateAt]
  refine explore_eq_ok (P := (· < a.size)) ?_ (fun s => targets_eq_ok ha)
    (fun s _ q hq => target_lt ha hq) length_le_of_nodup_lt
  exact fun q hq => List.mem_singleton.mp hq ▸ hstart

theorem dropUnreachable_eq (ha : a.WellFormed) : dropUnreachable a = a.dropUnreachable.guard := by
  rcases Nat.eq_zero_or_pos a.size with hzero | hpos
  · have hempty : a.states = [] := List.length_eq_zero_iff.mp hzero
    rw [dropUnreachable, reached, hempty, Automaton.dropUnreachable, hzero]
    rfl
  · rw [dropUnreachable, bind_of_eq_ok (reached_eq_ok ha hpos)]
    rfl

theorem optimize_eq (ha : a.WellFormed) : optimize a = a.trim.guard := by
  rw [optimize, bind_of_eq_ok (dropZeros_eq_ok a)]
  exact dropUnreachable_eq (wellFormed_dropZeros ha)

/-! ## Completing -/

theorem without_eq_self {st : State} (h : ∀ t ∈ st.transitions, t.target < s) :
    st.without s = st := by
  have hkept : st.transitions.filter (·.target ≠ s) = st.transitions :=
    List.filter_eq_self.mpr fun t ht => decide_eq_true (Nat.ne_of_lt (h t ht))
  have hlower : ∀ t ∈ st.transitions, ({ t with target := lower s t.target } : Transition) = t := by
    intro t ht
    rw [lower, if_neg (Nat.not_lt.mpr (Nat.le_of_lt (h t ht)))]
  rw [State.without, hkept, List.map_congr_left hlower, List.map_id']

/-- A state that nothing leads to comes and goes. -/
theorem removeState_addState (ha : a.WellFormed) (hpos : 0 < a.size) (final : Bool) :
    (a.addState final).removeState a.size = .ok a := by
  have hstart := ha.start_lt_of_pos hpos
  have hlt : a.size < (a.addState final).size := by simp
  rw [removeState_eq_ok hlt hstart.ne']
  have hsize := size_without hlt
  rw [size_addState] at hsize
  refine congrArg Except.ok (eq_of_stateAt (Nat.succ.inj hsize) ?_ rfl ?_)
  · exact if_neg (Nat.not_lt.mpr hstart.le)
  · intro p hp
    have hp : p < a.size := by omega
    rw [stateAt_without, raise, if_pos hp, stateAt_addState, if_neg hp.ne]
    exact without_eq_self fun t ht => ha.target_lt_of_mem ht

/-- The state has no transition on some letter. -/
def lacks (letters : Alphabet) (st : State) : Bool :=
  letters.toList.any fun c => (st.find? c).isNone

theorem lacks_eq_false_iff {letters : Alphabet} {st : State} :
    lacks letters st = false ↔ st.missing letters = [] := by
  rw [lacks, List.any_eq_false, State.missing, List.filter_eq_nil_iff]

/-- The state with a transition to the trap on each of the letters that it is without. -/
def fillWith (trap : Nat) (cs : List Char) (st : State) : State :=
  { st with transitions := st.transitions ++ linksTo trap (cs.filter fun c => (st.find? c).isNone) }

section

variable {st : State} {b : Automaton} {trap : Nat} {c : Char} {cs : List Char} {l : List Nat}

theorem find?_link_of_ne {d : Char} (h : d ≠ c) :
    ((st.link trap (.char c)).find? d).isNone = (st.find? d).isNone := by
  have hiff : ((st.link trap (.char c)).find? d).isSome ↔ (st.find? d).isSome := by
    simp [State.isSome_find?_iff, State.link, or_and_right, exists_or, h.symm]
  rw [Bool.eq_iff_iff, ← Option.not_isSome, ← Option.not_isSome, Bool.not_eq_true',
    Bool.not_eq_true', ← Bool.not_eq_true, ← Bool.not_eq_true, hiff]

theorem fillWith_cons_of_isSome (h : (st.find? c).isSome) :
    fillWith trap (c :: cs) st = fillWith trap cs st := by
  have hnone : (st.find? c).isNone = false := by simpa using h
  rw [fillWith, List.filter_cons_of_neg (p := fun d => (st.find? d).isNone)
    (ne_true_of_eq_false hnone)]
  rfl

/-- The transition on one letter makes no difference for the others. -/
theorem fillWith_cons_of_isNone (h : (st.find? c).isNone) (hc : c ∉ cs) :
    fillWith trap (c :: cs) st = fillWith trap cs (st.link trap (.char c)) := by
  have hfilter : cs.filter (fun d => ((st.link trap (.char c)).find? d).isNone) =
      cs.filter fun d => (st.find? d).isNone :=
    List.filter_congr fun d hd => find?_link_of_ne fun e => hc (e ▸ hd)
  rw [fillWith, fillWith, hfilter, List.filter_cons_of_pos (p := fun d => (st.find? d).isNone) h,
    State.link, List.append_assoc]
  rfl

theorem modifyState_congr {f g : State → State} (hs : s < b.size)
    (h : f (b.stateAt s) = g (b.stateAt s)) : b.modifyState s f = b.modifyState s g := by
  refine eq_of_stateAt (by simp) rfl rfl fun p _ => ?_
  rw [stateAt_modifyState hs, stateAt_modifyState hs, h]

theorem modifyState_link {f : State → State} (hs : s < b.size) (label : Regex) :
    (b.link s trap label).modifyState s f = b.modifyState s fun st => f (st.link trap label) := by
  refine eq_of_stateAt (by simp) rfl rfl fun p _ => ?_
  rw [stateAt_modifyState (by simpa), stateAt_modifyState hs, stateAt_link hs, stateAt_link hs,
    if_pos rfl]
  split_ifs <;> rfl

/-- All letters in turn, at one state. -/
theorem foldlM_fillLetter (hs : s < b.size) (htrap : trap < b.size) (hcs : ∀ c ∈ cs, c ∈ b.alphabet)
    (hnodup : cs.Nodup) (used : Bool) :
    cs.foldlM (fillLetter trap s) (b, used) = .ok (b.modifyState s (fillWith trap cs),
      used || cs.any fun c => ((b.stateAt s).find? c).isNone) := by
  induction cs generalizing b used with
  | nil =>
    have hsame : b.modifyState s (fillWith trap []) = b := by
      refine eq_of_stateAt (by simp) rfl rfl fun p _ => ?_
      rw [stateAt_modifyState hs]
      split_ifs with h
      · rw [h, fillWith, List.filter_nil, linksTo, List.map_nil, List.append_nil]
      · rfl
    rw [hsame, List.any_nil, Bool.or_false]
    rfl
  | cons c cs ih =>
    obtain ⟨hc, hcs⟩ := List.forall_mem_cons.mp hcs
    obtain ⟨hnew, hnodup⟩ := List.nodup_cons.mp hnodup
    rw [List.foldlM_cons, List.any_cons]
    cases hfind : ((b.stateAt s).find? c).isNone with
    | false =>
      have hsome : ((b.stateAt s).find? c).isSome := by simpa using hfind
      have hletter : fillLetter trap s (b, used) c = .ok (b, used) := by
        rw [fillLetter, bind_of_eq_ok (guard_state_eq_ok hs), if_pos hsome]
        rfl
      rw [bind_of_eq_ok hletter, ih hs htrap hcs hnodup,
        modifyState_congr hs (fillWith_cons_of_isSome hsome), Bool.false_or]
    | true =>
      have hnone : ¬((b.stateAt s).find? c).isSome := by simpa using hfind
      have hfits : State.Fits b.size b.alphabet ⟨trap, .char c⟩ := by
        refine ⟨htrap, fun d hd => ?_⟩
        rw [Regex.letters_char] at hd
        split_ifs at hd
        · cases hd
        · exact List.mem_singleton.mp hd ▸ hc
      have hletter : fillLetter trap s (b, used) c = .ok (b.link s trap (.char c), true) := by
        rw [fillLetter, bind_of_eq_ok (guard_state_eq_ok hs), if_neg hnone,
          bind_of_eq_ok (Checked.guard_eq_ok (addTransition_of_fits hs hfits))]
        rfl
      have hsize : (b.link s trap (.char c)).size = b.size := size_link ..
      have hrest := ih (b := b.link s trap (.char c)) (hsize.symm ▸ hs) (hsize.symm ▸ htrap) hcs
        hnodup true
      rw [bind_of_eq_ok hletter, hrest,
        modifyState_link hs, modifyState_congr hs (fillWith_cons_of_isNone hfind hnew).symm,
        Bool.true_or, Bool.true_or, Bool.or_true]

/-- All states in turn. What is done to the others before makes no difference to a state. -/
theorem foldlM_fillState (hl : ∀ s ∈ l, s < b.size) (htrap : trap < b.size) (hnodup : l.Nodup)
    (used : Bool) :
    l.foldlM (fillState b.alphabet trap) (b, used) = .ok (mapAt b (fill b.alphabet trap) l,
      used || l.any fun s => lacks b.alphabet (b.stateAt s)) := by
  induction l generalizing b used with
  | nil =>
    rw [mapAt_nil, List.any_nil, Bool.or_false]
    rfl
  | cons s l ih =>
    obtain ⟨hs, hl⟩ := List.forall_mem_cons.mp hl
    obtain ⟨hnew, hnodup⟩ := List.nodup_cons.mp hnodup
    let next := b.modifyState s (fill b.alphabet trap)
    have hsize : next.size = b.size := size_modifyState ..
    have hstate : fillState b.alphabet trap (b, used) s =
        .ok (next, used || lacks b.alphabet (b.stateAt s)) :=
      foldlM_fillLetter hs htrap (fun c hc => hc) b.alphabet.nodup_toList used
    have hrest : l.any (fun p => lacks b.alphabet (next.stateAt p)) =
        l.any fun p => lacks b.alphabet (b.stateAt p) := by
      rw [Bool.eq_iff_iff, List.any_eq_true, List.any_eq_true]
      refine exists_congr fun p => and_congr_right fun hp => ?_
      have hne : p ≠ s := fun e => hnew (e ▸ hp)
      rw [stateAt_modifyState hs, if_neg hne]
    have hfold := ih (b := next) (fun p hp => hsize.symm ▸ hl p hp) (hsize.symm ▸ htrap) hnodup
      (used || lacks b.alphabet (b.stateAt s))
    rw [List.foldlM_cons, bind_of_eq_ok hstate, List.any_cons, ← Bool.or_assoc, ← hrest,
      ← mapAt_modifyState hs hnew]
    exact hfold

end

/-- All states in front of the trap have been filled. -/
def filled (a : Automaton) : Automaton :=
  mapAt (a.addState false) (fill a.alphabet a.size) (List.range a.size)

theorem size_filled (a : Automaton) : (filled a).size = a.size + 1 := by
  rw [filled, size_mapAt, size_addState]

theorem stateAt_filled (hp : p < a.size) :
    (filled a).stateAt p = fill a.alphabet a.size (a.stateAt p) := by
  have hlt : p < (a.addState false).size := by
    rw [size_addState]
    exact Nat.lt_succ_of_lt hp
  rw [filled, stateAt_mapAt hlt, if_pos (List.mem_range.mpr hp), stateAt_addState, if_neg hp.ne]

theorem stateAt_filled_trap (a : Automaton) : (filled a).stateAt a.size = ⟨false, []⟩ := by
  have hlt : a.size < (a.addState false).size := by
    rw [size_addState]
    exact Nat.lt_succ_self _
  rw [filled, stateAt_mapAt hlt, if_neg (List.not_mem_range_self), stateAt_addState, if_pos rfl]

theorem foldlM_filled (a : Automaton) :
    (List.range a.size).foldlM (fillState a.alphabet a.size) (a.addState false, false) =
      .ok (filled a, (List.range a.size).any fun s => lacks a.alphabet (a.stateAt s)) := by
  have hlt : ∀ s < a.size + 1, s < (a.addState false).size := fun s hs => by rwa [size_addState]
  have hrange : ∀ s ∈ List.range a.size, s < (a.addState false).size :=
    fun s hs => hlt s (Nat.lt_succ_of_lt (List.mem_range.mp hs))
  have hfold := foldlM_fillState hrange (hlt a.size (Nat.lt_succ_self _)) List.nodup_range false
  refine hfold.trans (congrArg (fun used => Except.ok (filled a, used)) ?_)
  rw [Bool.false_or, Bool.eq_iff_iff, List.any_eq_true, List.any_eq_true]
  refine exists_congr fun s => and_congr_right fun hs => ?_
  rw [stateAt_addState, if_neg (List.mem_range.mp hs).ne]
  rfl

/-- The transitions of the trap make the completed automaton. -/
theorem addTransitions_trap (ha : a.WellFormed) (hsize : a.completed.size = a.size + 1) :
    addTransitions (filled a) ((linksTo a.size a.alphabet.toList).map fun t => (a.size, t)) =
      .ok a.completed := by
  rw [addTransitions_eq_of_rows (wellFormed_completed ha) (hsize.trans (size_filled a).symm)
    (alphabet_completed a)]
  · exact congrArg Except.ok (eq_of_stateAt rfl (start_completed a).symm rfl fun _ _ => rfl)
  · intro t ht
    obtain ⟨u, -, rfl⟩ := List.mem_map.mp ht
    exact (size_filled a).symm ▸ Nat.lt_succ_self _
  · intro p hp
    rw [size_filled] at hp
    rw [stateAt_completed (hsize.symm ▸ hp), outOf_map]
    rcases Nat.lt_succ_iff_lt_or_eq.mp hp with hp | rfl
    · rw [stateAt_filled hp, if_neg hp.ne', List.append_nil]
    · rw [stateAt_filled_trap, stateAt_of_size_le le_rfl, fill_dead, if_pos rfl]
      rfl

theorem addTrap_eq_ok (ha : a.WellFormed) (hpos : 0 < a.size) : addTrap a = .ok a.completed := by
  rw [addTrap, bind_of_eq_ok (foldlM_filled a)]
  rcases completed_cases a with ⟨hall, hsame⟩ | ⟨⟨p, hp, hm⟩, hsize⟩
  · have hunused : ((List.range a.size).any fun s => lacks a.alphabet (a.stateAt s)) = false :=
      List.any_eq_false.mpr fun s hs =>
        ne_true_of_eq_false (lacks_eq_false_iff.mpr (hall s (List.mem_range.mp hs)))
    have hfilled : filled a = a.addState false := by
      refine eq_of_stateAt (by rw [size_filled, size_addState]) rfl rfl fun p hp => ?_
      rw [size_filled] at hp
      rw [stateAt_addState]
      rcases Nat.lt_succ_iff_lt_or_eq.mp hp with hp | rfl
      · rw [stateAt_filled hp, fill_of_missing_eq_nil (hall p hp), if_neg hp.ne]
      · rw [stateAt_filled_trap, if_pos rfl]
    rw [hunused, hfilled, hsame]
    exact Checked.guard_eq_ok (removeState_addState ha hpos false)
  · have hused : ((List.range a.size).any fun s => lacks a.alphabet (a.stateAt s)) = true := by
      refine List.any_eq_true.mpr ⟨p, List.mem_range.mpr hp, Bool.eq_true_of_not_eq_false fun h => ?_⟩
      exact hm (lacks_eq_false_iff.mp h)
    rw [hused]
    exact addTransitions_trap ha hsize

theorem complete_eq (ha : a.WellFormed) : complete a = a.complete.guard := by
  by_cases hsimple : a.isSimple
  · rw [complete, bind_of_eq_ok (require_of_true hsimple _), Automaton.complete, if_pos hsimple]
    rcases Nat.eq_zero_or_pos a.size with hzero | hpos
    · have hempty : a.states = [] := List.length_eq_zero_iff.mp hzero
      rw [hempty, completed, hempty]
      rfl
    · rw [if_neg (isEmpty_states_iff.not.mpr hpos.ne'), bind_of_eq_ok (addTrap_eq_ok ha hpos),
        bind_of_eq_ok (ensure_of_true (isComplete_completed hsimple))]
      rfl
  · rw [complete, require_of_false (Bool.eq_false_of_not_eq_true hsimple), Automaton.complete,
      if_neg hsimple]
    rfl

/-! ## Inverting -/

theorem invert_eq_ok (a : Automaton) : invert a = .ok a.inverted := by
  refine forStates_eq_ok fun b hb s hs => ?_
  have hs : s < b.size := hb ▸ hs
  rw [bind_of_eq_ok (guard_state_eq_ok hs), setFinal_eq_ok hs]
  refine congrArg Except.ok (eq_of_stateAt (by simp) rfl rfl fun p _ => ?_)
  rw [stateAt_modifyState hs, stateAt_modifyState hs]

end RegularLang.Guarded
