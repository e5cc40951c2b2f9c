/-
  RegularLang.Proofs.Guarded.Walked — reading a word meets nothing unexpected
  (`accepts_eq_ok`), nor does the walk along one letter (`walk_eq_ok`), which ends where as
  many single steps do (`walk_exact`).

  The table of the walk says of the states on the trail where they stand, and of all
  others nothing (`Walking`). So a state that was met before stands on the trail: the
  round that the walk has made since is not empty. And a walk along new states ends,
  since there are only so many states.
-/

import RegularLang.Guarded.Pipelines
import RegularLang.Proofs.Automaton.Distance
import RegularLang.Proofs.Guarded.Determinized
import RegularLang.Proofs.Guarded.Simplified
import RegularLang.Proofs.Suffix

namespace RegularLang.Guarded

open Automaton

variable {a : Automaton} {S : StateSet} {states : List Nat}

/-! ## Reading a word

The states that are active exist. -/

theorem closure_eq_ok (ha : a.WellFormed) (hlt : ∀ s ∈ states, s < a.size) :
    closure a states = .ok (a.table.closure states) := by
  have hexplore : explore (fun s => do return (← (a.state s).guard).epsilonTargets) a.size states =
      .ok (RegularLang.explore (fun s => (a.stateAt s).epsilonTargets) a.size states) := by
    refine explore_eq_ok (P := (· < a.size)) hlt ?_ (fun s _ q => epsilonTarget_lt ha)
      length_le_of_nodup_lt
    intro s hs
    rw [bind_of_eq_ok (guard_state_eq_ok hs)]
    rfl
  rw [closure, bind_of_eq_ok hexplore, StateTable.closure, table_stateAt, table_size]
  rfl

theorem lt_size_of_mem_closure (ha : a.WellFormed) (hlt : ∀ s ∈ states, s < a.size) :
    ∀ s ∈ a.table.closure states, s < a.size := by
  intro s hs
  obtain ⟨p, hp, hpath⟩ := (mem_closure_iff ha hlt).mp hs
  cases hpath with
  | refl => exact hlt s hp
  | tail _ hs => exact epsilonTarget_lt ha hs

theorem reads_eq_ok (ha : a.WellFormed) (w : List Char) (hS : ∀ s ∈ S, s < a.size) :
    reads a w S = .ok (a.table.anyFinal (w.foldl a.table.advance S)) := by
  induction w generalizing S with
  | nil =>
    rw [reads, groupFinal_eq_ok hS, List.foldl_nil, StateTable.anyFinal, table_stateAt]
    rfl
  | cons c w ih =>
    have hnext : ∀ s ∈ a.table.successors S c, s < a.size := by
      intro s hs
      obtain ⟨p, -, hp⟩ := mem_successors_iff.mp hs
      exact letterTarget_lt ha hp
    rw [reads, bind_of_eq_ok (successors_eq_ok hS c), List.foldl_cons]
    split_ifs with hnone
    · -- Reading stops, and reading on would end with no state.
      have hempty : a.table.advance S c = .empty := by
        rw [StateTable.advance, List.isEmpty_iff.mp hnone]
        exact foldl_advance_empty a.table [c]
      rw [hempty, foldl_advance_empty]
      rfl
    · rw [bind_of_eq_ok (closure_eq_ok ha hnext)]
      exact ih (lt_size_of_mem_closure ha hnext)

/-- The guarded reading from the start. -/
theorem simulate_eq_ok (ha : a.WellFormed) (w : List Char) :
    (if a.states.isEmpty then .ok false else closure a [a.start] >>= reads a w) =
      .ok (a.simulate w) := by
  split_ifs with hnone
  · rw [simulate_of_size_eq_zero (isEmpty_states_iff.mp hnone)]
  · have hpos : 0 < a.size := Nat.pos_of_ne_zero fun h => hnone (isEmpty_states_iff.mpr h)
    have hstart : ∀ s ∈ [a.start], s < a.size := by
      simpa using ha.start_lt_of_pos hpos
    rw [bind_of_eq_ok (closure_eq_ok ha hstart), reads_eq_ok ha w (lt_size_of_mem_closure ha hstart)]
    rfl

theorem accepts_eq_ok (ha : a.WellFormed) (w : List Char) : accepts a w = .ok (a.accepts w) := by
  rw [accepts]
  split_ifs with hs
  · rw [accepts_eq_simulate hs]
    exact simulate_eq_ok ha w
  · rw [bind_of_eq_ok (simplify_eq_ok ha)]
    exact simulate_eq_ok (extends_simplified ha).wellFormed w

variable {c : Char} {s k n steps first next : Nat} {firstSeen : List (Option Nat)}
  {trail : IndexedSet Nat}

/-! ## Steps -/

theorem step?_eq_ok (hs : s < a.size) (c : Char) : step? a s c = .ok (a.step? s c) := by
  rw [step?, bind_of_eq_ok (guard_state_eq_ok hs)]
  rfl

theorem stepTimes_eq_ok (ha : a.WellFormed) (hs : s < a.size) (c : Char) (k : Nat) :
    stepTimes a c k s = .ok (a.table.stepTimes c k s) := by
  induction k generalizing s with
  | zero => rfl
  | succ k ih =>
    rw [stepTimes, bind_of_eq_ok (step?_eq_ok hs c), StateTable.stepTimes, table_step?]
    cases hq : a.step? s c with
    | none => rfl
    | some q => exact ih (step?_lt_size ha hq)

theorem walkN_of_le (h : k ≤ steps) : walkN a c k n firstSeen s steps = .ok (some s) := by
  rw [walkN, if_pos h]
  rfl

theorem walkN_of_seen (h : steps < k) (hs : firstSeen[s]? = some (some first))
    (hfirst : first < steps) : walkN a c k n firstSeen s steps =
      stepTimes a c ((k - steps) % (steps - first)) s := by
  rw [walkN, if_neg (Nat.not_le.mpr h), bind_of_eq_ok (lookUp_eq_ok hs)]
  show (minus steps first >>= _) = _
  rw [bind_of_eq_ok (minus_of_le hfirst.le), bind_of_eq_ok (minus_of_le h.le),
    bind_of_eq_ok (remainder_of_pos (Nat.sub_pos_of_lt hfirst))]

theorem walkN_of_stuck (h : steps < k) (hs : firstSeen[s]? = some none)
    (hstep : step? a s c = .ok none) : walkN a c k n firstSeen s steps = .ok none := by
  rw [walkN, if_neg (Nat.not_le.mpr h), bind_of_eq_ok (lookUp_eq_ok hs)]
  show (step? a s c >>= _) = _
  rw [bind_of_eq_ok hstep]
  rfl

theorem walkN_of_step (h : steps < k) (hk : k < lengthBound) (hs : firstSeen[s]? = some none)
    (hstep : step? a s c = .ok (some next)) : walkN a c k (n + 1) firstSeen s steps =
      walkN a c k n (firstSeen.set s (some steps)) next (steps + 1) := by
  have hsum : increment steps = .ok (steps + 1) := if_pos (Nat.lt_of_le_of_lt h hk)
  rw [walkN, if_neg (Nat.not_le.mpr h), bind_of_eq_ok (lookUp_eq_ok hs)]
  show (step? a s c >>= _) = _
  rw [bind_of_eq_ok hstep]
  exact bind_of_eq_ok hsum _

/-! ## The walk -/

/-- What the table of a walk says when `trail` are the states met so far. -/
structure Walking (a : Automaton) (trail : IndexedSet Nat) (firstSeen : List (Option Nat)) : Prop where
  lt_size : ∀ p ∈ trail.toList, p < a.size
  getElem? : ∀ p < a.size, firstSeen[p]? = some (trail.idx? p)

theorem Walking.init (a : Automaton) : Walking a .empty (.replicate a.size none) := by
  refine ⟨fun p hp => absurd hp List.not_mem_nil, fun p hp => ?_⟩
  rw [List.getElem?_replicate_of_lt hp, IndexedSet.idx?_eq_none.mpr (IndexedSet.not_mem_empty p)]

theorem Walking.step (h : Walking a trail firstSeen) (hs : s < a.size) (hnew : s ∉ trail) :
    Walking a (trail.insert s) (firstSeen.set s (some trail.size)) := by
  refine ⟨fun p hp => ?_, fun p hp => ?_⟩
  · rw [IndexedSet.toList_insert, mem_insertNew] at hp
    exact hp.elim (h.lt_size p) (· ▸ hs)
  · have hlen := (List.getElem?_eq_some_iff.mp (h.getElem? s hs)).1
    rw [IndexedSet.idx?_insert_of_not_mem hnew, List.getElem?_set]
    split_ifs with e e' e'
    · rfl
    · exact absurd e.symm e'
    · exact absurd e'.symm e
    · exact h.getElem? p hp

/-- A state that is not on the trail is one more. -/
theorem Walking.size_lt (h : Walking a trail firstSeen) (hs : s < a.size) (hnew : s ∉ trail) :
    trail.size < a.size := by
  have hnodup := List.nodup_cons.mpr ⟨hnew, trail.nodup_toList⟩
  have := length_le_of_nodup_lt _ hnodup (List.forall_mem_cons.mpr ⟨hs, h.lt_size⟩)
  rwa [List.length_cons, IndexedSet.length_toList] at this

theorem walkN_eq_ok (ha : a.WellFormed) (hk : k < lengthBound) (h : Walking a trail firstSeen)
    (hs : s < a.size) (hn : a.size ≤ n + trail.size) :
    walkN a c k n firstSeen s trail.size =
      .ok (a.table.leapFrom c trail s (k - trail.size)) := by
  induction hm : k - trail.size generalizing n trail firstSeen s with
  | zero => exact walkN_of_le (Nat.sub_eq_zero_iff_le.mp hm)
  | succ m ih =>
    have hlt : trail.size < k := Nat.lt_of_sub_eq_succ hm
    rw [StateTable.leapFrom]
    cases hi : trail.idx? s with
    | some i =>
      have hfirst : i < trail.size :=
        (List.getElem?_eq_some_iff.mp (IndexedSet.idx?_eq_some.mp hi)).1
      rw [walkN_of_seen hlt (hi ▸ h.getElem? s hs) hfirst, hm]
      exact stepTimes_eq_ok ha hs c _
    | none =>
      have hnew : s ∉ trail := IndexedSet.idx?_eq_none.mp hi
      have hseen : firstSeen[s]? = some none := hi ▸ h.getElem? s hs
      have hstep := step?_eq_ok hs c
      rw [table_step?]
      cases hq : a.step? s c with
      | none => exact walkN_of_stuck hlt hseen (hq ▸ hstep)
      | some q =>
        have hroom := h.size_lt hs hnew
        have hsize : (trail.insert s).size = trail.size + 1 := by
          rw [← IndexedSet.length_toList, IndexedSet.toList_insert_of_not_mem hnew,
            List.length_append, List.length_singleton, IndexedSet.length_toList]
        obtain ⟨n, rfl⟩ : ∃ i, n = i + 1 := ⟨n - 1, by omega⟩
        rw [walkN_of_step hlt hk hseen (hq ▸ hstep), ← hsize]
        exact ih (h.step hs hnew) (step?_lt_size ha hq) (by omega) (by omega)

theorem walk_eq_ok (ha : a.WellFormed) (hpos : 0 < a.size) (hk : k < lengthBound) (c : Char) :
    walk a c k = .ok (a.leap c k) :=
  walkN_eq_ok ha hk (.init a) (ha.start_lt_of_pos hpos) le_rfl

/-- The walk ends, and where as many single steps do: there is no such state exactly when one
    of the steps cannot be taken. -/
theorem walk_exact (ha : a.WellFormed) (hpos : 0 < a.size) (hk : k < lengthBound) (c : Char) :
    walk a c k = .ok (a.leap c k) ∧ (∀ q, a.leap c k = some q ↔ a.Steps c a.start k q) ∧
      (a.leap c k = none ↔ ∃ i < k, ∃ q, a.Steps c a.start i q ∧ a.step? q c = none) := by
  rw [leap_eq_walk?]
  refine ⟨?_, fun q => walk?_replicate_eq_some_iff, walk?_replicate_eq_none_iff⟩
  rw [walk_eq_ok ha hpos hk, leap_eq_walk?]

/-- Starts at 3 and goes round 0, 1 and 2 along `a`; the second transition on `a` from 0 is
    never taken. -/
def lasso : Automaton where
  states := [⟨false, [⟨1, .char 'a'⟩, ⟨3, .char 'a'⟩]⟩,
    ⟨true, [⟨1, .eps⟩, ⟨2, .char 'a'⟩]⟩,
    ⟨false, [⟨3, .star (.char 'a')⟩, ⟨0, .char 'a'⟩]⟩,
    ⟨false, [⟨2, .char 'b'⟩, ⟨0, .char 'a'⟩]⟩]
  start := 3
  alphabet := .ofList ['a', 'b']

theorem walk_exact_lasso :
    lasso.WellFormed ∧ walk lasso 'a' (lengthBound - 1) = .ok (some 2) ∧
      lasso.Steps 'a' 3 (lengthBound - 1) 2 ∧ walk lasso 'b' (lengthBound - 1) = .ok none ∧
      ∃ i < lengthBound - 1, ∃ q, lasso.Steps 'b' 3 i q ∧ lasso.step? q 'b' = none := by
  have ha : lasso.WellFormed :=
    ⟨by decide, by decide, by decide, by simp [lasso, Regex.eps, epsilon]⟩
  have hround : lasso.leap 'a' (lengthBound - 1) = some 2 := by decide +kernel
  have hstuck : lasso.leap 'b' (lengthBound - 1) = none := by decide +kernel
  have hpos : 0 < lasso.size := by decide
  have hlt : lengthBound - 1 < lengthBound := by decide
  obtain ⟨hwalk, hsome, -⟩ := walk_exact ha hpos hlt 'a'
  obtain ⟨hwalk', -, hnone⟩ := walk_exact ha hpos hlt 'b'
  exact ⟨ha, hwalk.trans (congrArg _ hround), (hsome 2).mp hround,
    hwalk'.trans (congrArg _ hstuck), hnone.mp hstuck⟩

end RegularLang.Guarded
