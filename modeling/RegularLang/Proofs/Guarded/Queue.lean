/-
  RegularLang.Proofs.Guarded.Queue — the search with a queue gets through and finds the
  distance of the nearest final state, or that none can be reached (`distanceFrom_exact`).

  The states met so far are those that have left the queue, then those in it at distance
  `i`, then those in it at distance `i + 1` (`Searching`). What has left is not final, and
  what it leads to has been met; so when no state at distance `i` is in the queue any
  more, the others are just the states at distance `i + 1`.
-/

import RegularLang.Guarded.Pipelines
import RegularLang.Proofs.Automaton.Distance
import RegularLang.Proofs.Guarded.Basic

namespace RegularLang

namespace Automaton

variable {a : Automaton} {p q s : Nat}

theorem leads_iff_exists_route : a.Leads p q ↔ ∃ ts, a.Route p ts q := by
  constructor
  · intro h
    induction h with
    | refl => exact ⟨[], .nil p⟩
    | tail _ hq ih =>
      obtain ⟨ts, hr⟩ := ih
      obtain ⟨t, ht, rfl⟩ := List.mem_map.mp hq
      exact ⟨ts ++ [t], Route.append_iff.mpr ⟨_, hr, .cons ht (.nil _)⟩⟩
  · rintro ⟨ts, hr⟩
    induction hr with
    | nil => exact .refl
    | cons ht _ ih => exact .head (List.mem_map_of_mem ht) ih

/-- No length is least exactly when no final state can be reached. -/
theorem forall_not_isLeast_iff : (∀ d, ¬IsLeast (a.routeLengths s) d) ↔
    ∀ q, a.Leads s q → ¬a.isFinalAt q := by
  constructor
  · intro h q hq hfinal
    obtain ⟨ts, hr⟩ := leads_iff_exists_route.mp hq
    obtain ⟨d, hd, hmin⟩ := wellFounded_lt.has_min (a.routeLengths s) ⟨_, q, ts, hr, hfinal, rfl⟩
    exact h d ⟨hd, fun n hn => Nat.le_of_not_lt (hmin n hn)⟩
  · rintro h d ⟨⟨q, ts, hr, hfinal, -⟩, -⟩
    exact h q (leads_iff_exists_route.mpr ⟨ts, hr⟩) hfinal

theorem Within.lt_size {d : Nat} (ha : a.WellFormed) (hs : s < a.size) (h : a.Within s d q) :
    q < a.size := by
  induction d generalizing q with
  | zero => exact within_zero_iff.mp h ▸ hs
  | succ d ih =>
    rcases within_succ_iff.mp h with h | ⟨p, -, hq⟩
    · exact ih h
    · exact target_lt ha hq

end Automaton

namespace Guarded

open Automaton

variable {a : Automaton} {s i n p : Nat} {met left near far : List Nat} {q : Queue}

/-! ## Joining -/

/-- The states met so far have joined, and no others. -/
def Queue.Joined (q : Queue) (a : Automaton) (met : List Nat) : Prop :=
  ∀ p < a.size, q.joined[p]? = some (decide (p ∈ met))

theorem Queue.joined_start (hs : s < a.size) : (Queue.start a.size s).Joined a [s] := by
  intro p hp
  rw [Queue.start, List.getElem?_set, List.length_replicate, List.getElem?_replicate_of_lt hp]
  split_ifs with h
  · simp [h]
  · simp [Ne.symm h]

theorem Queue.join_of_mem (h : q.Joined a met) (hp : p < a.size) (hmet : p ∈ met) (d : Nat) :
    q.join d p = .ok q := by
  rw [Queue.join, bind_of_eq_ok (lookUp_eq_ok (h p hp)), decide_eq_true hmet]
  rfl

theorem Queue.join_of_not_mem (h : q.Joined a met) (hp : p < a.size) (hmet : p ∉ met) (d : Nat) :
    ∃ q', q.join d p = .ok q' ∧ q'.waiting = q.waiting ++ [(p, d)] ∧ q'.Joined a (met ++ [p]) := by
  refine ⟨⟨q.joined.set p true, q.waiting ++ [(p, d)]⟩, ?_, rfl, ?_⟩
  · rw [Queue.join, bind_of_eq_ok (lookUp_eq_ok (h p hp)), decide_eq_false hmet]
    rfl
  · intro r hr
    have hlen := (List.getElem?_eq_some_iff.mp (h p hp)).1
    rw [List.getElem?_set, h r hr]
    split_ifs with e
    · simp [e]
    · simp [Ne.symm e]

/-- Of the states that a state leads to, those that are new join behind the others. -/
theorem Queue.exists_foldlM_join {ts : List Nat} (h : q.Joined a met) (hts : ∀ t ∈ ts, t < a.size)
    (d : Nat) : ∃ q' new, ts.foldlM (Queue.join d) q = .ok q' ∧ insertAllNew met ts = met ++ new ∧
      q'.waiting = q.waiting ++ new.map (·, d) ∧ q'.Joined a (met ++ new) := by
  induction ts generalizing met q with
  | nil => exact ⟨q, [], rfl, (List.append_nil met).symm, by simp, by simpa using h⟩
  | cons t ts ih =>
    obtain ⟨ht, hts⟩ := List.forall_mem_cons.mp hts
    have hcons : insertAllNew met (t :: ts) = insertAllNew (insertNew met t) ts := rfl
    rw [List.foldlM_cons, hcons, insertNew]
    split_ifs with hmet
    · rw [bind_of_eq_ok (Queue.join_of_mem h ht hmet d)]
      exact ih h hts
    · obtain ⟨q₁, hjoin, hwaiting, hjoined⟩ := Queue.join_of_not_mem h ht hmet d
      obtain ⟨q₂, new, hfold, hall, hwaiting', hjoined'⟩ := ih hjoined hts
      refine ⟨q₂, t :: new, ?_, ?_, ?_, ?_⟩
      · rw [bind_of_eq_ok hjoin, hfold]
      · rw [hall, List.append_assoc, List.singleton_append]
      · rw [hwaiting', hwaiting, List.append_assoc, List.singleton_append, List.map_cons]
      · rwa [List.append_assoc, List.singleton_append] at hjoined'

/-! ## The search -/

structure Searching (a : Automaton) (s i : Nat) (left near far : List Nat) (q : Queue) : Prop where
  waiting_eq : q.waiting = near.map (·, i) ++ far.map (·, i + 1)
  joined : q.Joined a (left ++ near ++ far)
  nodup : (left ++ near ++ far).Nodup
  mem_iff : ∀ {p}, p ∈ left ++ near ↔ a.Within s i p
  within : ∀ p ∈ left ++ near ++ far, a.Within s (i + 1) p
  /-- The distance of what is in the queue is not less than `i`. -/
  mem_left : ∀ {j p}, j < i → a.Within s j p → p ∈ left
  targets_met : ∀ p ∈ left, ∀ t ∈ (a.stateAt p).targets, t ∈ left ++ near ++ far
  not_final : ∀ p ∈ left, ¬a.isFinalAt p

namespace Searching

theorem start (hs : s < a.size) : Searching a s 0 [] [s] [] (.start a.size s) where
  waiting_eq := rfl
  joined := Queue.joined_start hs
  nodup := List.nodup_singleton s
  mem_iff := by simp [within_zero_iff]
  within := by
    intro p hp
    exact (within_zero_iff.mpr (by simpa using hp)).mono (Nat.zero_le 1)
  mem_left := fun h => absurd h (Nat.not_lt_zero _)
  targets_met := by simp
  not_final := by simp

/-- When the nearer states have left, the others come next. -/
theorem turn (h : Searching a s i left [] far q) : Searching a s (i + 1) left far [] q where
  waiting_eq := by simpa using h.waiting_eq
  joined := by simpa using h.joined
  nodup := by simpa using h.nodup
  mem_iff := by
    have hmem {p} : p ∈ left ↔ a.Within s i p := by simpa using h.mem_iff (p := p)
    intro p
    rw [within_succ_iff, List.mem_append, hmem]
    constructor
    · rintro (hp | hp)
      · exact .inl hp
      · exact within_succ_iff.mp (h.within p (List.mem_append_right _ hp))
    · rintro (hp | ⟨r, hr, hp⟩)
      · exact .inl hp
      · have := h.targets_met r (hmem.mpr hr) p hp
        rwa [List.append_nil, List.mem_append, hmem] at this
  within := by
    intro p hp
    exact (h.within p (by simpa using hp)).mono (Nat.le_succ _)
  mem_left := by
    intro j p hj hp
    simpa using h.mem_iff.mpr (hp.mono (Nat.le_of_lt_succ hj))
  targets_met := by simpa using h.targets_met
  not_final := h.not_final

/-- Either the queue is empty, or its first state is one of the nearer ones. -/
theorem front_cases (h : Searching a s i left near far q) :
    Searching a s i left [] [] q ∨ ∃ j p near' far', Searching a s j left (p :: near') far' q := by
  cases near with
  | cons p near => exact .inr ⟨i, p, near, far, h⟩
  | nil =>
    cases far with
    | nil => exact .inl h
    | cons p far => exact .inr ⟨i + 1, p, far, [], h.turn⟩

/-- The first state leaves, and what it leads to joins. -/
theorem step (ha : a.WellFormed) (h : Searching a s i left (p :: near) far q)
    (hfinal : ¬a.isFinalAt p) :
    ∃ q' far', (a.stateAt p).targets.foldlM (Queue.join (i + 1))
        { q with waiting := near.map (·, i) ++ far.map (·, i + 1) } = .ok q' ∧
      Searching a s i (left ++ [p]) near far' q' := by
  have hmet : left ++ p :: near ++ far = left ++ [p] ++ near ++ far := by
    rw [List.append_cons]
  have hp : a.Within s i p := h.mem_iff.mp (by simp)
  obtain ⟨q', new, hfold, hall, hwaiting, hjoined⟩ := Queue.exists_foldlM_join
    (q := { q with waiting := near.map (·, i) ++ far.map (·, i + 1) }) h.joined
    (fun t ht => target_lt ha ht) (i + 1)
  rw [hmet] at hall hjoined
  have hnew {t} : t ∈ left ++ [p] ++ near ++ far ++ new ↔
      t ∈ left ++ [p] ++ near ++ far ∨ t ∈ (a.stateAt p).targets := by
    rw [← hall, mem_insertAllNew]
  exact ⟨q', far ++ new, hfold, {
    waiting_eq := by rw [hwaiting, List.map_append, List.append_assoc]
    joined := by rwa [← List.append_assoc]
    nodup := by
      rw [← List.append_assoc, ← hall]
      exact nodup_insertAllNew _ (hmet ▸ h.nodup)
    mem_iff := by
      intro r
      rw [List.append_assoc, List.singleton_append]
      exact h.mem_iff
    within := by
      intro t ht
      rw [← List.append_assoc, hnew] at ht
      rcases ht with ht | ht
      · exact h.within t (hmet ▸ ht)
      · exact within_succ_iff.mpr (.inr ⟨p, hp, ht⟩)
    mem_left := fun hj hr => List.mem_append_left _ (h.mem_left hj hr)
    targets_met := by
      intro r hr t ht
      rw [← List.append_assoc, hnew]
      rcases List.mem_append.mp hr with hr | hr
      · exact .inl (hmet ▸ h.targets_met r hr t ht)
      · exact .inr (List.mem_singleton.mp hr ▸ ht)
    not_final := by
      intro r hr
      rcases List.mem_append.mp hr with hr | hr
      · exact h.not_final r hr
      · exact List.mem_singleton.mp hr ▸ hfinal }⟩

/-- No more states can leave than there are. -/
theorem length_le (ha : a.WellFormed) (hs : s < a.size) (h : Searching a s i left near far q) :
    (left ++ near ++ far).length ≤ a.size :=
  length_le_of_nodup_lt _ h.nodup fun p hp => (h.within p hp).lt_size ha hs

/-- With an empty queue, everything that can be reached has left. -/
theorem not_isFinalAt_of_leads (h : Searching a s i left [] [] q) {r : Nat} (hr : a.Leads s r) :
    ¬a.isFinalAt r := by
  refine h.not_final r ?_
  induction hr with
  | refl => simpa using h.mem_iff.mpr (⟨[], .nil s, Nat.zero_le i⟩ : a.Within s i s)
  | tail _ ht ih => simpa using h.targets_met _ ih _ ht

/-- The first final state in the queue is a nearest one. -/
theorem isLeast_of_isFinalAt (h : Searching a s i left (p :: near) far q) (hp : a.isFinalAt p) :
    IsLeast (a.routeLengths s) i := by
  refine isLeast_routeLengths_iff.mpr ⟨⟨p, hp, h.mem_iff.mp (by simp)⟩, ?_⟩
  rintro j hj ⟨r, hfinal, hr⟩
  exact h.not_final r (h.mem_left hj hr) hfinal

end Searching

/-! ## Rounds -/

variable {d : Nat} {waiting : List (Nat × Nat)}

theorem nearestN_of_nil (h : q.waiting = []) : nearestN a n q = .ok none := by
  cases n with
  | zero => rw [nearestN, h, if_pos List.isEmpty_nil]
  | succ n => rw [nearestN, h]

theorem nearestN_of_isFinalAt (h : q.waiting = (p, d) :: waiting) (hp : p < a.size)
    (hfinal : a.isFinalAt p) : nearestN a (n + 1) q = .ok (some d) := by
  rw [nearestN, h]
  show ((a.state p).guard >>= _) = _
  rw [bind_of_eq_ok (guard_state_eq_ok hp)]
  exact if_pos hfinal

theorem nearestN_of_not_isFinalAt {q' : Queue} (h : q.waiting = (p, d) :: waiting) (hp : p < a.size)
    (hfinal : ¬a.isFinalAt p)
    (hfold : (a.stateAt p).targets.foldlM (Queue.join (d + 1)) { q with waiting } = .ok q') :
    nearestN a (n + 1) q = nearestN a n q' := by
  rw [nearestN, h]
  show ((a.state p).guard >>= _) = _
  rw [bind_of_eq_ok (guard_state_eq_ok hp)]
  exact (if_neg hfinal).trans (bind_of_eq_ok hfold _)

theorem Searching.exists_nearestN (h : Searching a s i left [] [] q) (n : Nat) :
    ∃ answer, nearestN a n q = .ok answer ∧ ∀ d, answer = some d ↔ IsLeast (a.routeLengths s) d := by
  refine ⟨none, nearestN_of_nil h.waiting_eq, fun d => iff_of_false nofun ?_⟩
  exact forall_not_isLeast_iff.mpr (fun _ => h.not_isFinalAt_of_leads) d

/-- The search ends if it may go on as long as there are states that have not left. -/
theorem nearestN_eq_ok (ha : a.WellFormed) (hs : s < a.size) (h : Searching a s i left near far q)
    (hn : a.size ≤ n + left.length) :
    ∃ answer, nearestN a n q = .ok answer ∧ ∀ d, answer = some d ↔ IsLeast (a.routeLengths s) d := by
  induction n generalizing i left near far q with
  | zero =>
    rcases h.front_cases with h | ⟨j, p, near, far, h⟩
    · exact h.exists_nearestN _
    · have := h.length_le ha hs
      simp only [List.length_append, List.length_cons] at this
      omega
  | succ n ih =>
    rcases h.front_cases with h | ⟨j, p, near, far, h⟩
    · exact h.exists_nearestN _
    · have hp : p < a.size := (h.within p (by simp)).lt_size ha hs
      by_cases hfinal : a.isFinalAt p
      · have hleast := h.isLeast_of_isFinalAt hfinal
        refine ⟨some j, nearestN_of_isFinalAt h.waiting_eq hp hfinal, fun d => ?_⟩
        rw [Option.some.injEq]
        exact ⟨(· ▸ hleast), hleast.unique⟩
      · obtain ⟨q', far', hfold, hnext⟩ := h.step ha hfinal
        rw [nearestN_of_not_isFinalAt h.waiting_eq hp hfinal hfold]
        exact ih hnext (by rw [List.length_append, List.length_singleton]; omega)

theorem nearest_eq_ok (ha : a.WellFormed) (hs : s < a.size) : ∃ answer, nearest a s = .ok answer ∧
    ∀ d, answer = some d ↔ IsLeast (a.routeLengths s) d := by
  rw [nearest, bind_of_eq_ok (index_of_lt hs)]
  exact nearestN_eq_ok ha hs (.start hs) (Nat.le_add_right _ _)

/-- The search with a queue and the search by layers agree. -/
theorem nearest_eq_distance? (ha : a.WellFormed) (hs : s < a.size) :
    nearest a s = .ok (a.distance? s) := by
  obtain ⟨answer, hnearest, hleast⟩ := nearest_eq_ok ha hs
  rw [hnearest]
  exact congrArg _ (Option.ext fun d => (hleast d).trans distance?_eq_some_iff.symm)

/-- The answer is the least number of transitions on a way from the state to a final one, and
    there is none exactly when no final state can be reached. The search with a queue and the
    search by layers agree. -/
theorem distanceFrom_exact (ha : a.WellFormed) (hs : s < a.size) :
    ∃ answer, a.distanceFrom s = .ok answer ∧ nearest a s = .ok answer ∧
      (∀ d, answer = some d ↔ IsLeast (a.routeLengths s) d) ∧
      (answer = none ↔ ∀ q, a.Leads s q → ¬a.isFinalAt q) := by
  obtain ⟨answer, hnearest, hleast⟩ := nearest_eq_ok ha hs
  refine ⟨answer, ?_, hnearest, hleast, ?_⟩
  · rw [← Except.ok.inj ((nearest_eq_distance? ha hs).symm.trans hnearest), distanceFrom,
      state_eq_ok hs]
    rfl
  · rw [← forall_not_isLeast_iff, Option.eq_none_iff_forall_ne_some]
    exact forall_congr' fun d => not_congr (hleast d)

/-- Both ways from 0 to the final state 3 have two transitions, and so has the way back to 0.
    From 4 there is only a loop. -/
def meshed : Automaton where
  states := [⟨false, [⟨1, .char 'a'⟩, ⟨1, .eps⟩, ⟨2, .star (.char 'b')⟩]⟩,
    ⟨false, [⟨0, .char 'a'⟩, ⟨1, .char 'b'⟩, ⟨3, .char 'b'⟩]⟩,
    ⟨false, [⟨1, .char 'b'⟩, ⟨3, .zero⟩]⟩,
    ⟨true, [⟨0, .char 'a'⟩, ⟨4, .char 'a'⟩]⟩,
    ⟨false, [⟨4, .char 'a'⟩]⟩]
  start := 0
  alphabet := .ofList ['a', 'b']

theorem distanceFrom_exact_meshed :
    meshed.WellFormed ∧ meshed.distanceFrom 0 = .ok (some 2) ∧ nearest meshed 0 = .ok (some 2) ∧
      IsLeast (meshed.routeLengths 0) 2 ∧ nearest meshed 4 = .ok none ∧
      ∀ q, meshed.Leads 4 q → ¬meshed.isFinalAt q := by
  have ha : meshed.WellFormed :=
    ⟨by decide, by decide, by decide, by simp [meshed, Regex.eps, Regex.zero, epsilon]⟩
  have hnear : meshed.distanceFrom 0 = .ok (some 2) := by decide
  have hnone : meshed.distanceFrom 4 = .ok none := by decide
  obtain ⟨answer, h, hqueue, hleast, -⟩ := distanceFrom_exact (s := 0) ha (by decide)
  cases h.symm.trans hnear
  obtain ⟨answer, h, hqueue', -, hreach⟩ := distanceFrom_exact (s := 4) ha (by decide)
  cases h.symm.trans hnone
  exact ⟨ha, hnear, hqueue, (hleast 2).mp rfl, hqueue', hreach.mp rfl⟩

end Guarded

end RegularLang
