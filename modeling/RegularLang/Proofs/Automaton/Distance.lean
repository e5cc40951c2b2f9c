/-
  RegularLang.Proofs.Automaton.Distance — the nearest final state is found:
  `distance?` is the least number of transitions on a route to one
  (`distance?_eq_some_iff`), and there is none only where no route leads to one.

  The search goes layer by layer. When layer `i` is looked at, the states seen are those
  within `i` transitions and the layer has those that need all of them (`Layered`). A
  shortest route does not come back to a state, so there are no more layers than states.
-/

import Mathlib.Order.Bounds.Defs
import RegularLang.Automaton.Deterministic
import RegularLang.Proofs.Automaton.Routes
import RegularLang.Proofs.Automaton.Trimmed

namespace RegularLang

/-- What an insertion adds stands behind what was there. -/
theorem IndexedSet.mem_drop_insertAll {α : Type} [Ord α] [Std.TransOrd α] [Std.LawfulEqOrd α]
    [DecidableEq α] {s : IndexedSet α} {xs : List α} {x : α} :
    x ∈ (s.insertAll xs).drop s.size ↔ x ∈ xs ∧ x ∉ s := by
  obtain ⟨new, e⟩ := prefix_insertAllNew s.toList xs
  have e : (s.insertAll xs).toList = s.toList ++ new := by rw [toList_insertAll, e]
  have hnodup := (s.insertAll xs).nodup_toList
  have hmem : x ∈ s.insertAll xs ↔ x ∈ s ∨ x ∈ new := by
    rw [mem_def, mem_def, e, List.mem_append]
  rw [e] at hnodup
  have hdisjoint : x ∈ new → x ∉ s := fun hnew hs =>
    (List.nodup_append.mp hnodup).2.2 x hs x hnew rfl
  rw [drop_eq, e, ← length_toList, List.drop_left]
  rw [mem_insertAll] at hmem
  tauto

namespace Automaton

variable {a : Automaton} {s p q d i : Nat} {ts us : List Transition}

/-! ## Routes by their length -/

theorem Route.append_iff : a.Route p (ts ++ us) q ↔ ∃ r, a.Route p ts r ∧ a.Route r us q := by
  constructor
  · intro h
    induction ts generalizing p with
    | nil => exact ⟨p, .nil p, h⟩
    | cons t ts ih =>
      cases h with
      | cons ht h =>
        obtain ⟨r, hr, hq⟩ := ih h
        exact ⟨r, .cons ht hr, hq⟩
  · rintro ⟨r, hr, hq⟩
    induction hr with
    | nil => exact hq
    | cons ht _ ih => exact .cons ht (ih hq)

theorem Route.lt_size (h : a.Route p ts q) (hq : q < a.size) : p < a.size := by
  cases h with
  | nil => exact hq
  | cons ht => exact lt_size_of_mem ht

/-- From every state of a route the rest of it leads to its end. -/
theorem Route.exists_rest {r : Nat} (h : a.Route p ts q) (hr : r ∈ p :: ts.map (·.target)) :
    ∃ us, a.Route r us q ∧ us.length ≤ ts.length := by
  induction h with
  | nil p =>
    obtain rfl := List.mem_singleton.mp hr
    exact ⟨[], .nil r, le_rfl⟩
  | @cons p q t ts ht h ih =>
    rcases List.mem_cons.mp hr with rfl | hr
    · exact ⟨t :: ts, .cons ht h, le_rfl⟩
    · obtain ⟨us, hus, hle⟩ := ih hr
      exact ⟨us, hus, Nat.le_succ_of_le hle⟩

/-- A shortest route does not come back to a state. -/
theorem Route.nodup (h : a.Route p ts q) (hmin : ∀ us, a.Route p us q → ts.length ≤ us.length) :
    (p :: ts.map (·.target)).Nodup := by
  induction h with
  | nil p => exact List.nodup_singleton p
  | @cons p q t ts ht h ih =>
    have ih := ih fun us hus => Nat.le_of_succ_le_succ (hmin (t :: us) (.cons ht hus))
    refine List.nodup_cons.mpr ⟨fun hp => ?_, ih⟩
    obtain ⟨us, hus, hle⟩ := h.exists_rest hp
    exact absurd (hmin us hus) (Nat.not_le.mpr (Nat.lt_succ_of_le hle))

/-- The lengths of the routes to a final state. -/
def routeLengths (a : Automaton) (s : Nat) : Set Nat :=
  {n | ∃ q ts, a.Route s ts q ∧ a.isFinalAt q ∧ ts.length = n}

theorem lt_size_of_isLeast (h : IsLeast (a.routeLengths s) d) : d < a.size := by
  obtain ⟨⟨q, ts, hr, hq, rfl⟩, hmin⟩ := h
  have hnodup := hr.nodup fun us hus => hmin ⟨q, us, hus, hq, rfl⟩
  have hlt : ∀ p ∈ s :: ts.map (·.target), p < a.size := by
    intro p hp
    obtain ⟨us, hus, -⟩ := hr.exists_rest hp
    exact hus.lt_size (lt_size_of_isFinalAt hq)
  have := length_le_of_nodup_lt _ hnodup hlt
  rwa [List.length_cons, List.length_map] at this

/-! ## The search -/

/-- A route of at most `d` transitions leads from `s` to `q`. -/
def Within (a : Automaton) (s d q : Nat) : Prop := ∃ ts, a.Route s ts q ∧ ts.length ≤ d

theorem Within.mono {e : Nat} (h : a.Within s d q) (hle : d ≤ e) : a.Within s e q := by
  obtain ⟨ts, hr, hd⟩ := h
  exact ⟨ts, hr, hd.trans hle⟩

theorem within_zero_iff : a.Within s 0 q ↔ q = s := by
  constructor
  · rintro ⟨ts, hr, hd⟩
    obtain rfl := List.length_eq_zero_iff.mp (Nat.le_zero.mp hd)
    cases hr
    rfl
  · rintro rfl
    exact ⟨[], .nil q, le_rfl⟩

theorem within_succ_iff : a.Within s (d + 1) q ↔
    a.Within s d q ∨ ∃ p, a.Within s d p ∧ q ∈ (a.stateAt p).targets := by
  constructor
  · rintro ⟨ts, hr, hd⟩
    induction ts using List.reverseRecOn with
    | nil => exact .inl ⟨[], hr, Nat.zero_le d⟩
    | append_singleton ts t =>
      obtain ⟨p, hp, hq⟩ := Route.append_iff.mp hr
      rw [List.length_append] at hd
      cases hq with
      | cons ht hq =>
        cases hq
        exact .inr ⟨p, ⟨ts, hp, Nat.le_of_succ_le_succ hd⟩, List.mem_map_of_mem ht⟩
  · rintro (h | ⟨p, ⟨ts, hr, hd⟩, hq⟩)
    · exact h.mono (Nat.le_succ d)
    · obtain ⟨t, ht, rfl⟩ := List.mem_map.mp hq
      exact ⟨ts ++ [t], Route.append_iff.mpr ⟨p, hr, .cons ht (.nil _)⟩, by simpa using hd⟩

/-- What the search knows when it looks at layer `i`. -/
structure Layered (a : Automaton) (s i : Nat) (seen : IndexedSet Nat) (layer : List Nat) : Prop where
  mem_seen : ∀ q, q ∈ seen ↔ a.Within s i q
  mem_layer : ∀ q, q ∈ layer ↔ a.Within s i q ∧ ∀ j < i, ¬a.Within s j q

theorem Layered.init (a : Automaton) (s : Nat) : a.Layered s 0 (.ofList [s]) [s] :=
  ⟨fun q => by simp [within_zero_iff], fun q => by simp [within_zero_iff]⟩

variable {seen : IndexedSet Nat} {layer : List Nat}

theorem Layered.step (h : a.Layered s i seen layer) :
    a.Layered s (i + 1) (seen.insertAll (layer.flatMap fun p => (a.stateAt p).targets))
      ((seen.insertAll (layer.flatMap fun p => (a.stateAt p).targets)).drop seen.size) := by
  have hfound (q) : q ∈ seen ∨ q ∈ (layer.flatMap fun p => (a.stateAt p).targets) ↔
      a.Within s (i + 1) q := by
    rw [within_succ_iff, h.mem_seen, List.mem_flatMap]
    refine ⟨Or.imp_right ?_, fun hq => hq.elim .inl ?_⟩
    · rintro ⟨p, hp, hq⟩
      exact ⟨p, ((h.mem_layer p).mp hp).1, hq⟩
    · rintro ⟨p, hp, hq⟩
      by_cases hj : ∀ j < i, ¬a.Within s j p
      · exact .inr ⟨p, (h.mem_layer p).mpr ⟨hp, hj⟩, hq⟩
      · -- What an earlier layer leads to has been seen.
        push Not at hj
        obtain ⟨j, hj, hp⟩ := hj
        exact .inl ((within_succ_iff.mpr (.inr ⟨p, hp, hq⟩)).mono hj)
  refine ⟨fun q => by rw [IndexedSet.mem_insertAll, hfound], fun q => ?_⟩
  have hseen : q ∉ seen ↔ ∀ j < i + 1, ¬a.Within s j q := by
    rw [h.mem_seen]
    exact ⟨fun hq j hj hjq => hq (hjq.mono (Nat.le_of_lt_succ hj)), fun hq => hq i (Nat.lt_succ_self i)⟩
  rw [IndexedSet.mem_drop_insertAll, ← hfound, ← hseen]
  tauto

/-- Whether a final state is within `d` transitions. -/
def FinalWithin (a : Automaton) (s d : Nat) : Prop := ∃ q, a.isFinalAt q ∧ a.Within s d q

theorem isLeast_routeLengths_iff :
    IsLeast (a.routeLengths s) d ↔ a.FinalWithin s d ∧ ∀ j < d, ¬a.FinalWithin s j := by
  constructor
  · rintro ⟨⟨q, ts, hr, hq, rfl⟩, hmin⟩
    refine ⟨⟨q, hq, ts, hr, le_rfl⟩, ?_⟩
    rintro j hj ⟨q', hq', us, hus, hle⟩
    exact absurd (hmin ⟨q', us, hus, hq', rfl⟩) (Nat.not_le.mpr (Nat.lt_of_le_of_lt hle hj))
  · rintro ⟨⟨q, hq, ts, hr, hle⟩, hmin⟩
    have hlower : ∀ n ∈ a.routeLengths s, d ≤ n := by
      rintro n ⟨q', us, hus, hq', rfl⟩
      exact Nat.le_of_not_lt fun hlt => hmin _ hlt ⟨q', hq', us, hus, le_rfl⟩
    have hmem : ts.length ∈ a.routeLengths s := ⟨q, ts, hr, hq, rfl⟩
    exact ⟨Nat.le_antisymm hle (hlower _ hmem) ▸ hmem, hlower⟩

theorem Layered.any_isFinal_iff (h : a.Layered s i seen layer) (hno : ∀ j < i, ¬a.FinalWithin s j) :
    (layer.any fun p => (a.stateAt p).isFinal) ↔ a.FinalWithin s i := by
  rw [List.any_eq_true]
  constructor
  · rintro ⟨q, hq, hf⟩
    exact ⟨q, hf, ((h.mem_layer q).mp hq).1⟩
  · rintro ⟨q, hf, hq⟩
    exact ⟨q, (h.mem_layer q).mpr ⟨hq, fun j hj hjq => hno j hj ⟨q, hf, hjq⟩⟩, hf⟩

theorem distanceN_eq_some_iff {n : Nat} (h : a.Layered s i seen layer)
    (hno : ∀ j < i, ¬a.FinalWithin s j) : a.table.distanceN n seen layer = some d ↔
      d < n ∧ a.FinalWithin s (i + d) ∧ ∀ j < i + d, ¬a.FinalWithin s j := by
  induction n generalizing i seen layer d with
  | zero => simp [StateTable.distanceN]
  | succ n ih =>
    rw [StateTable.distanceN, table_stateAt]
    split_ifs with hany
    · have hi := (h.any_isFinal_iff hno).mp hany
      constructor
      · intro hd
        obtain rfl := Option.some.inj hd
        exact ⟨Nat.succ_pos n, hi, hno⟩
      · rintro ⟨-, -, hmin⟩
        cases d with
        | zero => rfl
        | succ d => exact absurd hi (hmin i (by omega))
    · have hi := (h.any_isFinal_iff hno).not.mp hany
      have hno' : ∀ j < i + 1, ¬a.FinalWithin s j := fun j hj =>
        (Nat.lt_succ_iff_lt_or_eq.mp hj).elim (hno j) (· ▸ hi)
      rw [Option.map_eq_some_iff]
      constructor
      · rintro ⟨d, hd, rfl⟩
        have := (ih h.step hno').mp hd
        rw [Nat.add_right_comm, Nat.add_assoc] at this
        exact ⟨Nat.succ_lt_succ this.1, this.2⟩
      · rintro ⟨hlt, hd, hmin⟩
        cases d with
        | zero => exact absurd hd hi
        | succ d =>
          refine ⟨d, (ih h.step hno').mpr ?_, rfl⟩
          rw [Nat.add_right_comm, Nat.add_assoc]
          exact ⟨Nat.lt_of_succ_lt_succ hlt, hd, hmin⟩

/-- The search finds the length of a shortest route to a final state. -/
theorem distance?_eq_some_iff : a.distance? s = some d ↔ IsLeast (a.routeLengths s) d := by
  rw [distance?, distanceN_eq_some_iff (.init a s) nofun, Nat.zero_add, ← isLeast_routeLengths_iff]
  exact and_iff_right_of_imp lt_size_of_isLeast

end Automaton

end RegularLang
