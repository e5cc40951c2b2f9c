/-
  RegularLang.Proofs.Automaton.Parallel — merging parallel transitions.

  What holds of a union exactly when it holds of its parts holds of the merged transitions
  exactly when it holds of the others (`forall_mem_mergeParallel_iff`). Afterwards no two
  have the same target, and then there is nothing to merge (`mergeParallel_of_nodup`). It
  is the same whether a target is dropped before or after (`dropTarget_mergeParallel`).
-/

import Mathlib.Tactic.SplitIfs
import Mathlib.Tactic.Tauto
import RegularLang.Automaton.Eliminated
import RegularLang.IndexedSet

namespace RegularLang

variable {P : Transition → Prop} {t : Transition} {ts ms : List Transition} {s : Nat}

/-! ## Labels -/

theorem forall_mem_mergeInto_iff
    (hadd : ∀ target e f, P ⟨target, e + f⟩ ↔ P ⟨target, e⟩ ∧ P ⟨target, f⟩) :
    (∀ m ∈ mergeInto t ms, P m) ↔ P t ∧ ∀ m ∈ ms, P m := by
  induction ms with
  | nil => simp [mergeInto]
  | cons m ms ih =>
    rw [mergeInto]
    split_ifs with h
    · have e : P { m with label := m.label + t.label } ↔ P m ∧ P t := by
        rw [hadd, h]
        cases m
        cases t
        simp_all
      rw [List.forall_mem_cons, List.forall_mem_cons, e]
      tauto
    · rw [List.forall_mem_cons, List.forall_mem_cons, ih]
      tauto

theorem forall_mem_mergeParallel_iff
    (hadd : ∀ target e f, P ⟨target, e + f⟩ ↔ P ⟨target, e⟩ ∧ P ⟨target, f⟩) :
    (∀ m ∈ mergeParallel ts, P m) ↔ ∀ t ∈ ts, P t := by
  have h (ms : List Transition) : (∀ m ∈ ts.foldl (fun ms t => mergeInto t ms) ms, P m) ↔
      (∀ t ∈ ts, P t) ∧ ∀ m ∈ ms, P m := by
    induction ts generalizing ms with
    | nil => simp
    | cons t ts ih =>
      rw [List.foldl_cons, ih, forall_mem_mergeInto_iff hadd, List.forall_mem_cons]
      tauto
  rw [mergeParallel, h]
  simp

/-! ## Targets -/

theorem insertNew_cons_of_ne {α : Type} [DecidableEq α] {x y : α} (h : x ≠ y) (l : List α) :
    insertNew (y :: l) x = y :: insertNew l x := by
  unfold insertNew
  by_cases hx : x ∈ l <;> simp [h, hx]

theorem targets_mergeInto (t : Transition) (ms : List Transition) :
    (mergeInto t ms).map (·.target) = insertNew (ms.map (·.target)) t.target := by
  induction ms with
  | nil => rfl
  | cons m ms ih =>
    rw [mergeInto]
    split_ifs with h
    · rw [List.map_cons, List.map_cons, insertNew, h, if_pos (List.mem_cons_self ..)]
    · rw [List.map_cons, List.map_cons, insertNew_cons_of_ne (Ne.symm h), ih]

theorem mergeInto_of_not_mem (h : t.target ∉ ms.map (·.target)) : mergeInto t ms = ms ++ [t] := by
  induction ms with
  | nil => rfl
  | cons m ms ih =>
    rw [List.map_cons, List.mem_cons, not_or] at h
    rw [mergeInto, if_neg (Ne.symm h.1), ih h.2]
    rfl

theorem nodup_targets_mergeParallel (ts : List Transition) :
    ((mergeParallel ts).map (·.target)).Nodup := by
  have h (ms : List Transition) (hms : (ms.map (·.target)).Nodup) :
      ((ts.foldl (fun ms t => mergeInto t ms) ms).map (·.target)).Nodup := by
    induction ts generalizing ms with
    | nil => exact hms
    | cons t ts ih =>
      refine ih _ ?_
      rw [targets_mergeInto]
      exact nodup_insertNew _ hms
  exact h [] List.nodup_nil

theorem foldl_mergeInto_of_nodup (h : ((ms ++ ts).map (·.target)).Nodup) :
    ts.foldl (fun ms t => mergeInto t ms) ms = ms ++ ts := by
  induction ts generalizing ms with
  | nil => exact (List.append_nil ms).symm
  | cons t ts ih =>
    have hnew : t.target ∉ ms.map (·.target) := by
      rw [List.map_append, List.map_cons, List.nodup_append] at h
      exact fun ht => h.2.2 _ ht _ (List.mem_cons_self ..) rfl
    rw [List.foldl_cons, mergeInto_of_not_mem hnew, ih (by rwa [List.append_cons] at h),
      ← List.append_cons]

theorem mergeParallel_of_nodup (h : (ts.map (·.target)).Nodup) : mergeParallel ts = ts :=
  foldl_mergeInto_of_nodup h

theorem mergeParallel_mergeParallel (ts : List Transition) :
    mergeParallel (mergeParallel ts) = mergeParallel ts :=
  mergeParallel_of_nodup (nodup_targets_mergeParallel ts)

/-! ## Dropping a target -/

/-- What two states that are gone do to the number of a third. -/
theorem lower_lower {p : Nat} (hp : p < s) (q : Nat) :
    lower (s - 1) (lower p q) = lower p (lower s q) := by
  unfold lower
  split_ifs <;> omega

/-- The transitions that are left when state `s` is gone. -/
def dropTarget (s : Nat) (ts : List Transition) : List Transition :=
  (ts.filter (·.target ≠ s)).map fun t => { t with target := lower s t.target }

theorem State.without_eq (st : State) (s : Nat) :
    st.without s = ⟨st.isFinal, dropTarget s st.transitions⟩ := rfl

@[simp] theorem dropTarget_nil (s : Nat) : dropTarget s [] = [] := rfl

theorem dropTarget_cons_self (h : t.target = s) : dropTarget s (t :: ts) = dropTarget s ts := by
  simp [dropTarget, h]

theorem dropTarget_cons_of_ne (h : t.target ≠ s) :
    dropTarget s (t :: ts) = { t with target := lower s t.target } :: dropTarget s ts := by
  simp [dropTarget, h]

@[simp] theorem dropTarget_append (s : Nat) (ts us : List Transition) :
    dropTarget s (ts ++ us) = dropTarget s ts ++ dropTarget s us := by
  simp [dropTarget]

theorem lower_inj {p q : Nat} (hp : p ≠ s) (hq : q ≠ s) : lower s p = lower s q ↔ p = q := by
  unfold lower
  split_ifs <;> omega

theorem lower_eq_iff_of_lt {p : Nat} (hp : p < s) (q : Nat) : lower s q = p ↔ q = p := by
  unfold lower
  split_ifs <;> omega

theorem nodup_targets_dropTarget (h : (ts.map (·.target)).Nodup) (s : Nat) :
    ((dropTarget s ts).map (·.target)).Nodup := by
  rw [dropTarget, List.map_map]
  have hsub : ((ts.filter (·.target ≠ s)).map (·.target)).Nodup :=
    h.sublist (List.filter_sublist.map _)
  rw [List.Nodup, List.pairwise_map] at hsub ⊢
  refine hsub.imp_of_mem ?_
  intro t u ht hu hne
  have ht : t.target ≠ s := by simpa using (List.mem_filter.mp ht).2
  have hu : u.target ≠ s := by simpa using (List.mem_filter.mp hu).2
  exact mt (lower_inj ht hu).mp hne

theorem dropTarget_mergeInto_self (h : t.target = s) (ms : List Transition) :
    dropTarget s (mergeInto t ms) = dropTarget s ms := by
  induction ms with
  | nil => exact dropTarget_cons_self h
  | cons m ms ih =>
    rw [mergeInto]
    split_ifs with hm
    · have hms : m.target = s := hm.trans h
      rw [dropTarget_cons_self hms]
      exact dropTarget_cons_self hms
    · have hms : m.target ≠ s := fun e => hm (e.trans h.symm)
      rw [dropTarget_cons_of_ne hms, dropTarget_cons_of_ne hms, ih]

theorem dropTarget_mergeInto_of_ne (h : t.target ≠ s) (ms : List Transition) :
    dropTarget s (mergeInto t ms) =
      mergeInto { t with target := lower s t.target } (dropTarget s ms) := by
  induction ms with
  | nil => exact dropTarget_cons_of_ne h
  | cons m ms ih =>
    rw [mergeInto]
    by_cases hms : m.target = s
    · have hm : m.target ≠ t.target := fun e => h (e.symm.trans hms)
      rw [if_neg hm, dropTarget_cons_self hms, dropTarget_cons_self hms, ih]
    · rw [dropTarget_cons_of_ne hms, mergeInto]
      by_cases hm : m.target = t.target
      · rw [if_pos hm, if_pos (congrArg (lower s) hm)]
        exact dropTarget_cons_of_ne hms
      · rw [if_neg hm, if_neg (mt (lower_inj hms h).mp hm), dropTarget_cons_of_ne hms, ih]

theorem dropTarget_mergeParallel (s : Nat) (ts : List Transition) :
    dropTarget s (mergeParallel ts) = mergeParallel (dropTarget s ts) := by
  have h (ms : List Transition) : dropTarget s (ts.foldl (fun ms t => mergeInto t ms) ms) =
      (dropTarget s ts).foldl (fun ms t => mergeInto t ms) (dropTarget s ms) := by
    induction ts generalizing ms with
    | nil => rfl
    | cons t ts ih =>
      rw [List.foldl_cons, ih]
      by_cases ht : t.target = s
      · rw [dropTarget_mergeInto_self ht, dropTarget_cons_self ht]
      · rw [dropTarget_mergeInto_of_ne ht, dropTarget_cons_of_ne ht, List.foldl_cons]
  exact h []

theorem filter_dropTarget {P Q : Nat → Prop} [DecidablePred P] [DecidablePred Q]
    (h : ∀ p, P (lower s p) ↔ Q p) (ts : List Transition) :
    (dropTarget s ts).filter (P ·.target) = dropTarget s (ts.filter (Q ·.target)) := by
  rw [dropTarget, dropTarget, List.filter_map, List.filter_filter, List.filter_filter]
  congr 2
  funext t
  rw [Function.comp_apply, decide_eq_decide.mpr (h t.target), Bool.and_comm]

theorem dropTarget_of_lt (h : ∀ t ∈ ts, t.target < s) : dropTarget s ts = ts := by
  have hne : ∀ t ∈ ts, t.target ≠ s := fun t ht => Nat.ne_of_lt (h t ht)
  rw [dropTarget, List.filter_eq_self.mpr (by simpa using hne)]
  refine (List.map_congr_left fun t ht => ?_).trans (List.map_id ts)
  rw [lower, if_neg (Nat.lt_asymm (h t ht))]
  rfl

theorem dropTarget_flatMap {α : Type} (s : Nat) (l : List α) (f : α → List Transition) :
    dropTarget s (l.flatMap f) = l.flatMap fun x => dropTarget s (f x) := by
  induction l with
  | nil => rfl
  | cons x l ih => rw [List.flatMap_cons, dropTarget_append, ih, List.flatMap_cons]

theorem dropTarget_relabel (s : Nat) (f : Regex → Regex) (ts : List Transition) :
    dropTarget s (ts.map fun t => ⟨t.target, f t.label⟩) =
      (dropTarget s ts).map fun t => ⟨t.target, f t.label⟩ := by
  rw [dropTarget, dropTarget, List.filter_map, List.map_map, List.map_map]
  rfl

/-- Two targets may be dropped in either order. -/
theorem dropTarget_dropTarget {p : Nat} (hp : p < s) (ts : List Transition) :
    dropTarget (s - 1) (dropTarget p ts) = dropTarget p (dropTarget s ts) := by
  induction ts with
  | nil => rfl
  | cons t ts ih =>
    by_cases htp : t.target = p
    · have hts : t.target ≠ s := by omega
      have hlower : lower s t.target = p := (lower_eq_iff_of_lt hp _).mpr htp
      rw [dropTarget_cons_self htp, dropTarget_cons_of_ne hts, dropTarget_cons_self hlower, ih]
    · by_cases hts : t.target = s
      · have hlower : lower p t.target = s - 1 := by
          rw [hts]
          exact if_pos hp
        rw [dropTarget_cons_self hts, dropTarget_cons_of_ne htp, dropTarget_cons_self hlower, ih]
      · have hp' : lower s t.target ≠ p := mt (lower_eq_iff_of_lt hp _).mp htp
        have hs' : lower p t.target ≠ s - 1 := by
          unfold lower
          split_ifs <;> omega
        rw [dropTarget_cons_of_ne htp, dropTarget_cons_of_ne hts, dropTarget_cons_of_ne hs',
          dropTarget_cons_of_ne hp', ih]
        simp only [lower_lower hp]

end RegularLang
