/-
  RegularLang.Proofs.Exploration — what an exploration finds, and in which order.

  `Explored` is the invariant of the search: what has been found is what the roots
  and the things looked at so far lead to, in order of first arrival. It holds of the
  result with every thing looked at (`explored_explore`) as soon as the bound is at
  least the number of things that can be reached, so the result is exactly those
  (`mem_explore_iff`).
-/

import Mathlib.Data.List.Induction
import Mathlib.Data.List.Nodup
import Mathlib.Data.List.Perm.Subperm
import Mathlib.Logic.Relation
import RegularLang.IndexedSet

namespace RegularLang

/-! ## First arrivals -/

section

variable {α : Type} [DecidableEq α]

theorem insertAllNew_append (found xs ys : List α) :
    insertAllNew found (xs ++ ys) = insertAllNew (insertAllNew found xs) ys := List.foldl_append

theorem nodup_insertAllNew {found : List α} (xs : List α) (h : found.Nodup) :
    (insertAllNew found xs).Nodup := by
  induction xs generalizing found with
  | nil => exact h
  | cons x xs ih => exact ih (nodup_insertNew x h)

theorem prefix_insertNew (found : List α) (x : α) : found <+: insertNew found x := by
  unfold insertNew
  split
  · exact List.prefix_refl found
  · exact List.prefix_append ..

theorem prefix_insertAllNew (found xs : List α) : found <+: insertAllNew found xs := by
  induction xs generalizing found with
  | nil => exact List.prefix_refl found
  | cons x xs ih => exact (prefix_insertNew found x).trans (ih _)

/-- Whatever has a place among first arrivals arrived there after exactly those before
    it. -/
theorem exists_arrival {xs : List α} {j : Nat} {x : α} (h : (insertAllNew [] xs)[j]? = some x) :
    ∃ ys zs, xs = ys ++ x :: zs ∧ insertAllNew [] ys = (insertAllNew [] xs).take j := by
  induction xs using List.reverseRecOn with
  | nil => cases h
  | append_singleton xs y ih =>
    have hs : insertAllNew [] (xs ++ [y]) = insertNew (insertAllNew [] xs) y :=
      insertAllNew_append ..
    rw [hs] at h ⊢
    unfold insertNew at h ⊢
    split_ifs at h ⊢ with hy
    · obtain ⟨ys, zs, rfl, e⟩ := ih h
      exact ⟨ys, zs ++ [y], by simp, e⟩
    · rcases Nat.lt_or_ge j (insertAllNew [] xs).length with hj | hj
      · rw [List.getElem?_append_left hj] at h
        obtain ⟨ys, zs, e', e⟩ := ih h
        refine ⟨ys, zs ++ [y], by rw [e']; simp, ?_⟩
        rw [e, List.take_append_of_le_length (Nat.le_of_lt hj)]
      · obtain ⟨rfl, rfl⟩ : j = (insertAllNew [] xs).length ∧ y = x := by
          rw [List.getElem?_append_right hj, List.getElem?_singleton] at h
          split_ifs at h with hj'
          exact ⟨by omega, Option.some.inj h⟩
        exact ⟨xs, [], rfl, by simp⟩

end

/-! ## The search -/

section

variable {α : Type} [DecidableEq α] {next : α → List α} {roots found : List α} {i : Nat}

/-- The things before place `i` have been looked at. -/
structure Explored (next : α → List α) (roots : List α) (i : Nat) (found : List α) : Prop where
  le_length : i ≤ found.length
  found_eq : insertAllNew [] (roots ++ (found.take i).flatMap next) = found
  /-- Each thing looked at was found by looking at those before it. -/
  lt_length : ∀ j < i, j < (insertAllNew [] (roots ++ (found.take j).flatMap next)).length

namespace Explored

theorem init (next : α → List α) (roots : List α) : Explored next roots 0 (insertAllNew [] roots) :=
  ⟨Nat.zero_le _, by simp, nofun⟩

theorem nodup (h : Explored next roots i found) : found.Nodup :=
  h.found_eq ▸ nodup_insertAllNew _ List.nodup_nil

theorem step (h : Explored next roots i found) {x : α} (hx : found[i]? = some x) :
    Explored next roots (i + 1) (insertAllNew found (next x)) := by
  have hi : i < found.length := (List.getElem?_eq_some_iff.mp hx).1
  have hp := prefix_insertAllNew found (next x)
  have take_eq {j} (hj : j ≤ found.length) : (insertAllNew found (next x)).take j = found.take j := by
    obtain ⟨zs, e⟩ := hp
    rw [← e, List.take_append_of_le_length hj]
  refine ⟨Nat.lt_of_lt_of_le hi hp.length_le, ?_, ?_⟩
  · rw [take_eq hi, List.take_add_one, hx, Option.toList_some, List.flatMap_append,
      List.flatMap_singleton, ← List.append_assoc, insertAllNew_append, h.found_eq]
  · intro j hj
    rw [take_eq (by omega)]
    rcases Nat.lt_succ_iff_lt_or_eq.mp hj with hj | rfl
    · exact h.lt_length j hj
    · rwa [h.found_eq]

end Explored

end

/-! ## The result -/

section

variable {α : Type} [Ord α] [Std.TransOrd α] [Std.LawfulEqOrd α] [DecidableEq α]
  {next : α → List α} {roots : List α} {P : α → Prop}

/-- What holds of the roots and passes on to what a thing leads to holds of everything
    found. -/
theorem forall_mem_exploreN (hnext : ∀ x, P x → ∀ y ∈ next x, P y) (n i : Nat) {found : IndexedSet α}
    (h : ∀ x ∈ found.toList, P x) : ∀ x ∈ (exploreN next n i found).toList, P x := by
  induction n generalizing i found with
  | zero => exact h
  | succ n ih =>
    rw [exploreN, IndexedSet.get?_eq]
    split
    · exact h
    · rename_i x hx
      refine ih _ ?_
      intro y hy
      rw [IndexedSet.toList_insertAll, mem_insertAllNew] at hy
      exact hy.elim (h y) (hnext x (h x (List.mem_of_getElem? hx)) y)

theorem IndexedSet.prefix_insertAll (s : IndexedSet α) (xs : List α) :
    s.toList <+: (s.insertAll xs).toList := by
  rw [toList_insertAll]
  exact prefix_insertAllNew s.toList xs

/-- What has been found keeps its place. -/
theorem prefix_exploreN (next : α → List α) (n i : Nat) (found : IndexedSet α) :
    found.toList <+: (exploreN next n i found).toList := by
  induction n generalizing i found with
  | zero => exact List.prefix_refl _
  | succ n ih =>
    rw [exploreN]
    cases found.get? i with
    | none => exact List.prefix_refl _
    | some x => exact (found.prefix_insertAll (next x)).trans (ih _ _)

theorem explored_exploreN {n i : Nat} {found : IndexedSet α} {bound : Nat}
    (hnext : ∀ x, P x → ∀ y ∈ next x, P y)
    (hbound : ∀ l : List α, l.Nodup → (∀ x ∈ l, P x) → l.length ≤ bound)
    (hP : ∀ x ∈ found.toList, P x) (h : Explored next roots i found.toList) (hn : bound ≤ n + i) :
    Explored next roots (exploreN next n i found).toList.length (exploreN next n i found).toList := by
  induction n generalizing i found with
  | zero =>
    have := hbound _ h.nodup hP
    have e : found.toList.length = i := Nat.le_antisymm (by omega) h.le_length
    rwa [exploreN, e]
  | succ n ih =>
    rw [exploreN, IndexedSet.get?_eq]
    split
    · rename_i hx
      have e : found.toList.length = i :=
        Nat.le_antisymm (List.getElem?_eq_none_iff.mp hx) h.le_length
      rwa [e]
    · rename_i x hx
      refine ih ?_ (by simpa using h.step hx) (by omega)
      intro y hy
      rw [IndexedSet.toList_insertAll, mem_insertAllNew] at hy
      exact hy.elim (hP y) (hnext x (hP x (List.mem_of_getElem? hx)) y)

/-- With a bound on the number of things that can be reached, everything found has
    been looked at. -/
theorem explored_explore {bound : Nat} (hroots : ∀ x ∈ roots, P x)
    (hnext : ∀ x, P x → ∀ y ∈ next x, P y)
    (hbound : ∀ l : List α, l.Nodup → (∀ x ∈ l, P x) → l.length ≤ bound) :
    Explored next roots (explore next bound roots).toList.length (explore next bound roots).toList := by
  have e : (IndexedSet.ofList roots).toList = insertAllNew [] roots := by simp [IndexedSet.ofList]
  refine explored_exploreN hnext hbound (fun x hx => hroots x ?_) (e ▸ .init next roots)
    (Nat.le_add_right ..)
  simpa [e] using hx

theorem mem_explore_iff {bound : Nat} (hroots : ∀ x ∈ roots, P x)
    (hnext : ∀ x, P x → ∀ y ∈ next x, P y)
    (hbound : ∀ l : List α, l.Nodup → (∀ x ∈ l, P x) → l.length ≤ bound) {x : α} :
    x ∈ (explore next bound roots).toList ↔
      ∃ r ∈ roots, Relation.ReflTransGen (fun y z => z ∈ next y) r x := by
  have h := (explored_explore hroots hnext hbound).found_eq
  rw [List.take_length] at h
  constructor
  · refine forall_mem_exploreN
      (P := fun x => ∃ r ∈ roots, Relation.ReflTransGen (fun y z => z ∈ next y) r x)
      ?_ bound 0 ?_ x
    · intro y hy z hz
      obtain ⟨r, hr, hry⟩ := hy
      exact ⟨r, hr, hry.tail hz⟩
    · intro y hy
      exact ⟨y, by simpa [IndexedSet.ofList] using hy, .refl⟩
  · intro hx
    obtain ⟨r, hr, hrx⟩ := hx
    induction hrx with
    | refl => rw [← h]; simp [hr]
    | tail _ hz ih =>
      rw [← h, mem_insertAllNew, List.mem_append, List.mem_flatMap]
      exact .inr (.inr ⟨_, ih, hz⟩)

end

/-- Numbers below `n` without repetition are at most `n` many. -/
theorem length_le_of_nodup_lt {n : Nat} (l : List Nat) (h : l.Nodup) (hl : ∀ x ∈ l, x < n) :
    l.length ≤ n := by
  have hsub : l ⊆ List.range n := fun x hx => List.mem_range.mpr (hl x hx)
  have := (h.subperm hsub).length_le
  rwa [List.length_range] at this

end RegularLang
