/-
  RegularLang.Proofs.Automaton.Refined — refining a partition until it stays the same.

  One round separates what the partition separates already and what moves to separate
  classes (`refine_eq_iff`), so that its number of classes tells whether it has
  separated anything new (`refine_eq_iff_of_classCount`). The rounds end in time
  (`settles_refineN`) in a partition that one more round leaves alone, and whatever holds of
  the first partition and every round keeps holds of it (`Settles.exists_eq`).
-/

import Mathlib.Data.Finset.Card
import Mathlib.Order.Bounds.Basic
import RegularLang.Automaton.Deterministic
import RegularLang.Proofs.Exploration

namespace RegularLang

/-! ## Places among first arrivals -/

section

variable {α : Type} [Ord α] [Std.TransOrd α] [Std.LawfulEqOrd α] {l : List α} {x y : α}

theorem IndexedSet.idx_inj {s : IndexedSet α} (hx : x ∈ s) (hy : y ∈ s) :
    s.idx x = s.idx y ↔ x = y := by
  refine ⟨?_, fun e => e ▸ rfl⟩
  intro e
  have h := getElem?_idx hx
  rw [e, getElem?_idx hy] at h
  exact (Option.some.inj h).symm

/-- Whatever has a smaller place in a set made of a list came earlier in the list. -/
theorem IndexedSet.exists_of_lt_idx_ofList [DecidableEq α] {i k : Nat} (hi : l[i]? = some x)
    (hk : k < (ofList l).idx x) : ∃ j < i, ∃ y, l[j]? = some y ∧ (ofList l).idx y = k := by
  have hl : (ofList l).toList = insertAllNew [] l := by simp [ofList]
  have hx := getElem?_idx (mem_ofList.mpr (List.mem_of_getElem? hi))
  have hlt := (List.getElem?_eq_some_iff.mp hx).1
  obtain ⟨ys, zs, e, htake⟩ := exists_arrival (hl ▸ hx)
  rw [← hl] at htake
  -- `x` arrives after `ys`, so that place `i` is not among them.
  have hnot : x ∉ ys := by
    intro hm
    have hm : x ∈ insertAllNew [] ys := mem_insertAllNew.mpr (.inr hm)
    rw [htake] at hm
    obtain ⟨j, hj, e⟩ := List.mem_take_iff_getElem.mp hm
    have := idx_eq (List.getElem?_eq_some_iff.mpr ⟨by omega, e⟩)
    omega
  have hle : ys.length ≤ i := by
    by_contra hi'
    rw [e, List.getElem?_append_left (by omega)] at hi
    exact hnot (List.mem_of_getElem? hi)
  obtain ⟨y, hy⟩ : ∃ y, (ofList l).toList[k]? = some y := ⟨_, List.getElem?_eq_getElem (hk.trans hlt)⟩
  have hm : y ∈ insertAllNew [] ys := by
    rw [htake]
    refine List.mem_of_getElem? (i := k) ?_
    rwa [List.getElem?_take_of_lt hk]
  obtain ⟨j, hj⟩ := List.mem_iff_getElem?.mp ((mem_insertAllNew.mp hm).resolve_left List.not_mem_nil)
  have hjlt := (List.getElem?_eq_some_iff.mp hj).1
  refine ⟨j, by omega, y, ?_, idx_eq hy⟩
  rw [e, List.getElem?_append_left hjlt, hj]

end

namespace Partition

variable {p q : Partition} {moves : List (List (Option Nat))} {s t : Nat}

/-! ## One round -/

theorem size_refine (p : Partition) (moves : List (List (Option Nat))) :
    (p.refine moves).1.size = moves.length := by
  simp [refine]

theorem getElem?_refine (hs : s < moves.length) : (p.refine moves).1[s]? =
    some ((IndexedSet.ofList (moves.mapIdx p.profile)).idx (p.profile s moves[s])) := by
  simp [refine, hs]

theorem profile_mem (hs : s < moves.length) : p.profile s moves[s] ∈ moves.mapIdx p.profile :=
  List.mem_mapIdx.mpr ⟨s, hs, rfl⟩

theorem refine_eq_iff (hs : s < moves.length) (ht : t < moves.length) :
    (p.refine moves).1[s]? = (p.refine moves).1[t]? ↔ p.profile s moves[s] = p.profile t moves[t] := by
  rw [getElem?_refine hs, getElem?_refine ht, Option.some_inj]
  exact IndexedSet.idx_inj (IndexedSet.mem_ofList.mpr (profile_mem hs))
    (IndexedSet.mem_ofList.mpr (profile_mem ht))

/-- Classes are numbered by their first members. -/
def Ordered (p : Partition) : Prop :=
  ∀ {s k : Nat}, p[s]? = some k → ∀ j < k, ∃ r < s, p[r]? = some j

theorem ordered_refine (p : Partition) (moves : List (List (Option Nat))) :
    (p.refine moves).1.Ordered := by
  intro s k h j hj
  have hs : s < moves.length := by
    rw [← size_refine p]
    exact (Array.getElem?_eq_some_iff.mp h).1
  rw [getElem?_refine hs, Option.some_inj] at h
  have hi : (moves.mapIdx p.profile)[s]? = some (p.profile s moves[s]) := by simp [hs]
  obtain ⟨r, hr, y, hy, e⟩ := IndexedSet.exists_of_lt_idx_ofList hi (h ▸ hj)
  have hr' : r < moves.length := hr.trans hs
  refine ⟨r, hr, ?_⟩
  rw [getElem?_refine hr']
  simp only [List.getElem?_mapIdx, List.getElem?_eq_getElem hr', Option.map_some, Option.some_inj] at hy
  rw [hy, e]

theorem Ordered.lt_of_lt (h : p.Ordered) {j k : Nat} (hs : IsLeast {r | p[r]? = some j} s)
    (ht : IsLeast {r | p[r]? = some k} t) (hjk : j < k) : s < t := by
  obtain ⟨r, hr, hj⟩ := h ht.1 j hjk
  exact (hs.2 hj).trans_lt hr

theorem Ordered.lt_iff (h : p.Ordered) {j k : Nat} (hs : IsLeast {r | p[r]? = some j} s)
    (ht : IsLeast {r | p[r]? = some k} t) : j < k ↔ s < t := by
  refine ⟨h.lt_of_lt hs ht, ?_⟩
  intro hst
  rcases Nat.lt_trichotomy j k with hjk | rfl | hkj
  · exact hjk
  · exact absurd (hs.unique ht) hst.ne
  · exact absurd (h.lt_of_lt ht hs hkj) hst.not_gt

/-! ## The number of classes -/

/-- The numbers of the classes are those below `count`, in the order of first members. -/
structure InOrder (p : Partition) (count : Nat) : Prop where
  lt_count_iff : ∀ k, k < count ↔ ∃ s : Nat, p[s]? = some k
  lt_iff : ∀ j k s t : Nat, IsLeast {r | p[r]? = some j} s → IsLeast {r | p[r]? = some k} t →
    (j < k ↔ s < t)

def classCount (p : Partition) : Nat := p.toList.toFinset.card

theorem classCount_le_size (p : Partition) : p.classCount ≤ p.size := List.toFinset_card_le _

theorem snd_refine (p : Partition) (moves : List (List (Option Nat))) :
    (p.refine moves).2 = (moves.mapIdx p.profile).toFinset.card := by
  have hfound : (IndexedSet.ofList (moves.mapIdx p.profile)).toList.toFinset =
      (moves.mapIdx p.profile).toFinset := by
    ext x
    rw [List.mem_toFinset, List.mem_toFinset, ← IndexedSet.mem_def, IndexedSet.mem_ofList]
  rw [← hfound, List.toFinset_card_of_nodup (IndexedSet.nodup_toList _)]
  rfl

theorem classCount_refine (p : Partition) (moves : List (List (Option Nat))) :
    (p.refine moves).1.classCount = (p.refine moves).2 := by
  rw [snd_refine, classCount, refine, List.toList_toArray]
  have e : ((moves.mapIdx p.profile).map (IndexedSet.ofList (moves.mapIdx p.profile)).idx).toFinset =
      (moves.mapIdx p.profile).toFinset.image (IndexedSet.ofList (moves.mapIdx p.profile)).idx := by
    ext k
    simp
  rw [e]
  refine Finset.card_image_of_injOn fun x hx y hy => (IndexedSet.idx_inj ?_ ?_).mp
  · exact IndexedSet.mem_ofList.mpr (List.mem_toFinset.mp hx)
  · exact IndexedSet.mem_ofList.mpr (List.mem_toFinset.mp hy)

/-- The classes as the profiles show them. -/
theorem image_head_profiles (hp : p.size = moves.length) :
    (moves.mapIdx p.profile).toFinset.image List.head? = p.toList.toFinset.image (some ∘ some) := by
  ext k
  simp only [Finset.mem_image, List.mem_toFinset, List.mem_mapIdx, Function.comp_apply]
  constructor
  · intro h
    obtain ⟨_, ⟨s, hs, rfl⟩, rfl⟩ := h
    exact ⟨p[s], by simp, by simp [profile, hp, hs]⟩
  · intro h
    obtain ⟨k, hk, rfl⟩ := h
    obtain ⟨s, hs, rfl⟩ := List.mem_iff_getElem.mp hk
    have hs : s < p.size := by simpa using hs
    exact ⟨_, ⟨s, hp ▸ hs, rfl⟩, by simp [profile, hs]⟩

theorem card_image_head_profiles (hp : p.size = moves.length) :
    ((moves.mapIdx p.profile).toFinset.image List.head?).card = p.classCount := by
  rw [image_head_profiles hp]
  exact Finset.card_image_of_injective _ fun x y e => by simpa using e

theorem classCount_le_refine (hp : p.size = moves.length) : p.classCount ≤ (p.refine moves).2 := by
  rw [snd_refine, ← card_image_head_profiles hp]
  exact Finset.card_image_le

/-- A round that does not add a class separates nothing new. -/
theorem refine_eq_iff_of_classCount (hp : p.size = moves.length)
    (h : (p.refine moves).2 = p.classCount) (hs : s < moves.length) (ht : t < moves.length) :
    (p.refine moves).1[s]? = (p.refine moves).1[t]? ↔ p[s]? = p[t]? := by
  rw [refine_eq_iff hs ht]
  rw [snd_refine, ← card_image_head_profiles hp] at h
  have hinj := Finset.card_image_iff.mp h.symm
  refine ⟨fun e => (List.cons.inj e).1, fun e => hinj ?_ ?_ ?_⟩
  · exact List.mem_toFinset.mpr (profile_mem hs)
  · exact List.mem_toFinset.mpr (profile_mem ht)
  · simp [profile, e]

/-! ## All rounds -/

/-- Rounds until one leaves the number of classes as it was, and what they end in. -/
inductive Settles (moves : List (List (Option Nat))) : Partition → Nat → Partition × Nat → Prop
  | stop {p : Partition} {count : Nat} :
      (p.refine moves).2 = count → Settles moves p count (p.refine moves)
  | again {p : Partition} {count : Nat} {r : Partition × Nat} : (p.refine moves).2 ≠ count →
      Settles moves (p.refine moves).1 (p.refine moves).2 r → Settles moves p count r

/-- The first round has no number to compare with. -/
theorem count_le_classCount {count : Nat} (hcount : count = 0 ∨ count = p.classCount) :
    count ≤ p.classCount := by
  rcases hcount with h | h <;> omega

/-- There cannot be more rounds than states, as all but the last add a class. -/
theorem settles_refineN {n count : Nat} (hp : p.size = moves.length)
    (hcount : count = 0 ∨ count = p.classCount) (hn : moves.length < n + count) :
    Settles moves p count (refineN moves n p count) := by
  have hle := count_le_classCount hcount
  induction n generalizing p count with
  | zero =>
    have := classCount_le_size p
    omega
  | succ n ih =>
    simp only [refineN]
    split_ifs with h
    · exact .stop h
    · have hadd := classCount_le_refine hp
      have hcl := classCount_refine p moves
      exact .again h (ih (size_refine p moves) (.inr hcl.symm) (by omega) hcl.ge)

/-- The rounds end in a refinement of some `q` that separates no more than `q`, and `q` has
    what every round keeps. -/
theorem Settles.exists_eq {count : Nat} {r : Partition × Nat} {P : Partition → Prop}
    (h : Settles moves p count r) (hp : p.size = moves.length)
    (hcount : count = 0 ∨ count = p.classCount) (hP : P p)
    (hstep : ∀ q : Partition, q.size = moves.length → P q → P (q.refine moves).1) :
    ∃ q : Partition, r = q.refine moves ∧ q.size = moves.length ∧ P q ∧
      ∀ s < moves.length, ∀ t < moves.length,
        ((q.refine moves).1[s]? = (q.refine moves).1[t]? ↔ q[s]? = q[t]?) := by
  induction h with
  | @stop p _ h =>
    have hle := count_le_classCount hcount
    have hadd := classCount_le_refine hp
    refine ⟨p, rfl, hp, hP, ?_⟩
    intro s hs t ht
    exact refine_eq_iff_of_classCount hp (by omega) hs ht
  | @again p _ _ _ _ ih =>
    exact ih (size_refine p moves) (.inr (classCount_refine p moves).symm) (hstep p hp hP)

/-! ## First members -/

/-- `firsts` has the first place of each number in a list. -/
structure Firsts (classes firsts : List Nat) : Prop where
  eq_some : ∀ {k s : Nat}, firsts[k]? = some s → classes[s]? = some k ∧ ∀ r < s, classes[r]? ≠ some k
  lt_length : ∀ {s k : Nat}, classes[s]? = some k → k < firsts.length

/-- Adds the place `s` of the number `k` if all smaller ones are there. -/
def addFirst (found : Array Nat) : Nat × Nat → Array Nat
  | (k, s) => if k = found.size then found.push s else found

theorem Firsts.addFirst {l : List Nat} {k : Nat} {found : Array Nat} (h : Firsts l found.toList)
    (hk : ∀ j < k, ∃ r < l.length, l[r]? = some j) :
    Firsts (l ++ [k]) (addFirst found (k, l.length)).toList := by
  have hl {s : Nat} (hs : s < l.length) : (l ++ [k])[s]? = l[s]? := List.getElem?_append_left hs
  have hlast : (l ++ [k])[l.length]? = some k := by simp
  have cases_last {s j : Nat} (hs : (l ++ [k])[s]? = some j) :
      l[s]? = some j ∨ s = l.length ∧ j = k := by
    have hslt := (List.getElem?_eq_some_iff.mp hs).1
    rw [List.length_append, List.length_singleton] at hslt
    rcases Nat.lt_succ_iff_lt_or_eq.mp hslt with hs' | rfl
    · exact .inl (hl hs' ▸ hs)
    · exact .inr ⟨rfl, Option.some.inj (hs.symm.trans hlast)⟩
  have old {j s : Nat} (hs : found.toList[j]? = some s) :
      (l ++ [k])[s]? = some j ∧ ∀ r < s, (l ++ [k])[r]? ≠ some j := by
    obtain ⟨hs, hfirst⟩ := h.eq_some hs
    have hlt := (List.getElem?_eq_some_iff.mp hs).1
    exact ⟨hl hlt ▸ hs, fun r hr => hl (hr.trans hlt) ▸ hfirst r hr⟩
  rw [Partition.addFirst]
  split_ifs with hsize
  · refine ⟨fun {j s} hs => ?_, fun {s j} hs => ?_⟩
    · rw [Array.toList_push, List.getElem?_append] at hs
      split_ifs at hs with hj
      · exact old hs
      · have hs' := List.mem_singleton.mp (List.mem_of_getElem? hs)
        have hj' := (List.getElem?_eq_some_iff.mp hs).1
        rw [List.length_singleton, Array.length_toList] at hj'
        rw [Array.length_toList] at hj
        obtain rfl : j = k := by omega
        subst hs'
        refine ⟨hlast, ?_⟩
        intro r hr e
        have := h.lt_length (hl hr ▸ e)
        rw [Array.length_toList] at this
        omega
    · rw [Array.toList_push, List.length_append, List.length_singleton]
      rcases cases_last hs with hs | ⟨-, rfl⟩
      · have := h.lt_length hs
        omega
      · rw [Array.length_toList]
        omega
  · refine ⟨old, fun {s j} hs => ?_⟩
    rcases cases_last hs with hs | ⟨-, rfl⟩
    · exact h.lt_length hs
    · -- A larger number would leave out the one that is due next.
      by_contra hj
      rw [Array.length_toList] at hj
      obtain ⟨r, hr, e⟩ := hk found.size (by omega)
      have := h.lt_length e
      rw [Array.length_toList] at this
      omega

theorem firsts_foldl (classes : List Nat)
    (h : ∀ {s k : Nat}, classes[s]? = some k → ∀ j < k, ∃ r < s, classes[r]? = some j) :
    Firsts classes (classes.zipIdx.foldl addFirst #[]).toList := by
  induction classes using List.reverseRecOn with
  | nil => exact ⟨nofun, nofun⟩
  | append_singleton l k ih =>
    have hl {s : Nat} (hs : s < l.length) : (l ++ [k])[s]? = l[s]? := List.getElem?_append_left hs
    have ih := ih fun {s j} hs i hi => by
      have hlt := (List.getElem?_eq_some_iff.mp hs).1
      obtain ⟨r, hr, e⟩ := h (hl hlt ▸ hs) i hi
      exact ⟨r, hr, hl (hr.trans hlt) ▸ e⟩
    have hk : ∀ j < k, ∃ r < l.length, l[r]? = some j := by
      intro j hj
      obtain ⟨r, hr, e⟩ := h (s := l.length) (by simp) j hj
      exact ⟨r, hr, hl hr ▸ e⟩
    have hstep := ih.addFirst hk
    rwa [List.zipIdx_append, List.foldl_append, List.zipIdx_singleton, Nat.zero_add,
      List.foldl_cons, List.foldl_nil]

theorem firsts_firstMembers (h : p.Ordered) : Firsts p.toList p.firstMembers := by
  refine firsts_foldl p.toList fun {s k} hs j hj => ?_
  rw [Array.getElem?_toList] at hs
  simpa using h hs j hj

theorem Firsts.length_eq {classes firsts : List Nat} (h : Firsts classes firsts) :
    firsts.length = classes.toFinset.card := by
  have hrange : classes.toFinset = Finset.range firsts.length := by
    ext k
    rw [List.mem_toFinset, Finset.mem_range, List.mem_iff_getElem?]
    constructor
    · intro hk
      obtain ⟨s, hs⟩ := hk
      exact h.lt_length hs
    · exact fun hk => ⟨_, (h.eq_some (List.getElem?_eq_getElem hk)).1⟩
  rw [hrange, Finset.card_range]

end Partition

end RegularLang
