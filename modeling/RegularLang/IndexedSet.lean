/-
  RegularLang.IndexedSet — finite sets that keep the order in which their elements
  arrived and find the place of any element quickly. As lists they grow by
  `insertNew`: what is there already is not added again.

  `explore` finds with them everything that some roots lead to, in order of discovery.
-/

import Std.Data.TreeMap

namespace RegularLang

/-! ## The same on lists -/

section

variable {α : Type} [DecidableEq α]

def insertNew (found : List α) (x : α) : List α := if x ∈ found then found else found ++ [x]

@[simp] theorem mem_insertNew {found : List α} {x z : α} :
    z ∈ insertNew found x ↔ z ∈ found ∨ z = x := by
  unfold insertNew
  split
  · exact ⟨Or.inl, fun h => h.elim id (· ▸ ‹_›)⟩
  · simp

theorem nodup_insertNew {found : List α} (x : α) (h : found.Nodup) : (insertNew found x).Nodup := by
  unfold insertNew
  split
  · exact h
  · rename_i hx
    exact List.nodup_append.mpr ⟨h, by simp, fun y hy z hz e => hx (List.mem_singleton.mp hz ▸ e ▸ hy)⟩

def insertAllNew (found xs : List α) : List α := xs.foldl insertNew found

@[simp] theorem mem_insertAllNew {found xs : List α} {z : α} :
    z ∈ insertAllNew found xs ↔ z ∈ found ∨ z ∈ xs := by
  induction xs generalizing found with
  | nil => simp [insertAllNew]
  | cons x xs ih =>
    have h : insertAllNew found (x :: xs) = insertAllNew (insertNew found x) xs := rfl
    rw [h, ih, mem_insertNew, List.mem_cons, or_assoc]

end

/-! ## Indexed sets -/

structure IndexedSet (α : Type) [Ord α] [Std.TransOrd α] [Std.LawfulEqOrd α] where
  items : Array α
  places : Std.TreeMap α Nat
  /-- `places` finds every element where it stands in `items`, and nothing else. -/
  places_eq_some : ∀ {x : α} {i : Nat}, places[x]? = some i ↔ items[i]? = some x

namespace IndexedSet

variable {α : Type} [Ord α] [Std.TransOrd α] [Std.LawfulEqOrd α]

def toList (s : IndexedSet α) : List α := s.items.toList

def size (s : IndexedSet α) : Nat := s.items.size

/-- The element at a place. -/
def get? (s : IndexedSet α) (i : Nat) : Option α := s.items[i]?

/-- The place of an element. -/
def idx? (s : IndexedSet α) (x : α) : Option Nat := s.places[x]?

/-- The place of an element that is there. -/
def idx (s : IndexedSet α) (x : α) : Nat := (s.idx? x).getD 0

/-- The elements from place `i` on. -/
def drop (s : IndexedSet α) (i : Nat) : List α := (s.items.extract i s.items.size).toList

def contains (s : IndexedSet α) (x : α) : Bool := (s.idx? x).isSome

def empty : IndexedSet α := ⟨#[], ∅, by simp⟩

def insert (s : IndexedSet α) (x : α) : IndexedSet α :=
  if h : x ∈ s.places then s
  else
    let size := s.items.size
    { places := s.places.insert x size
      items := s.items.push x
      places_eq_some := by
        intro y i
        have hx (i : Nat) : s.items[i]? ≠ some x := fun hi =>
          h (Std.TreeMap.mem_iff_isSome_getElem?.mpr (by simp [s.places_eq_some.mpr hi]))
        rw [Std.TreeMap.getElem?_insert, Array.getElem?_push]
        by_cases e : x = y
        · subst e
          by_cases hi : i = size <;> simp [hi, size, hx, eq_comm]
        · have hy : s.places[y]? ≠ some size := fun hi => by
            simpa [size] using s.places_eq_some.mp hi
          by_cases hi : i = size <;> simp [e, hi, size, hy, s.places_eq_some] }

def insertAll (s : IndexedSet α) (xs : List α) : IndexedSet α := xs.foldl insert s

def ofList (xs : List α) : IndexedSet α := empty.insertAll xs

/-! ## As a list -/

@[simp] theorem length_toList (s : IndexedSet α) : s.toList.length = s.size := rfl

@[simp] theorem get?_eq (s : IndexedSet α) (i : Nat) : s.get? i = s.toList[i]? := by
  simp [get?, toList]

theorem idx?_eq_some {s : IndexedSet α} {x : α} {i : Nat} :
    s.idx? x = some i ↔ s.toList[i]? = some x := by
  simp [idx?, toList, s.places_eq_some]

@[simp] theorem drop_eq (s : IndexedSet α) (i : Nat) : s.drop i = s.toList.drop i := by
  simp [drop, toList, List.take_of_length_le]

instance : Membership α (IndexedSet α) := ⟨fun s x => x ∈ s.toList⟩

theorem mem_def {s : IndexedSet α} {x : α} : x ∈ s ↔ x ∈ s.toList := Iff.rfl

@[simp] theorem contains_iff {s : IndexedSet α} {x : α} : s.contains x ↔ x ∈ s := by
  simp [contains, Option.isSome_iff_exists, idx?_eq_some, mem_def, List.mem_iff_getElem?]

instance (x : α) (s : IndexedSet α) : Decidable (x ∈ s) := decidable_of_iff _ contains_iff

theorem idx?_eq_none {s : IndexedSet α} {x : α} : s.idx? x = none ↔ x ∉ s := by
  rw [← contains_iff, contains]
  cases s.idx? x <;> simp

theorem getElem?_idx {s : IndexedSet α} {x : α} (h : x ∈ s) : s.toList[s.idx x]? = some x := by
  rw [← contains_iff, contains, Option.isSome_iff_exists] at h
  obtain ⟨i, hi⟩ := h
  rw [idx, hi]
  exact idx?_eq_some.mp hi

theorem idx_eq {s : IndexedSet α} {x : α} {i : Nat} (h : s.toList[i]? = some x) : s.idx x = i := by
  rw [idx, idx?_eq_some.mpr h]
  rfl

/-- What is there keeps its place. -/
theorem idx_of_prefix {s t : IndexedSet α} {x : α} (h : s.toList <+: t.toList) (hx : x ∈ s) :
    t.idx x = s.idx x := by
  obtain ⟨ys, h⟩ := h
  have hs := getElem?_idx hx
  apply idx_eq
  rw [← h, List.getElem?_append_left (List.getElem?_eq_some_iff.mp hs).1, hs]

theorem nodup_toList (s : IndexedSet α) : s.toList.Nodup := by
  rw [List.nodup_iff_pairwise_ne, List.pairwise_iff_getElem]
  intro i j hi hj hij e
  have h := idx?_eq_some.mpr (List.getElem?_eq_getElem hj)
  rw [← e, idx?_eq_some.mpr (List.getElem?_eq_getElem hi)] at h
  exact Nat.ne_of_lt hij (Option.some.inj h)

@[simp] theorem toList_empty : (empty : IndexedSet α).toList = [] := rfl

@[simp] theorem toList_insert [DecidableEq α] (s : IndexedSet α) (x : α) :
    (s.insert x).toList = insertNew s.toList x := by
  have h : x ∈ s.places ↔ x ∈ s.toList := by
    rw [← mem_def, ← contains_iff, contains, idx?, Std.TreeMap.mem_iff_isSome_getElem?]
  unfold insert insertNew
  split <;> simp_all [toList]

theorem insert_of_mem {s : IndexedSet α} {x : α} (h : x ∈ s) : s.insert x = s := by
  rw [← contains_iff, contains, idx?, ← Std.TreeMap.mem_iff_isSome_getElem?] at h
  exact dif_pos h

theorem toList_insert_of_not_mem [DecidableEq α] {s : IndexedSet α} {x : α} (h : x ∉ s) :
    (s.insert x).toList = s.toList ++ [x] := by
  rw [toList_insert]
  exact if_neg h

/-- What is new comes last. -/
theorem idx?_insert_of_not_mem [DecidableEq α] {s : IndexedSet α} {x : α} (h : x ∉ s) (y : α) :
    (s.insert x).idx? y = if y = x then some s.size else s.idx? y := by
  have hlast : (s.insert x).idx? x = some s.size := by
    rw [idx?_eq_some, toList_insert_of_not_mem h, ← length_toList, List.getElem?_concat_length]
  by_cases e : y = x
  · rw [if_pos e, e, hlast]
  · rw [if_neg e]
    refine Option.ext fun i => ?_
    rw [idx?_eq_some, idx?_eq_some, toList_insert_of_not_mem h, List.getElem?_append]
    split
    · rfl
    · refine iff_of_false (fun hy => e ?_) fun hy => ?_
      · exact List.mem_singleton.mp (List.mem_of_getElem? hy)
      · exact absurd (List.getElem?_eq_some_iff.mp hy).1 ‹_›

@[simp] theorem toList_insertAll [DecidableEq α] (s : IndexedSet α) (xs : List α) :
    (s.insertAll xs).toList = insertAllNew s.toList xs := by
  induction xs generalizing s with
  | nil => rfl
  | cons x xs ih => exact (ih _).trans (by rw [toList_insert]; rfl)

@[simp] theorem not_mem_empty (x : α) : x ∉ (empty : IndexedSet α) := by simp [mem_def]

@[simp] theorem mem_insert [DecidableEq α] {s : IndexedSet α} {x z : α} :
    z ∈ s.insert x ↔ z ∈ s ∨ z = x := by simp [mem_def]

@[simp] theorem mem_insertAll [DecidableEq α] {s : IndexedSet α} {xs : List α} {z : α} :
    z ∈ s.insertAll xs ↔ z ∈ s ∨ z ∈ xs := by simp [mem_def]

@[simp] theorem mem_ofList [DecidableEq α] {xs : List α} {z : α} : z ∈ ofList xs ↔ z ∈ xs := by
  simp [ofList]

end IndexedSet

/-! ## Exploration

Each thing found is looked at once, in turn; what it leads to and has not been found yet
is put at the end. -/

section

variable {α : Type} [Ord α] [Std.TransOrd α] [Std.LawfulEqOrd α]

/-- The things before place `i` have been looked at. -/
def exploreN (next : α → List α) : Nat → Nat → IndexedSet α → IndexedSet α
  | 0, _, found => found
  | n + 1, i, found =>
    match found.get? i with
    | none => found
    | some x => exploreN next n (i + 1) (found.insertAll (next x))

theorem exploreN_of_length_le {i : Nat} {found : IndexedSet α} (h : found.toList.length ≤ i)
    (next : α → List α) (n : Nat) : exploreN next n i found = found := by
  cases n with
  | zero => rfl
  | succ n => rw [exploreN, IndexedSet.get?_eq, List.getElem?_eq_none h]

/-- Complete when at most `bound` things can be reached. -/
def explore (next : α → List α) (bound : Nat) (roots : List α) : IndexedSet α :=
  exploreN next bound 0 (.ofList roots)

end

end RegularLang
