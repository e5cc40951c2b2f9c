/-
  RegularLang.SortedSet — finite sets of letters or of state numbers, kept as
  strictly ascending lists. Letters are ordered by code point. Two sets with the
  same members are equal as values (`SortedSet.ext`).
-/

namespace RegularLang

/-- A type whose elements are told apart, and ordered, by a number. -/
class Numbered (α : Type) where
  number : α → Nat
  number_inj : ∀ {x y : α}, number x = number y → x = y

export Numbered (number number_inj)

instance : Numbered Nat := ⟨id, id⟩

instance : Numbered Char := ⟨Char.toNat, fun h => Char.ext (UInt32.toNat_inj.mp h)⟩

@[simp] theorem number_nat (n : Nat) : number n = n := rfl

@[simp] theorem number_char (c : Char) : number c = c.toNat := rfl

structure SortedSet (α : Type) [Numbered α] where
  toList : List α
  ascending : toList.Pairwise (number · < number ·)

/-- The letters of an automaton or a regex. -/
abbrev Alphabet := SortedSet Char

/-- The states that are active together. -/
abbrev StateSet := SortedSet Nat

variable {α : Type} [Numbered α]

/-! ## Insertion into an ascending list -/

def insertAscending (x : α) : List α → List α
  | [] => [x]
  | y :: ys =>
    if number x < number y then x :: y :: ys
    else if number y < number x then y :: insertAscending x ys
    else y :: ys

theorem mem_insertAscending {x z : α} {l : List α} :
    z ∈ insertAscending x l ↔ z = x ∨ z ∈ l := by
  induction l with
  | nil => simp [insertAscending]
  | cons y ys ih =>
    rw [insertAscending]
    split
    · simp
    · split
      · rw [List.mem_cons, ih, List.mem_cons, or_left_comm]
      · have e : x = y := number_inj (by omega)
        simp [e]

theorem pairwise_insertAscending (x : α) {l : List α} (h : l.Pairwise (number · < number ·)) :
    (insertAscending x l).Pairwise (number · < number ·) := by
  induction l with
  | nil => simp [insertAscending]
  | cons y ys ih =>
    obtain ⟨hy, hys⟩ := List.pairwise_cons.mp h
    rw [insertAscending]
    split
    · refine List.pairwise_cons.mpr ⟨fun z hz => ?_, h⟩
      rcases List.mem_cons.mp hz with rfl | hz
      · assumption
      · have := hy z hz; omega
    · split
      · refine List.pairwise_cons.mpr ⟨fun z hz => ?_, ih hys⟩
        rcases mem_insertAscending.mp hz with rfl | hz
        · assumption
        · exact hy z hz
      · exact h

namespace SortedSet

instance : Membership α (SortedSet α) := ⟨fun s x => x ∈ s.toList⟩

theorem mem_def {s : SortedSet α} {x : α} : x ∈ s ↔ x ∈ s.toList := Iff.rfl

theorem nodup_toList (s : SortedSet α) : s.toList.Nodup :=
  s.ascending.imp fun h e => absurd (congrArg number e) (Nat.ne_of_lt h)

theorem toList_inj {s t : SortedSet α} : s.toList = t.toList ↔ s = t := by
  cases s; cases t; simp

instance [DecidableEq α] (x : α) (s : SortedSet α) : Decidable (x ∈ s) :=
  inferInstanceAs (Decidable (x ∈ s.toList))

instance [DecidableEq α] : DecidableEq (SortedSet α) :=
  fun _ _ => decidable_of_iff _ toList_inj

/-- Same members, same set. -/
@[ext] theorem ext {s t : SortedSet α} (h : ∀ x, x ∈ s ↔ x ∈ t) : s = t := by
  obtain ⟨l, hl⟩ := s
  obtain ⟨m, hm⟩ := t
  rw [← toList_inj]
  simp only [mem_def] at h ⊢
  induction l generalizing m with
  | nil => exact (List.eq_nil_iff_forall_not_mem.mpr fun x hx => by simpa using (h x).mpr hx).symm
  | cons x l ih =>
    cases m with
    | nil => exact absurd ((h x).mp (List.mem_cons_self ..)) (by simp)
    | cons y m =>
      obtain ⟨hx, hxs⟩ := List.pairwise_cons.mp hl
      obtain ⟨hy, hys⟩ := List.pairwise_cons.mp hm
      have e : x = y := by
        rcases List.mem_cons.mp ((h x).mp (List.mem_cons_self ..)) with e | hxm
        · exact e
        rcases List.mem_cons.mp ((h y).mpr (List.mem_cons_self ..)) with e | hyl
        · exact e.symm
        have := hx y hyl
        have := hy x hxm
        omega
      subst e
      have tail : ∀ {l m : List α}, (∀ z ∈ l, number x < number z) →
          (∀ z, z ∈ x :: l → z ∈ x :: m) → ∀ z ∈ l, z ∈ m := fun hl h z hz =>
        (List.mem_cons.mp (h z (List.mem_cons_of_mem _ hz))).resolve_left
          fun e => absurd (hl z hz) (by simp [e])
      exact congrArg (x :: ·) (ih hxs m hys
        fun z => ⟨tail hx (fun z => (h z).mp) z, tail hy (fun z => (h z).mpr) z⟩)

def empty : SortedSet α := ⟨[], List.Pairwise.nil⟩

instance : Inhabited (SortedSet α) := ⟨empty⟩

@[simp] theorem not_mem_empty (x : α) : x ∉ (empty : SortedSet α) := by simp [mem_def, empty]

def singleton (x : α) : SortedSet α := ⟨[x], List.pairwise_singleton _ x⟩

@[simp] theorem mem_singleton {x y : α} : x ∈ singleton y ↔ x = y := by simp [mem_def, singleton]

def insert (s : SortedSet α) (x : α) : SortedSet α :=
  ⟨insertAscending x s.toList, pairwise_insertAscending x s.ascending⟩

@[simp] theorem mem_insert {x z : α} {s : SortedSet α} : z ∈ s.insert x ↔ z = x ∨ z ∈ s :=
  mem_insertAscending

/-- Adds every element of a list, the last first, which is quick where the list
    ascends. -/
def insertAll (s : SortedSet α) (xs : List α) : SortedSet α := xs.foldr (fun x s => s.insert x) s

@[simp] theorem insertAll_nil (s : SortedSet α) : s.insertAll [] = s := rfl

@[simp] theorem insertAll_cons (s : SortedSet α) (x : α) (xs : List α) :
    s.insertAll (x :: xs) = (s.insertAll xs).insert x := rfl

@[simp] theorem mem_insertAll {z : α} {xs : List α} {s : SortedSet α} :
    z ∈ s.insertAll xs ↔ z ∈ s ∨ z ∈ xs := by
  induction xs generalizing s with
  | nil => simp
  | cons x xs ih => simp [ih, or_left_comm]

def ofList (xs : List α) : SortedSet α := empty.insertAll xs

@[simp] theorem mem_ofList {z : α} {xs : List α} : z ∈ ofList xs ↔ z ∈ xs := by simp [ofList]

def union (s t : SortedSet α) : SortedSet α := s.insertAll t.toList

@[simp] theorem mem_union {z : α} {s t : SortedSet α} : z ∈ s.union t ↔ z ∈ s ∨ z ∈ t := by
  simp [union, mem_def (s := t)]

/-! ## Order -/

/-- Sets of states are ordered as their lists are. -/
instance : Ord StateSet := ⟨fun s t => compare s.toList t.toList⟩

instance : Std.TransOrd StateSet where
  eq_swap {s t} := Std.OrientedOrd.eq_swap (a := s.toList) (b := t.toList)
  isLE_trans {s t u} := Std.TransOrd.isLE_trans (a := s.toList) (b := t.toList) (c := u.toList)

instance : Std.LawfulEqOrd StateSet where
  eq_of_compare h := toList_inj.mp (Std.LawfulEqOrd.eq_of_compare h)

end SortedSet

end RegularLang
