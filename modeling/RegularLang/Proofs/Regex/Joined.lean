/-
  RegularLang.Proofs.Regex.Joined — what the simplifying constructors keep of their
  operands: the letters, and every property that joining and starring keep.
-/

import Mathlib.Data.List.Induction
import RegularLang.Regex.Basic

namespace RegularLang.Regex

/-! ## Letters

The constructors write no letters but those of their operands, and a union writes all of
them. -/

section

variable {r s : Regex} {c : Char}

theorem mem_letters_add : c ∈ (r + s).letters ↔ c ∈ r.letters ∨ c ∈ s.letters := by
  show c ∈ (add r s).letters ↔ _
  unfold add
  split_ifs with hr hs
  · simp [eq_zero_of_isZero hr, zero]
  · simp [eq_zero_of_isZero hs, zero]
  · split <;> simp [or_comm]

theorem mem_letters_of_mul (h : c ∈ (r * s).letters) : c ∈ r.letters ∨ c ∈ s.letters := by
  change c ∈ (mul r s).letters at h
  unfold mul at h
  split_ifs at h
  · exact .inl h
  · cases h
  · exact .inr h
  · exact .inl h
  · split at h <;> simpa [or_comm] using h

theorem mem_letters_of_closure (h : c ∈ r.closure.letters) : c ∈ r.letters := by
  unfold closure at h
  split_ifs at h
  · cases h
  · split at h <;> exact h

theorem mem_letters_unionOf {rs : List Regex} :
    c ∈ (unionOf rs).letters ↔ ∃ r ∈ rs, c ∈ r.letters := by
  induction rs using List.reverseRecOn with
  | nil => simp [zero]
  | append_singleton rs s ih =>
    rw [unionOf_append_singleton, mem_letters_add, ih]
    simp [or_and_right, exists_or]

end

/-! ## Stable properties

A property that characters and ∅ have, and that stays when regexes with it are joined or
starred, is one of every regex that is put together by the constructors alone. -/

structure Stable (P : Regex → Prop) : Prop where
  char : ∀ c, P (.char c)
  zero : P zero
  add : ∀ {r s}, P r → P s → P (r + s)
  mul : ∀ {r s}, P r → P s → P (r * s)
  closure : ∀ {r}, P r → P r.closure

namespace Stable

variable {P : Regex → Prop} {rs : List Regex} (hP : Stable P)

include hP

theorem unionOf (h : ∀ r ∈ rs, P r) : P (Regex.unionOf rs) := by
  induction rs using List.reverseRecOn with
  | nil => exact hP.zero
  | append_singleton rs s ih =>
    rw [List.forall_mem_append, List.forall_mem_singleton] at h
    rw [unionOf_append_singleton]
    exact hP.add (ih h.1) h.2

theorem product (h : ∀ r ∈ rs, P r) : P (Regex.product rs) := by
  induction rs using List.reverseRecOn with
  | nil => exact hP.char epsilon
  | append_singleton rs s ih =>
    rw [List.forall_mem_append, List.forall_mem_singleton] at h
    rw [product_append_singleton]
    exact hP.mul (ih h.1) h.2

theorem word (w : List Char) : P (Regex.word w) := by
  apply hP.product
  intro r hr
  obtain ⟨c, -, rfl⟩ := List.mem_map.mp hr
  exact hP.char c

end Stable

end RegularLang.Regex
