/-
  RegularLang.Proofs.Regex.Reversed — the words of the reversed regex are the reversed
  words (`language_reversed`). A concatenation turns its operands around as well as each
  of them; a sum and a star only what they are made of.

  Every node stays: the tree is as large as before, over the same letters, and a second
  reversal gives it back (`reversed_exact`).
-/

import Mathlib.Algebra.Order.Ring.Nat
import RegularLang.Proofs.Regex.Quotient

namespace RegularLang

open Computability

theorem reverse_prod (ls : List (Language Char)) :
    ls.prod.reverse = (ls.map Language.reverse).reverse.prod := by
  induction ls with
  | nil => exact Language.reverse_one
  | cons l ls ih => simp [ih]

theorem reverse_sum (ls : List (Language Char)) :
    ls.sum.reverse = (ls.map Language.reverse).sum := by
  induction ls with
  | nil => exact Language.reverse_zero
  | cons l ls ih => rw [List.sum_cons, Language.reverse_add, ih, List.map_cons, List.sum_cons]

theorem reverse_singleton (w : List Char) : ({w} : Language Char).reverse = {w.reverse} := by
  ext v
  exact List.reverse_eq_iff

namespace Regex

theorem language_reversed (r : Regex) : r.reversed.language = r.language.reverse := by
  induction r with
  | char c =>
    rw [reversed_char, language_char]
    split_ifs
    · exact Language.reverse_one.symm
    · exact (reverse_singleton [c]).symm
  | concat es ih =>
    have h : es.map (language ∘ reversed) = es.map (Language.reverse ∘ language) :=
      List.map_congr_left ih
    rw [reversed_concat, language_concat, language_concat, reverse_prod, List.map_reverse,
      List.map_map, List.map_map, h]
  | sum es ih =>
    have h : es.map (language ∘ reversed) = es.map (Language.reverse ∘ language) :=
      List.map_congr_left ih
    rw [reversed_sum, language_sum, language_sum, reverse_sum, List.map_map, List.map_map, h]
  | star e ih => rw [reversed_star, language_star, ih, language_star, Language.reverse_kstar]

/-- A word that ends in `u` is, read backwards, one that begins with `u` backwards. -/
theorem append_mem_reversed_iff {r : Regex} {u v : List Char} :
    u.reverse ++ v ∈ r.reversed.language ↔ v.reverse ++ u ∈ r.language := by
  rw [language_reversed, Language.mem_reverse, List.reverse_append, List.reverse_reverse]

/-! ## The syntax tree -/

theorem sizeAll_eq (es : List Regex) : sizeAll es = (es.map size).sum := by
  induction es <;> simp [*]

theorem size_reversed (r : Regex) : r.reversed.size = r.size := by
  induction r with
  | char c => rfl
  | concat es ih =>
    have h : es.map (size ∘ reversed) = es.map size := List.map_congr_left ih
    rw [reversed_concat, size_concat, size_concat, sizeAll_eq, sizeAll_eq, List.map_reverse,
      List.sum_reverse, List.map_map, h]
  | sum es ih =>
    have h : es.map (size ∘ reversed) = es.map size := List.map_congr_left ih
    rw [reversed_sum, size_sum, size_sum, sizeAll_eq, sizeAll_eq, List.map_map, h]
  | star e ih => rw [reversed_star, size_star, size_star, ih]

theorem mem_letters_reversed {r : Regex} {c : Char} : c ∈ r.reversed.letters ↔ c ∈ r.letters := by
  induction r with
  | char d => rfl
  | concat es ih | sum es ih =>
    simp only [reversed_concat, reversed_sum, letters_concat, letters_sum, List.mem_flatMap,
      List.mem_reverse, List.mem_map, exists_exists_and_eq_and]
    exact exists_congr fun e => and_congr_right (ih e)
  | star e ih => exact ih

theorem alphabet_reversed (r : Regex) : r.reversed.alphabet = r.alphabet := by
  ext c
  rw [mem_alphabet, mem_alphabet, mem_letters_reversed]

theorem reversed_reversed (r : Regex) : r.reversed.reversed = r := by
  induction r with
  | char c => rfl
  | concat es ih =>
    have h : es.map (reversed ∘ reversed) = es.map id := List.map_congr_left ih
    rw [reversed_concat, reversed_concat, List.map_reverse, List.reverse_reverse, List.map_map, h,
      List.map_id]
  | sum es ih =>
    have h : es.map (reversed ∘ reversed) = es.map id := List.map_congr_left ih
    rw [reversed_sum, reversed_sum, List.map_map, h, List.map_id]
  | star e ih => rw [reversed_star, reversed_star, ih]

/-- Reversal turns every word around and keeps the letters and the size of the tree; done
    twice it changes nothing. -/
theorem reversed_exact (r : Regex) :
    (∀ w, w ∈ r.reversed.language ↔ w.reverse ∈ r.language) ∧
    r.reversed.alphabet = r.alphabet ∧ r.reversed.size = r.size ∧ r.reversed.reversed = r := by
  refine ⟨?_, alphabet_reversed r, size_reversed r, reversed_reversed r⟩
  intro w
  rw [language_reversed, Language.mem_reverse]

end Regex

end RegularLang
