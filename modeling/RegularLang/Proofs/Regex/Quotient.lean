/-
  RegularLang.Proofs.Regex.Quotient — derivatives are left quotients: `r.deriv c`
  matches `v` exactly when `r` matches `c :: v` (`mem_language_deriv`), and the derivative
  by a word matches what may follow the word (`derivWord_exact`). So matching by
  derivatives decides membership (`accepts_iff_mem`).

  A derivative simplifies as it builds; `language_unionOf` and `language_product` say
  that this keeps the language.
-/

import RegularLang.Language
import RegularLang.Regex.Derivative

namespace RegularLang

open Computability

/-! ## Words with a first letter -/

/-- The first letter of a product's word comes from the first factor, or from the
    second behind an empty word. -/
theorem cons_mem_mul {l m : Language Char} {c : Char} {v : List Char} :
    c :: v ∈ l * m ↔ (∃ u w, c :: u ∈ l ∧ w ∈ m ∧ u ++ w = v) ∨ [] ∈ l ∧ c :: v ∈ m := by
  rw [Language.mem_mul]
  constructor
  · intro h
    obtain ⟨x, hx, y, hy, e⟩ := h
    cases x with
    | nil =>
      rw [List.nil_append] at e
      exact .inr ⟨hx, e ▸ hy⟩
    | cons d x =>
      obtain ⟨rfl, rfl⟩ := List.cons.inj e
      exact .inl ⟨x, y, hx, hy, rfl⟩
  · intro h
    rcases h with ⟨u, w, hu, hw, rfl⟩ | ⟨hl, hm⟩
    · exact ⟨_, hu, _, hw, rfl⟩
    · exact ⟨_, hl, _, hm, rfl⟩

/-- The first letter of a closure's word begins a word of the language itself. -/
theorem cons_mem_kstar {l : Language Char} {c : Char} {v : List Char} :
    c :: v ∈ l∗ ↔ ∃ u w, c :: u ∈ l ∧ w ∈ l∗ ∧ u ++ w = v := by
  constructor
  · intro h
    obtain ⟨ws, e, hws⟩ := Language.mem_kstar_iff_exists_nonempty.mp h
    cases ws with
    | nil => cases e
    | cons x ws =>
      obtain ⟨hx, hne⟩ := hws x (List.mem_cons_self ..)
      obtain ⟨d, u, rfl⟩ := List.exists_cons_of_ne_nil hne
      obtain ⟨rfl, rfl⟩ := List.cons.inj e
      exact ⟨u, ws.flatten, hx,
        Language.join_mem_kstar fun y hy => (hws y (List.mem_cons_of_mem _ hy)).1, rfl⟩
  · intro hx
    obtain ⟨u, w, hu, hw, rfl⟩ := hx
    rw [← Language.one_add_self_mul_kstar_eq_kstar]
    exact .inr ⟨_, hu, _, hw, rfl⟩

theorem mem_sum_map {α : Type} {l : List α} {f : α → Language Char} {w : List Char} :
    w ∈ (l.map f).sum ↔ ∃ x ∈ l, w ∈ f x := by
  induction l with
  | nil => simp
  | cons x l ih =>
    rw [List.map_cons, List.sum_cons, Language.mem_add, ih]
    simp

namespace Regex

/-! ## Many operands -/

@[simp] theorem language_unionOf (rs : List Regex) :
    (unionOf rs).language = (rs.map language).sum := by
  induction rs using List.reverseRecOn with
  | nil => rfl
  | append_singleton rs r ih =>
    rw [unionOf_append_singleton, language_add, ih, List.map_append, List.sum_append,
      List.map_singleton, List.sum_singleton]

@[simp] theorem language_product (rs : List Regex) :
    (product rs).language = (rs.map language).prod := by
  induction rs using List.reverseRecOn with
  | nil => rfl
  | append_singleton rs r ih =>
    rw [product_append_singleton, language_mul, ih, List.map_append, List.prod_append,
      List.map_singleton, List.prod_singleton]

/-! ## Derivatives -/

theorem nil_mem_mul {l m : Language Char} : [] ∈ l * m ↔ [] ∈ l ∧ [] ∈ m := by
  simp [Language.mem_mul]

theorem nullable_iff_mem {r : Regex} : r.nullable ↔ [] ∈ r.language := by
  induction r with
  | char c =>
    rw [nullable_char, language_char, decide_eq_true_iff]
    split_ifs with h
    · exact iff_of_true h Language.nil_mem_one
    · exact iff_of_false h (List.cons_ne_nil c []).symm
  | concat es ih =>
    rw [nullable_concat, language_concat]
    induction es with
    | nil => exact iff_of_true rfl Language.nil_mem_one
    | cons e es ihs =>
      rw [List.all_cons, Bool.and_eq_true, List.map_cons, List.prod_cons, nil_mem_mul,
        ih e (List.mem_cons_self ..), ihs fun f hf => ih f (List.mem_cons_of_mem _ hf)]
  | sum es ih =>
    rw [nullable_sum, language_sum, List.any_eq_true, mem_sum_map]
    exact exists_congr fun e => and_congr_right (ih e)
  | star e _ => exact iff_of_true rfl (Language.nil_mem_kstar _)

theorem mem_language_derivConcat {es : List Regex} {c : Char} {v : List Char}
    (ih : ∀ e ∈ es, ∀ u, u ∈ (e.deriv c).language ↔ c :: u ∈ e.language) :
    v ∈ (derivConcat c es).language ↔ c :: v ∈ (es.map language).prod := by
  induction es generalizing v with
  | nil => exact iff_of_false (Language.notMem_zero v) (List.cons_ne_nil c v)
  | cons e es ihs =>
    have he := ih e (List.mem_cons_self ..)
    have hes := ihs (v := v) fun f hf => ih f (List.mem_cons_of_mem _ hf)
    have hd : v ∈ (e.deriv c * product es).language ↔
        ∃ u w, c :: u ∈ e.language ∧ w ∈ (es.map language).prod ∧ u ++ w = v := by
      simp only [language_mul, language_product, Language.mem_mul, he, exists_and_left]
    rw [List.map_cons, List.prod_cons, cons_mem_mul, ← nullable_iff_mem, derivConcat]
    split_ifs with hn
    · rw [language_add, Language.mem_add, hd, hes]
      simp [hn]
    · rw [hd]
      simp [hn]

theorem mem_language_deriv {r : Regex} {c : Char} {v : List Char} :
    v ∈ (r.deriv c).language ↔ c :: v ∈ r.language := by
  induction r generalizing v with
  | char d =>
    rw [deriv, language_char]
    by_cases hd : d = epsilon
    · rw [if_neg (fun h => h.1 hd), if_pos hd]
      exact iff_of_false (Language.notMem_zero v) (List.cons_ne_nil c v)
    · by_cases e : d = c
      · subst e
        rw [if_pos ⟨hd, rfl⟩, if_neg hd, language_eps, Language.mem_one]
        exact ⟨fun h => h ▸ rfl, fun h => (List.cons.inj h).2⟩
      · rw [if_neg (fun h => e h.2), if_neg hd]
        exact iff_of_false (Language.notMem_zero v) fun h => e (List.cons.inj h).1.symm
  | concat es ih =>
    rw [deriv, language_concat]
    exact mem_language_derivConcat fun e he u => ih e he
  | sum es ih =>
    rw [deriv_sum, language_unionOf, language_sum, List.map_map, mem_sum_map, mem_sum_map]
    exact exists_congr fun e => and_congr_right fun he => ih e he
  | star e ih =>
    rw [deriv_star, language_mul, language_star, cons_mem_kstar]
    simp only [Language.mem_mul, ih, exists_and_left]

theorem mem_language_derivWord {r : Regex} {u v : List Char} :
    v ∈ (r.derivWord u).language ↔ u ++ v ∈ r.language := by
  induction u generalizing r with
  | nil => rfl
  | cons c u ih => rw [derivWord_cons, ih, mem_language_deriv, List.cons_append]

/-- Matching by derivatives is membership. -/
theorem accepts_iff_mem {r : Regex} {w : List Char} : r.accepts w ↔ w ∈ r.language := by
  rw [accepts, nullable_iff_mem, mem_language_derivWord, List.append_nil]

/-- The derivative by a word matches what may follow the word, so that it matches the
    empty word exactly when the word itself matches. Where the derivatives stop at ∅, all
    of them together would be ∅ as well. -/
theorem derivWord_exact (r : Regex) (u : List Char) :
    (∀ v, v ∈ (r.derivWord u).language ↔ u ++ v ∈ r.language) ∧
      ((r.derivWord u).nullable ↔ u ∈ r.language) ∧
      r.derivWord u = u.foldl (fun r c => r.deriv c) r :=
  ⟨fun _ => mem_language_derivWord, accepts_iff_mem, derivWord_eq_foldl r u⟩

end Regex

end RegularLang
