/-
  RegularLang.Proofs.Regex.Tidy — the shape of what the simplifying constructors build
  (`Tidy`): a concatenation has two operands or more, none of them ∅ or ε; a sum of terms
  has two or more, none of them ∅ and the first no sum; a star is not one of ∅, of ε or
  of a star. Only the empty sum has no words then (`Tidy.language_eq_zero_iff`), and the
  letters written are those of the words (`Tidy.mem_letters_iff`).

  The constructors keep the shape (`stable_tidy`). So do the reversal, which goes past
  them, and the derivatives.
-/

import RegularLang.Proofs.Infix.Rendered
import RegularLang.Proofs.Regex.Joined
import RegularLang.Proofs.Regex.Quotient

namespace RegularLang

open Computability

namespace Regex

variable {r s e f : Regex} {c : Char} {w : List Char}

/-! ## Parts -/

def operands : Regex → List Regex
  | .char _ => []
  | .concat es | .sum es => es
  | .star e => [e]

/-- `Within e r`: `e` is `r` or stands in it at some depth. -/
inductive Within (e : Regex) : Regex → Prop
  | refl : Within e e
  | operand {f r : Regex} : f ∈ r.operands → Within e f → Within e r

/-! ## The shape -/

inductive Tidy : Regex → Prop
  | char (c : Char) : Tidy (.char c)
  | zero : Tidy .zero
  | concat {es : List Regex} : 2 ≤ es.length → (∀ e ∈ es, Tidy e) →
      (∀ e ∈ es, e ≠ .zero ∧ e ≠ .eps) → Tidy (.concat es)
  | sum {e : Regex} {es : List Regex} : es ≠ [] → (∀ f ∈ e :: es, Tidy f) →
      (∀ f ∈ e :: es, f ≠ .zero) → (∀ fs, e ≠ .sum fs) → Tidy (.sum (e :: es))
  | star {e : Regex} : Tidy e → e ≠ .zero → e ≠ .eps → (∀ f, e ≠ .star f) → Tidy (.star e)

theorem Tidy.operand (h : r.Tidy) (he : e ∈ r.operands) : e.Tidy ∧ e ≠ .zero := by
  cases h with
  | char | zero => cases he
  | concat _ hes hne => exact ⟨hes e he, (hne e he).1⟩
  | sum _ hes hne => exact ⟨hes e he, hne e he⟩
  | star hf hne =>
    obtain rfl := List.mem_singleton.mp he
    exact ⟨hf, hne⟩

theorem Tidy.within (h : r.Tidy) (he : Within e r) : e.Tidy := by
  induction he with
  | refl => exact h
  | operand hf _ ih => exact ih (h.operand hf).1

/-- ∅ stands nowhere but alone. -/
theorem Tidy.not_within_zero (h : r.Tidy) (hr : r ≠ .zero) : ¬Within .zero r := by
  intro hz
  induction hz with
  | refl => exact hr rfl
  | operand hf _ ih =>
    obtain ⟨ht, hne⟩ := h.operand hf
    exact ih ht hne

theorem Tidy.isFilled (h : r.Tidy) : r.isFilled := by
  induction h with
  | char c => rfl
  | zero => rfl
  | @concat es hlen _ _ ih =>
    rw [Regex.isFilled, isFilledAll_eq, Bool.and_eq_true, List.all_eq_true]
    refine ⟨?_, ih⟩
    cases es with
    | nil => cases hlen
    | cons => rfl
  | sum _ _ _ _ ih => rwa [Regex.isFilled, isFilledAll_eq, List.all_eq_true]
  | star _ _ _ _ ih => exact ih

/-! ### The simplifying constructors -/

theorem Tidy.add (hr : r.Tidy) (hs : s.Tidy) : (r + s).Tidy := by
  show (Regex.add r s).Tidy
  unfold Regex.add
  split_ifs with hr0 hs0
  · exact hs
  · exact hr
  · rw [isZero_iff] at hr0 hs0
    split
    · cases hr with
      | zero => exact absurd rfl hr0
      | @sum e es _ hes hne hsum =>
        show Tidy (.sum (e :: (es ++ [s])))
        refine .sum (by simp) ?_ ?_ hsum
        · exact List.forall_mem_append.mpr ⟨hes, List.forall_mem_singleton.mpr hs⟩
        · exact List.forall_mem_append.mpr ⟨hne, List.forall_mem_singleton.mpr hs0⟩
    · rename_i hsum
      exact .sum (by simp) (by simp [hr, hs]) (by simp [hr0, hs0]) hsum

theorem Tidy.mul (hr : r.Tidy) (hs : s.Tidy) : (r * s).Tidy := by
  show (Regex.mul r s).Tidy
  unfold Regex.mul
  split_ifs with hr0 hs0 hr1 hs1
  · exact hr
  · exact .zero
  · exact hs
  · exact hr
  · rw [isZero_iff] at hr0 hs0
    rw [isEps_iff] at hr1 hs1
    split
    · cases hr with
      | concat hlen hes hne =>
        refine .concat ?_ ?_ ?_
        · rw [List.length_append]
          omega
        · exact List.forall_mem_append.mpr ⟨hes, List.forall_mem_singleton.mpr hs⟩
        · exact List.forall_mem_append.mpr ⟨hne, List.forall_mem_singleton.mpr ⟨hs0, hs1⟩⟩
    · exact .concat le_rfl (by simp [hr, hs]) (by simp [hr0, hr1, hs0, hs1])

theorem Tidy.closure (hr : r.Tidy) : r.closure.Tidy := by
  unfold Regex.closure
  split_ifs with h
  · exact .char epsilon
  · rw [Bool.or_eq_true, not_or, isEps_iff, isZero_iff] at h
    split
    · exact hr
    · rename_i hstar
      exact .star hr h.2 h.1 hstar

theorem stable_tidy : Stable Tidy where
  char := .char
  zero := .zero
  add := .add
  mul := .mul
  closure := .closure

/-! ### Reversal -/

theorem reversed_eq_zero_iff : r.reversed = zero ↔ r = zero := by
  cases r <;> simp [Regex.zero]

theorem reversed_eq_eps_iff : r.reversed = eps ↔ r = eps := by
  cases r <;> simp [eps]

theorem Tidy.reversed (h : r.Tidy) : r.reversed.Tidy := by
  induction h with
  | char c => exact .char c
  | zero => exact .zero
  | concat hlen _ hne ih =>
    rw [reversed_concat]
    refine .concat (by simpa using hlen) (by simpa using ih) ?_
    simpa [reversed_eq_zero_iff, reversed_eq_eps_iff] using hne
  | @sum e es hes _ hne hsum ih =>
    rw [reversed_sum, List.map_cons]
    refine .sum (by simpa using hes) (by simpa using ih) ?_ ?_
    · simpa [reversed_eq_zero_iff] using hne
    · cases e <;> simp_all
  | @star e _ h0 h1 hstar ih =>
    rw [reversed_star]
    refine .star ih (mt reversed_eq_zero_iff.mp h0) (mt reversed_eq_eps_iff.mp h1) ?_
    cases e <;> simp_all

/-! ### Derivatives -/

theorem tidy_derivConcat {es : List Regex} (h : ∀ e ∈ es, e.Tidy ∧ (e.deriv c).Tidy) :
    (derivConcat c es).Tidy := by
  induction es with
  | nil => exact .zero
  | cons e es ih =>
    obtain ⟨⟨-, he⟩, hes⟩ := List.forall_mem_cons.mp h
    have hd : (e.deriv c * product es).Tidy := he.mul (stable_tidy.product fun f hf => (hes f hf).1)
    rw [derivConcat]
    split_ifs
    · exact hd.add (ih hes)
    · exact hd

theorem Tidy.deriv (h : r.Tidy) (c : Char) : (r.deriv c).Tidy := by
  induction h with
  | char d =>
    rw [Regex.deriv]
    split_ifs
    · exact .char epsilon
    · exact .zero
  | zero => exact .zero
  | concat _ hes _ ih => exact tidy_derivConcat fun e he => ⟨hes e he, ih e he⟩
  | sum _ _ _ _ ih =>
    rw [deriv_sum]
    exact stable_tidy.unionOf (List.forall_mem_map.mpr ih)
  | star he h0 h1 hstar ih => exact ih.mul (.star he h0 h1 hstar)

theorem Tidy.derivWord (h : r.Tidy) (w : List Char) : (r.derivWord w).Tidy := by
  induction w generalizing r with
  | nil => exact h
  | cons c w ih =>
    rw [derivWord_cons]
    exact ih (h.deriv c)

/-! ## Words -/

theorem exists_mem_prod {ls : List (Language Char)} (h : ∀ l ∈ ls, ∃ w, w ∈ l) :
    ∃ w, w ∈ ls.prod := by
  induction ls with
  | nil => exact ⟨[], Language.nil_mem_one⟩
  | cons l ls ih =>
    obtain ⟨⟨u, hu⟩, hls⟩ := List.forall_mem_cons.mp h
    obtain ⟨v, hv⟩ := ih hls
    rw [List.prod_cons]
    exact ⟨u ++ v, Language.append_mem_mul hu hv⟩

/-- Whatever is not ∅ has a word. -/
theorem Tidy.exists_mem (h : r.Tidy) (hr : r ≠ .zero) : ∃ w, w ∈ r.language := by
  induction h with
  | char c =>
    rw [language_char]
    split_ifs
    · exact ⟨[], Language.nil_mem_one⟩
    · exact ⟨[c], rfl⟩
  | zero => exact absurd rfl hr
  | concat _ _ hne ih =>
    rw [language_concat]
    exact exists_mem_prod (List.forall_mem_map.mpr fun e he => ih e he (hne e he).1)
  | sum _ _ hne _ ih =>
    obtain ⟨w, hw⟩ := ih _ (List.mem_cons_self ..) (hne _ (List.mem_cons_self ..))
    rw [language_sum]
    exact ⟨w, mem_sum_map.mpr ⟨_, List.mem_cons_self .., hw⟩⟩
  | star => exact ⟨[], Language.nil_mem_kstar _⟩

theorem Tidy.language_eq_zero_iff (h : r.Tidy) : r.language = 0 ↔ r = .zero := by
  constructor
  · intro hl
    by_contra hr
    obtain ⟨w, hw⟩ := h.exists_mem hr
    rw [hl] at hw
    exact Language.notMem_zero w hw
  · intro e
    rw [e, language_zero]

/-- Words have no letters but those that are written. -/
theorem mem_letters_of_mem_language (hw : w ∈ r.language) (hc : c ∈ w) : c ∈ r.letters := by
  induction r generalizing w with
  | char d =>
    rw [language_char] at hw
    rw [letters_char]
    split_ifs at hw ⊢
    · obtain rfl := (Language.mem_one w).mp hw
      cases hc
    · obtain rfl := Set.mem_singleton_iff.mp hw
      exact hc
  | concat es ih =>
    rw [language_concat] at hw
    rw [letters_concat]
    induction es generalizing w with
    | nil =>
      obtain rfl := (Language.mem_one w).mp hw
      cases hc
    | cons e es ihs =>
      rw [List.map_cons, List.prod_cons] at hw
      obtain ⟨u, hu, v, hv, rfl⟩ := Language.mem_mul.mp hw
      rw [List.flatMap_cons, List.mem_append]
      rcases List.mem_append.mp hc with hc | hc
      · exact .inl (ih e (List.mem_cons_self ..) hu hc)
      · exact .inr (ihs (fun f hf => ih f (List.mem_cons_of_mem _ hf)) hv hc)
  | sum es ih =>
    rw [language_sum] at hw
    obtain ⟨e, he, hw⟩ := mem_sum_map.mp hw
    rw [letters_sum]
    exact List.mem_flatMap.mpr ⟨e, he, ih e he hw hc⟩
  | star e ih =>
    obtain ⟨ws, rfl, hws⟩ := Language.mem_kstar.mp hw
    obtain ⟨u, hu, hc⟩ := List.mem_flatten.mp hc
    exact ih (hws u hu) hc

/-- Whatever is written stands in a word. -/
theorem Tidy.exists_mem_of_mem_letters (h : r.Tidy) :
    c ∈ r.letters → ∃ w ∈ r.language, c ∈ w := by
  intro hc
  induction h with
  | char d =>
    rw [letters_char] at hc
    rw [language_char]
    split_ifs at hc ⊢
    · cases hc
    · exact ⟨[d], rfl, hc⟩
  | zero => cases hc
  | concat _ hes hne ih =>
    rw [letters_concat] at hc
    obtain ⟨e, he, hce⟩ := List.mem_flatMap.mp hc
    obtain ⟨w, hw, hcw⟩ := ih e he hce
    -- The operands around it have words as well.
    obtain ⟨fs, gs, rfl⟩ := List.append_of_mem he
    have hword : ∀ l ∈ (fs ++ e :: gs).map language, ∃ u, u ∈ l :=
      List.forall_mem_map.mpr fun f hf => (hes f hf).exists_mem (hne f hf).1
    rw [List.map_append, List.map_cons, List.forall_mem_append, List.forall_mem_cons] at hword
    obtain ⟨u, hu⟩ := exists_mem_prod hword.1
    obtain ⟨v, hv⟩ := exists_mem_prod hword.2.2
    refine ⟨u ++ (w ++ v), ?_, by simp [hcw]⟩
    rw [language_concat, List.map_append, List.prod_append, List.map_cons, List.prod_cons]
    exact Language.append_mem_mul hu (Language.append_mem_mul hw hv)
  | sum _ _ _ _ ih =>
    rw [letters_sum] at hc
    obtain ⟨e, he, hc⟩ := List.mem_flatMap.mp hc
    obtain ⟨w, hw, hc⟩ := ih e he hc
    rw [language_sum]
    exact ⟨w, mem_sum_map.mpr ⟨e, he, hw⟩, hc⟩
  | @star e _ _ _ _ ih =>
    obtain ⟨w, hw, hcw⟩ := ih hc
    have hle : e.language ≤ e.language∗ := le_kstar
    exact ⟨w, hle hw, hcw⟩

theorem Tidy.mem_letters_iff (h : r.Tidy) : c ∈ r.letters ↔ ∃ w ∈ r.language, c ∈ w :=
  ⟨h.exists_mem_of_mem_letters, fun ⟨_, hw, hc⟩ => mem_letters_of_mem_language hw hc⟩

end Regex

end RegularLang
