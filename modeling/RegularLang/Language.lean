/-
  RegularLang.Language — the words that a regex matches and those that an automaton reads,
  as languages in the sense of `Mathlib.Computability.Language`.
-/

import Mathlib.Computability.Language
import RegularLang.Automaton.Basic

namespace RegularLang

/-! ## The words of a regex

A concatenation is a product, a sum is a union, and a star is the Kleene closure. The
simplifying constructors keep the language of what they build (`language_add`,
`language_mul`, `language_closure`). -/

namespace Regex

open Computability

mutual

def language : Regex → Language Char
  | .char c => if c = epsilon then 1 else {[c]}
  | .concat es => languageAll es
  | .sum es => languageAny es
  | .star e => e.language∗

def languageAll : List Regex → Language Char
  | [] => 1
  | e :: es => e.language * languageAll es

def languageAny : List Regex → Language Char
  | [] => 0
  | e :: es => e.language + languageAny es

end

theorem languageAll_eq (es : List Regex) : languageAll es = (es.map language).prod := by
  induction es <;> simp [languageAll, *]

theorem languageAny_eq (es : List Regex) : languageAny es = (es.map language).sum := by
  induction es <;> simp [languageAny, *]

@[simp] theorem language_char (c : Char) :
    (char c).language = if c = epsilon then 1 else {[c]} := rfl

@[simp] theorem language_concat (es : List Regex) :
    (concat es).language = (es.map language).prod := languageAll_eq es

@[simp] theorem language_sum (es : List Regex) :
    (sum es).language = (es.map language).sum := languageAny_eq es

@[simp] theorem language_star (e : Regex) : (star e).language = e.language∗ := rfl

@[simp] theorem language_eps : eps.language = 1 := rfl

@[simp] theorem language_zero : zero.language = 0 := rfl

@[simp] theorem language_add (r s : Regex) : (r + s).language = r.language + s.language := by
  show (add r s).language = _
  unfold add
  split_ifs with hr hs
  · rw [eq_zero_of_isZero hr, language_zero, zero_add]
  · rw [eq_zero_of_isZero hs, language_zero, add_zero]
  · split <;> simp

@[simp] theorem language_mul (r s : Regex) : (r * s).language = r.language * s.language := by
  show (mul r s).language = _
  unfold mul
  split_ifs with hr hs hr' hs'
  · rw [eq_zero_of_isZero hr, language_zero, zero_mul]
  · rw [eq_zero_of_isZero hs, language_zero, mul_zero]
  · rw [eq_eps_of_isEps hr', language_eps, one_mul]
  · rw [eq_eps_of_isEps hs', language_eps, mul_one]
  · split <;> simp

@[simp] theorem language_closure (r : Regex) : r.closure.language = r.language∗ := by
  unfold closure
  split_ifs with h
  · rcases Bool.or_eq_true_iff.mp h with h | h
    · rw [eq_eps_of_isEps h, language_eps, kstar_one]
    · rw [eq_zero_of_isZero h, language_zero, language_eps, kstar_zero]
  · split
    · simp
    · rfl

end Regex

/-! ## The words of an automaton

Each transition of a path reads a word of its label; the language is that of the paths from
the start to a final state. -/

namespace Automaton

/-- `Path a p w q`: a path from `p` to `q` reads `w`. -/
inductive Path (a : Automaton) : Nat → List Char → Nat → Prop
  | nil (p : Nat) : Path a p [] p
  | cons {p q : Nat} {t : Transition} {v w : List Char} : t ∈ (a.stateAt p).transitions →
      v ∈ t.label.language → Path a t.target w q → Path a p (v ++ w) q

namespace Path

variable {a : Automaton} {p q r : Nat} {v w : List Char}

theorem single {t : Transition} (ht : t ∈ (a.stateAt p).transitions)
    (hw : w ∈ t.label.language) : a.Path p w t.target := by
  have h := Path.cons ht hw (Path.nil t.target)
  rwa [List.append_nil] at h

theorem append (hv : a.Path p v q) (hw : a.Path q w r) : a.Path p (v ++ w) r := by
  induction hv with
  | nil => exact hw
  | cons ht hl _ ih =>
    rw [List.append_assoc]
    exact .cons ht hl (ih hw)

end Path

/-- The words of the paths from the start to a final state. -/
def language (a : Automaton) : Language Char :=
  {w | ∃ q, a.isFinalAt q ∧ a.Path a.start w q}

end Automaton

end RegularLang
