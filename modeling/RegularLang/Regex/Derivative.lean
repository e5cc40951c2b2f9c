/-
  RegularLang.Regex.Derivative — matching by derivatives: `r.deriv c` matches what
  may follow the letter `c` in the words of `r`, so a word matches when the regex
  left after its last letter matches the empty word.
-/

import RegularLang.Regex.Basic

namespace RegularLang.Regex

mutual

def deriv (c : Char) : Regex → Regex
  | .char d => if d ≠ epsilon ∧ d = c then eps else zero
  | .concat es => derivConcat c es
  | .sum es => unionOf (derivEach c es)
  | .star e => e.deriv c * .star e

/-- One operand after the other: the first operand's derivative before the rest
    and, where the first can be empty, the derivative of the rest. -/
def derivConcat (c : Char) : List Regex → Regex
  | [] => zero
  | e :: es =>
    if e.nullable then e.deriv c * product es + derivConcat c es else e.deriv c * product es

def derivEach (c : Char) : List Regex → List Regex
  | [] => []
  | e :: es => e.deriv c :: derivEach c es

end

theorem derivEach_eq (c : Char) (es : List Regex) : derivEach c es = es.map (deriv c) := by
  induction es <;> simp [derivEach, *]

@[simp] theorem deriv_sum (c : Char) (es : List Regex) :
    (sum es).deriv c = unionOf (es.map (deriv c)) := by rw [deriv, derivEach_eq]

@[simp] theorem deriv_star (c : Char) (e : Regex) : (star e).deriv c = e.deriv c * star e := rfl

@[simp] theorem deriv_zero (c : Char) : zero.deriv c = zero := rfl

/-- The derivative by the letters of a word in turn. Once nothing can match, the other
    letters are not looked at. -/
def derivWord : Regex → List Char → Regex
  | r, [] => r
  | r, c :: w => if r.isZero then r else (r.deriv c).derivWord w

@[simp] theorem derivWord_nil (r : Regex) : r.derivWord [] = r := rfl

@[simp] theorem derivWord_zero (w : List Char) : zero.derivWord w = zero := by
  cases w <;> rfl

/-- Stopping early changes nothing. -/
@[simp] theorem derivWord_cons (r : Regex) (c : Char) (w : List Char) :
    r.derivWord (c :: w) = (r.deriv c).derivWord w := by
  by_cases h : r.isZero
  · rw [eq_zero_of_isZero h, derivWord_zero, deriv_zero, derivWord_zero]
  · rw [derivWord, if_neg h]

theorem derivWord_eq_foldl (r : Regex) (w : List Char) :
    r.derivWord w = w.foldl (fun r c => r.deriv c) r := by
  induction w generalizing r with
  | nil => rfl
  | cons c w ih => rw [derivWord_cons, ih, List.foldl_cons]

def accepts (r : Regex) (w : List Char) : Bool := (r.derivWord w).nullable

end RegularLang.Regex
