/-
  RegularLang.Regex.Printer — regexes as infix text. A sum stands in parentheses,
  a concatenation does not, and the operand of a star does unless it is a
  character or a sum. The empty sum is `∅` and the empty word `ε`. A letter that
  means something in infix text is written after a backslash.
-/

import RegularLang.Regex.Basic
import RegularLang.Text

namespace RegularLang

/-- Characters that infix text gives a meaning of their own. -/
def isSpecial (c : Char) : Bool :=
  c ∈ ['(', ')', '\\', '+', '|', '*', 'ε', '∅', '1'] || isBlank c

def renderLetter (c : Char) : List Char :=
  if c = epsilon then ['ε'] else if isSpecial c then ['\\', c] else [c]

namespace Regex

/-- Whether a star may follow the text without parentheses. -/
def isUnit : Regex → Bool
  | .char _ => true
  | .sum (_ :: _) => true
  | _ => false

mutual

def render : Regex → List Char
  | .char c => renderLetter c
  | .concat es => renderAll es
  | .sum [] => ['∅']
  | .sum (e :: es) => '(' :: (e.render ++ renderTerms es) ++ [')']
  | .star e => if e.isUnit then e.render ++ ['*'] else '(' :: e.render ++ [')', '*']

def renderAll : List Regex → List Char
  | [] => []
  | e :: es => e.render ++ renderAll es

/-- The terms of a sum after its first. -/
def renderTerms : List Regex → List Char
  | [] => []
  | e :: es => '+' :: e.render ++ renderTerms es

end

theorem renderAll_eq (es : List Regex) : renderAll es = es.flatMap render := by
  induction es <;> simp [renderAll, *]

theorem renderTerms_eq (es : List Regex) :
    renderTerms es = es.flatMap fun e => '+' :: e.render := by
  induction es <;> simp [renderTerms, *]

@[simp] theorem render_char (c : Char) : (char c).render = renderLetter c := rfl

@[simp] theorem render_concat (es : List Regex) : (concat es).render = es.flatMap render :=
  renderAll_eq es

@[simp] theorem render_zero : zero.render = ['∅'] := rfl

@[simp] theorem render_sum_cons (e : Regex) (es : List Regex) :
    (sum (e :: es)).render = '(' :: e.render ++ es.flatMap (fun e => '+' :: e.render) ++ [')'] := by
  simp [render, renderTerms_eq]

end Regex

end RegularLang
