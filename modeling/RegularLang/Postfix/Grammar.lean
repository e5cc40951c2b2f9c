/-
  RegularLang.Postfix.Grammar — what postfix text consists of, without a way to read it:
  the expressions that it stands for, which tokens a text spells, how many operands tokens
  leave behind them, and where the first token stands that takes more than there are.
-/

import RegularLang.Postfix.Reader

namespace RegularLang.Postfix

/-! ## Expressions

Trees, with the value that the simplifying constructors give them, their postfix form, and
their infix text with parentheses around every operation. -/

inductive Expression where
  | letter (c : Char)
  | emptyWord
  | star (e : Expression)
  | union (e f : Expression)
  | concat (e f : Expression)
  deriving DecidableEq

namespace Expression

def value : Expression → Regex
  | letter c => .char c
  | emptyWord => .eps
  | star e => e.value.closure
  | union e f => e.value + f.value
  | concat e f => e.value * f.value

def tokens : Expression → List Token
  | letter c => [.letter c]
  | emptyWord => [.emptyWord]
  | star e => e.tokens ++ [.star]
  | union e f => e.tokens ++ f.tokens ++ [.union]
  | concat e f => e.tokens ++ f.tokens ++ [.concat]

def grouped : Expression → List Char
  | letter c => [c]
  | emptyWord => ['1']
  | star e => '(' :: e.grouped ++ [')', '*']
  | union e f => '(' :: e.grouped ++ '+' :: f.grouped ++ [')']
  | concat e f => '(' :: e.grouped ++ f.grouped ++ [')']

/-- All letters of the expression are such as postfix text has. -/
def Lettered : Expression → Prop
  | letter c => 'a' ≤ c ∧ c ≤ 'z'
  | emptyWord => True
  | star e => e.Lettered
  | union e f | concat e f => e.Lettered ∧ f.Lettered

end Expression

/-- The character that is the token. -/
def Token.symbol : Token → Char
  | .letter c => c
  | .emptyWord => '1'
  | .star => '*'
  | .union => '+'
  | .concat => '.'

/-- The stack after several more tokens. -/
def pushTokens (stack : List Regex) (ts : List Token) : Option (List Regex) :=
  ts.foldlM push? stack

theorem pushTokens_append (stack : List Regex) (ts us : List Token) :
    pushTokens stack (ts ++ us) = (pushTokens stack ts).bind (pushTokens · us) :=
  List.foldlM_append ..

/-- The tokens of an expression push its value. -/
theorem pushTokens_tokens (e : Expression) (stack : List Regex) :
    pushTokens stack e.tokens = some (e.value :: stack) := by
  induction e generalizing stack with
  | letter c => rfl
  | emptyWord => rfl
  | star e ih => rw [Expression.tokens, pushTokens_append, ih]; rfl
  | union e f ihe ihf | concat e f ihe ihf =>
    rw [Expression.tokens, pushTokens_append, pushTokens_append, ihe, Option.bind_some, ihf]; rfl

/-! ## Texts and tokens -/

/-- May stand between tokens. -/
def IsSeparator (c : Char) : Prop := c ∈ [' ', '\t', '\r', '\n', '\x0c']

def IsKnown (c : Char) : Prop :=
  'a' ≤ c ∧ c ≤ 'z' ∨ c ∈ ['1', '*', '+', '.'] ∨ IsSeparator c

instance : DecidablePred IsSeparator := fun _ => inferInstanceAs (Decidable (_ ∈ _))

instance : DecidablePred IsKnown := fun _ => inferInstanceAs (Decidable (_ ∨ _))

/-- A token that is a letter is one of those that postfix text has. -/
def Token.Lettered (t : Token) : Prop := ∀ c, t = .letter c → 'a' ≤ c ∧ c ≤ 'z'

/-- Spells out the tokens of a text. -/
inductive Spells : List Char → List Token → Prop
  | nil : Spells [] []
  | separator {c : Char} {text : List Char} {ts : List Token} :
      IsSeparator c → Spells text ts → Spells (c :: text) ts
  | token {t : Token} {text : List Char} {ts : List Token} :
      t.Lettered → Spells text ts → Spells (t.symbol :: text) (t :: ts)

theorem Spells.append {s t : List Char} {ts us : List Token} (hs : Spells s ts)
    (ht : Spells t us) : Spells (s ++ t) (ts ++ us) := by
  induction hs with
  | nil => exact ht
  | separator h _ ih => exact .separator h ih
  | token h _ ih => exact .token h ih

/-- How many operands the tokens leave for the next one. -/
def operands (ts : List Token) : Nat := ts.foldl (fun n t => n - t.arity + 1) 0

/-- Every token finds the operands that it takes. -/
def Supplied (ts : List Token) : Prop :=
  ∀ us t vs, ts = us ++ t :: vs → t.arity ≤ operands us

/-- Behind `pre` comes `t`, the first token of the text to find too few operands. -/
def Lacks (text pre : List Char) (t : Token) : Prop :=
  ∃ ts post, text = pre ++ t.symbol :: post ∧ Spells pre ts ∧ Supplied ts ∧ operands ts < t.arity

theorem operands_snoc (ts : List Token) (t : Token) :
    operands (ts ++ [t]) = operands ts - t.arity + 1 := by
  simp [operands]

theorem supplied_nil : Supplied [] := by
  intro us t vs h
  simp at h

theorem supplied_snoc_iff {ts : List Token} {t : Token} :
    Supplied (ts ++ [t]) ↔ Supplied ts ∧ t.arity ≤ operands ts := by
  constructor
  · intro h
    refine ⟨fun us u vs e => h us u (vs ++ [t]) (by simp [e]), h ts t [] rfl⟩
  · intro h us u vs e
    obtain ⟨hts, ht⟩ := h
    rcases List.eq_nil_or_concat vs with rfl | ⟨vs, v, rfl⟩
    · obtain ⟨rfl, hlast⟩ := List.append_inj' e rfl
      rwa [List.singleton_inj.mp hlast] at ht
    · rw [List.concat_eq_append, ← List.cons_append, ← List.append_assoc] at e
      exact hts us u vs (List.append_inj' e rfl).1

namespace Expression

/-! ## The last token of an expression -/

/-- The token that ends its postfix form. -/
def top : Expression → Token
  | letter c => .letter c
  | emptyWord => .emptyWord
  | star _ => .star
  | union _ _ => .union
  | concat _ _ => .concat

/-- The operands of the token that ends its postfix form. -/
def parts : Expression → List Expression
  | letter _ | emptyWord => []
  | star e => [e]
  | union e f | concat e f => [e, f]

theorem tokens_eq (e : Expression) : e.tokens = e.parts.flatMap tokens ++ [e.top] := by
  cases e <;> simp [tokens, parts, top]

theorem length_parts (e : Expression) : e.parts.length = e.top.arity := by
  cases e <;> rfl

theorem eq_of_parts {e f : Expression} (htop : e.top = f.top) (hparts : e.parts = f.parts) :
    e = f := by
  cases e <;> cases f <;> simp_all [top, parts]

/-- Every token ends an expression, whichever operands are taken. -/
theorem exists_of_top {t : Token} {es : List Expression} (h : es.length = t.arity) :
    ∃ e : Expression, e.top = t ∧ e.parts = es := by
  have two {es : List Expression} (h : es.length = 2) : ∃ e f, es = [e, f] := by
    rcases es with _ | ⟨e, _ | ⟨f, _ | ⟨g, es⟩⟩⟩ <;> simp at h ⊢
  cases t with
  | letter c => exact ⟨letter c, rfl, (List.length_eq_zero_iff.mp h).symm⟩
  | emptyWord => exact ⟨emptyWord, rfl, (List.length_eq_zero_iff.mp h).symm⟩
  | star =>
    obtain ⟨e, rfl⟩ := List.length_eq_one_iff.mp h
    exact ⟨star e, rfl, rfl⟩
  | union =>
    obtain ⟨e, f, rfl⟩ := two h
    exact ⟨union e f, rfl, rfl⟩
  | concat =>
    obtain ⟨e, f, rfl⟩ := two h
    exact ⟨concat e f, rfl, rfl⟩

end Expression

end RegularLang.Postfix
