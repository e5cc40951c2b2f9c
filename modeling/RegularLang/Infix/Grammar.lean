/-
  RegularLang.Infix.Grammar — what infix text means, without a way to read it: which
  tokens a text spells, and which regexes the grammar derives from tokens.

    sum   ::=  sequence (union sequence)*
    sequence  ::=  unit unit*
    unit  ::=  atom star*
    atom  ::=  ( )  |  ( sum )  |  ∅  |  ε  |  letter

  The grammar is not ordered: every derivation counts. White space between tokens is
  skipped, `+` and `|` are the same token, so are `ε` and `1`, and a backslash makes a
  letter of the special character after it.
-/

import RegularLang.Regex.Printer

namespace RegularLang.Infix

/-! ## Tokens -/

inductive Token where
  | openGroup
  | closeGroup
  | star
  | union
  | emptyWord
  | nothing
  | letter (c : Char)
  deriving DecidableEq

/-- The token that a character is, if it is neither blank nor a backslash. -/
def Token.ofChar (c : Char) : Token :=
  match c with
  | '(' => .openGroup
  | ')' => .closeGroup
  | '*' => .star
  | '+' | '|' => .union
  | 'ε' | '1' => .emptyWord
  | '∅' => .nothing
  | c => .letter c

theorem Token.ofChar_of_not_special {c : Char} (h : isSpecial c = false) :
    Token.ofChar c = .letter c := by
  unfold Token.ofChar
  split <;> first | rfl | exact absurd h (by decide)

/-! ## Meaning -/

/-- Spells out the tokens of a text. -/
inductive Spells : List Char → List Token → Prop
  | nil : Spells [] []
  | blank {c : Char} {text : List Char} {ts : List Token} :
      isBlank c = true → Spells text ts → Spells (c :: text) ts
  | escaped {c : Char} {text : List Char} {ts : List Token} :
      isSpecial c = true → Spells text ts → Spells ('\\' :: c :: text) (.letter c :: ts)
  | plain {c : Char} {text : List Char} {ts : List Token} :
      isBlank c = false → c ≠ '\\' → Spells text ts → Spells (c :: text) (.ofChar c :: ts)

theorem Spells.append {s t : List Char} {ts us : List Token} (hs : Spells s ts)
    (ht : Spells t us) : Spells (s ++ t) (ts ++ us) := by
  induction hs with
  | nil => exact ht
  | blank h _ ih => exact .blank h ih
  | escaped h _ ih => exact .escaped h ih
  | plain h h' _ ih => exact .plain h h' ih

/-- The tokens that a text spells, if it does. -/
def tokens? : List Char → Option (List Token)
  | [] => some []
  | ['\\'] => none
  | '\\' :: c :: text => if isSpecial c then (tokens? text).map (.letter c :: ·) else none
  | c :: text => if isBlank c then tokens? text else (tokens? text).map (.ofChar c :: ·)

inductive Category where
  | sum
  | sequence
  | unit
  | atom
  deriving DecidableEq

/-- A sum and a sequence are built up from the left. -/
inductive Derives : Category → List Token → Regex → Prop
  | firstTerm {ts : List Token} {e : Regex} : Derives .sequence ts e → Derives .sum ts e
  | addTerm {ts us : List Token} {e f : Regex} : Derives .sum ts e → Derives .sequence us f →
      Derives .sum (ts ++ .union :: us) (e + f)
  | firstUnit {ts : List Token} {e : Regex} : Derives .unit ts e →
      Derives .sequence ts (.eps * e)
  | addUnit {ts us : List Token} {e f : Regex} : Derives .sequence ts e → Derives .unit us f →
      Derives .sequence (ts ++ us) (e * f)
  | bare {ts : List Token} {e : Regex} : Derives .atom ts e → Derives .unit ts e
  | starred {ts : List Token} {e : Regex} (n : Nat) : Derives .atom ts e →
      Derives .unit (ts ++ .replicate (n + 1) .star) e.closure
  | emptyGroup : Derives .atom [.openGroup, .closeGroup] .zero
  | group {ts : List Token} {e : Regex} : Derives .sum ts e →
      Derives .atom (.openGroup :: ts ++ [.closeGroup]) e
  | nothing : Derives .atom [.nothing] .zero
  | emptyWord : Derives .atom [.emptyWord] .eps
  | letter (c : Char) : Derives .atom [.letter c] (.char c)

/-- The text means the regex. -/
def Means (text : List Char) (e : Regex) : Prop := ∃ ts, Spells text ts ∧ Derives .sum ts e

end RegularLang.Infix
