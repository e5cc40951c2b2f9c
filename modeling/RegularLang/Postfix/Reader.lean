/-
  RegularLang.Postfix.Reader — postfix text read with a stack of regexes: a letter
  or `1` is pushed, `*` stars the top, `+` and `.` join the two on top in the order
  they were pushed. One regex is left at the end. An unknown symbol anywhere is
  reported before any other fault.
-/

import RegularLang.Regex.Basic
import RegularLang.Text

namespace RegularLang.Postfix

/-! ## Tokens

One character each: the letters from `a` to `z`, `1`, `*`, `+` and `.`. Space, tab, line feed,
form feed and carriage return are skipped; every other character is an unknown symbol. -/

inductive Token where
  | letter (c : Char)
  | emptyWord
  | star
  | union
  | concat
  deriving DecidableEq

/-- What error messages call the token. -/
def Token.text : Token → String
  | .letter _ => "letter"
  | .emptyWord => "1"
  | .star => "*"
  | .union => "+"
  | .concat => "."

/-- How many operands the token takes. -/
def Token.arity : Token → Nat
  | .letter _ | .emptyWord => 0
  | .star => 1
  | .union | .concat => 2

def Token.ofChar? (c : Char) : Option Token :=
  if 'a' ≤ c ∧ c ≤ 'z' then some (.letter c)
  else match c with
    | '1' => some .emptyWord
    | '*' => some .star
    | '+' => some .union
    | '.' => some .concat
    | _ => none

def isSkipped (c : Char) : Bool := c ∈ [' ', '\t', '\n', '\x0c', '\r']

structure Lexeme where
  /-- `none` is an unknown symbol. -/
  token? : Option Token
  span : Span
  deriving DecidableEq

/-- Every symbol of a text that begins at `offset`, unknown ones among them. -/
def lexemes (offset : Nat) : List Char → List Lexeme
  | [] => []
  | c :: text =>
    let next := offset + c.utf8Size
    if isSkipped c then lexemes next text
    else ⟨Token.ofChar? c, ⟨offset, next⟩⟩ :: lexemes next text

/-- The tokens, or the place of the first unknown symbol. -/
def tokens : List Lexeme → Except Span (List (Token × Span))
  | [] => .ok []
  | ⟨none, span⟩ :: _ => .error span
  | ⟨some t, span⟩ :: ls => (tokens ls).map ((t, span) :: ·)

def lex (text : List Char) : Except Span (List (Token × Span)) := tokens (lexemes 0 text)

/-! ## The stack -/

inductive Cause where
  | unknownSymbol
  | tooFewOperands (t : Token)
  | tooManyOperands (n : Nat)
  | noExpression
  deriving DecidableEq

def Cause.message : Cause → String
  | .unknownSymbol => "unknown symbol"
  | .tooFewOperands t =>
    "operator \x60" ++ t.text ++ "\x60 needs " ++ toString t.arity ++ " operand(s) on the stack"
  | .tooManyOperands n => toString n ++ " operands are left without an operator"
  | .noExpression => "empty expression"

structure Error where
  cause : Cause
  span : Span
  deriving DecidableEq

/-- The stack after one more token; the top comes first. -/
def push? (stack : List Regex) : Token → Option (List Regex)
  | .letter c => some (.char c :: stack)
  | .emptyWord => some (.eps :: stack)
  | .star =>
    match stack with
    | e :: stack => some (e.closure :: stack)
    | [] => none
  | .union =>
    match stack with
    | right :: left :: stack => some ((left + right) :: stack)
    | _ => none
  | .concat =>
    match stack with
    | right :: left :: stack => some ((left * right) :: stack)
    | _ => none

theorem push?_eq_none_iff {stack : List Regex} {t : Token} :
    push? stack t = none ↔ stack.length < t.arity := by
  cases t <;> rcases stack with _ | ⟨a, _ | ⟨b, stack⟩⟩ <;> simp [push?, Token.arity]

def pushAll (stack : List Regex) : List (Token × Span) → Except Error (List Regex)
  | [] => .ok stack
  | (t, span) :: ts =>
    match push? stack t with
    | none => .error ⟨.tooFewOperands t, span⟩
    | some stack => pushAll stack ts

def parse (text : List Char) : Except Error Regex :=
  let whole : Span := ⟨0, byteLength text⟩
  match lex text with
  | .error span => .error ⟨.unknownSymbol, span⟩
  | .ok ts =>
    match pushAll [] ts with
    | .error e => .error e
    | .ok [] => .error ⟨.noExpression, whole⟩
    | .ok [e] => .ok e
    | .ok stack => .error ⟨.tooManyOperands stack.length, whole⟩

end RegularLang.Postfix
