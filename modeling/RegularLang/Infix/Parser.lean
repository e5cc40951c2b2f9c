/-
  RegularLang.Infix.Parser — infix text parsed by rules that are tried in order:

    expr  ::=  _ sum _
    sum  ::=  sequence (_ union _ sequence)*
    sequence  ::=  (unit _)+
    unit  ::=  atom (_ star)*
    atom  ::=  ( _ )  /  ( _ sum _ )  /  ∅  /  ε  /  letter
    letter  ::=  plain  /  \ special
    _  ::=  blank*

  Of alternatives the first that matches counts, and a repetition goes on as long as it can:
  neither is taken up again when something fails later on. What fails leaves the place where
  it began, and the next alternative begins there. The operands of a sum and of a sequence are
  joined from the left, all at once (`Regex.unionOf_eq_foldl`, `Regex.product_eq_foldl`).

  Whatever is looked for and not found is noted, also by alternatives that are given up; only
  white space is not missed. A text is refused at the furthest place that was noted, with all
  that was looked for there.
-/

import RegularLang.Regex.Printer

namespace RegularLang.Infix

/-! ## Errors -/

/-- What a rule looks for, as error messages list it. -/
inductive Terminal where
  | endOfText
  | openGroup
  | closeGroup
  | star
  | union
  | backslash
  | emptyWord
  | nothing
  | plainLetter
  | blank
  | specialLetter
  deriving DecidableEq

namespace Terminal

def text : Terminal → String
  | .endOfText => "EOF"
  | .openGroup => "['(']"
  | .closeGroup => "[')']"
  | .star => "['*']"
  | .union => "['+' | '|']"
  | .backslash => "['\\\\']"
  | .emptyWord => "['ε' | '1']"
  | .nothing => "['∅']"
  | .plainLetter => "[c if !is_special_char(c)]"
  | .blank => "[c if c.is_whitespace()]"
  | .specialLetter => "[c if is_special_char(c)]"

/-- In the order of their texts by code point. -/
def all : List Terminal :=
  [.endOfText, .openGroup, .closeGroup, .star, .union, .backslash, .emptyWord, .nothing,
    .plainLetter, .blank, .specialLetter]

/-- The characters that a terminal stands for. -/
def covers : Terminal → Char → Bool
  | .endOfText, _ => false
  | .openGroup, c => c = '('
  | .closeGroup, c => c = ')'
  | .star, c => c = '*'
  | .union, c => c = '+' || c = '|'
  | .backslash, c => c = '\\'
  | .emptyWord, c => c = 'ε' || c = '1'
  | .nothing, c => c = '∅'
  | .plainLetter, c => !isSpecial c
  | .blank, c => isBlank c
  | .specialLetter, c => isSpecial c

end Terminal

structure Error where
  /-- In bytes. -/
  offset : Nat
  position : LineColumn
  expected : List Terminal
  deriving DecidableEq

def Error.at (text : List Char) (offset : Nat) (expected : List Terminal) : Error :=
  ⟨offset, lineColumn text offset, expected⟩

def Error.message (e : Error) : String :=
  let line := e.position.line
  let column := e.position.column
  let wanted := match e.expected with
    | [t] => t.text
    | ts => "one of " ++ ", ".intercalate (ts.map Terminal.text)
  s!"error at {line}:{column}: expected {wanted}"

/-! ## Failures -/

/-- The furthest place where something was looked for and not found, and all that was. -/
structure Failures where
  /-- In bytes. -/
  offset : Nat
  expected : Terminal → Bool

namespace Failures

def none : Failures := ⟨0, fun _ => false⟩

/-- One more thing that is not found. What is missing further back does not count. -/
def note (f : Failures) (offset : Nat) (t : Terminal) : Failures :=
  if offset < f.offset then f
  else if f.offset < offset then ⟨offset, fun u => u = t⟩
  else ⟨offset, fun u => u = t || f.expected u⟩

def error (f : Failures) (text : List Char) : Error :=
  .at text f.offset (Terminal.all.filter f.expected)

end Failures

/-! ## Parsing expressions -/

/-- A place in a text. -/
structure Input where
  /-- In bytes. -/
  offset : Nat
  rest : List Char

/-- Matches the text from a place on and says where the match ends, or fails. The failures on
    the way are kept in both cases. -/
def Peg (α : Type) := Input → Failures → Option (α × Input) × Failures

namespace Peg

variable {α : Type}

instance : Monad Peg where
  pure v := fun i f => (some (v, i), f)
  bind p q := fun i f =>
    match p i f with
    | (some (v, j), f) => q v j f
    | (none, f) => (none, f)

/-- Ordered choice. -/
instance : OrElse (Peg α) where
  orElse p q := fun i f =>
    match p i f with
    | (some m, f) => (some m, f)
    | (none, f) => q () i f

def fail : Peg α := fun _ f => (none, f)

/-- The next character, if the terminal stands for it. -/
def one (t : Terminal) : Peg Char := fun i f =>
  match i.rest with
  | [] => (none, f.note i.offset t)
  | c :: rest =>
    if t.covers c then (some (c, ⟨i.offset + c.utf8Size, rest⟩), f)
    else (none, f.note i.offset t)

/-- Matches again and again, `n` times at most; `found` are the matches before, the last first. -/
def loop (p : Peg α) : Nat → List α → Peg (List α)
  | 0, found => pure found.reverse
  | n + 1, found => fun i f =>
    match p i f with
    | (some (v, j), f) => loop p n (v :: found) j f
    | (none, f) => (some (found.reverse, i), f)

/-- Forgets the failures. -/
def quiet (p : Peg α) : Peg α := fun i f => ((p i f).1, f)

end Peg

/-! ## Rules -/

open Peg

namespace Rule

-- No text has room for `n` rounds of a loop.
variable (n : Nat)

def blanks : Peg Unit := do
  let _ ← quiet (loop (one .blank) n [])
  return ()

def letter : Peg Char :=
  one .plainLetter <|> do
    let _ ← one .backslash
    one .specialLetter

def emptyGroup : Peg Regex := do
  let _ ← one .openGroup
  blanks n
  let _ ← one .closeGroup
  return .zero

def group (sum : Peg Regex) : Peg Regex := do
  let _ ← one .openGroup
  blanks n
  let e ← sum
  blanks n
  let _ ← one .closeGroup
  return e

/-- An atom without parentheses. -/
def symbol : Peg Regex :=
  (do let _ ← one .nothing; return .zero) <|>
  (do let _ ← one .emptyWord; return .eps) <|>
  (do return .char (← letter))

def atom (sum : Peg Regex) : Peg Regex := emptyGroup n <|> group n sum <|> symbol

def star : Peg Char := do
  blanks n
  one .star

/-- However many stars follow, they are as good as one. -/
def starred (e : Regex) (stars : List Char) : Regex := if stars.isEmpty then e else e.closure

def unit (sum : Peg Regex) : Peg Regex := do
  let e ← atom n sum
  return starred e (← loop (star n) n [])

/-- A unit with the white space behind it. -/
def factor (sum : Peg Regex) : Peg Regex := do
  let e ← unit n sum
  blanks n
  return e

def sequence (sum : Peg Regex) : Peg Regex := do
  let es ← loop (factor n sum) n [← factor n sum]
  return .product es

/-- A further term with the `+` in front of it. -/
def term (sum : Peg Regex) : Peg Regex := do
  blanks n
  let _ ← one .union
  blanks n
  sequence n sum

/-- No text has room for `n` groups inside each other. -/
def sum : Nat → Peg Regex
  | 0 => fail
  | n + 1 => do
    let e ← sequence (n + 1) (sum n)
    let es ← loop (term (n + 1) (sum n)) (n + 1) []
    return .unionOf (e :: es)

def expr : Peg Regex := do
  blanks n
  let e ← sum n
  blanks n
  return e

end Rule

/-- The text as a regex, with the bound `n` of the rules. The whole text has to match. -/
def parseN (n : Nat) (text : List Char) : Except Error Regex :=
  match Rule.expr n ⟨0, text⟩ .none with
  | (some (e, ⟨_, []⟩), _) => .ok e
  | (some (_, i), f) => .error ((f.note i.offset .endOfText).error text)
  | (none, f) => .error (f.error text)

/-- A larger bound gives the same (`parseN_eq_parse`). -/
def parse (text : List Char) : Except Error Regex := parseN (text.length + 1) text

end RegularLang.Infix
