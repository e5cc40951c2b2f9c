/-
  RegularLang.CommandLine.Run — what the program prints for a request. A verbose run
  shows the text, the regex and every automaton on the way before the answer. White
  space at the end of a file is no part of its text.
-/

import RegularLang.Automaton.Dot
import RegularLang.CommandLine.Request
import RegularLang.Construction
import RegularLang.Infix.Reader
import RegularLang.Postfix.Reader

namespace RegularLang.CommandLine

/-- Why a text is no regex, in the form it is in. -/
inductive ReadError where
  | ofInfix (e : Infix.Error)
  | ofPostfix (e : Postfix.Error)
  deriving DecidableEq

def ReadError.message : ReadError → String
  | .ofInfix e => e.message
  | .ofPostfix e => e.cause.message

/-- Reads a text in postfix form if `polish`, else in infix form. -/
def readRegex (polish : Bool) (text : List Char) : Except ReadError Regex :=
  if polish then (Postfix.parse text).mapError .ofPostfix
  else (Infix.parse text).mapError .ofInfix

inductive Outcome where
  | usage (e : UsageError)
  | unreadable
  /-- The text is no regex; `printed` came before that was found out. -/
  | misread (printed : List Char) (e : ReadError)
  | refused (f : Fault)
  | done (printed : List Char)

/-- The text of a request, if it can be read. -/
def Source.load (readFile : List Char → Option (List Char)) : Source → Option (List Char)
  | .inline text => some text
  | .file path => (readFile path).map trimEnd

def banner (title : String) : List Char := line ("===== " ++ title ++ " =====").toList

/-- A part of the output under its own banner, with an empty line behind it. -/
def titled (title : String) (body : List Char) : List Char := banner title ++ body ++ ['\n']

def traceText (steps : List (Stage × Automaton)) : List Char :=
  steps.flatMap fun (s, a) => titled s.title a.render

/-- An automaton and the text of the way there. -/
def runTraced (a : Automaton) (stages : List Stage) : Checked (List Char × Automaton) :=
  let (steps, outcome) := a.trace stages
  outcome.map fun b => (traceText steps, b)

/-- The deterministic automaton and, after it, more stages. -/
def tracedDfa (r : Regex) (letters : Alphabet) (more : List Stage) :
    Checked (List Char × Automaton) :=
  let a := Automaton.over r letters
  (runTraced a (Stage.toDfa ++ more)).map fun (text, b) =>
    (titled Stage.initial.title a.render ++ text, b)

/-- What a task prints: the text of the way, then the answer. -/
def Task.run (r : Regex) (letters : Alphabet) : Task → Checked (List Char × List Char)
  | .accepts word => do
    let (way, dfa) ← tracedDfa r letters []
    return (way, line (if dfa.accepts word then "ACCEPT" else "REJECT").toList)
  | .complement => do
    let (way, dfa) ← tracedDfa r letters [.invert]
    return (way, line (← dfa.toRegex).render)
  | .minimize => do
    let (way, dfa) ← tracedDfa r letters [.minify]
    return (way, titled "MINIMAL DFA" dfa.render ++ banner "REGEX" ++
      line (← dfa.toRegex).render)
  | .dot stage => do
    let (way, a) ← runTraced (.over r letters) stage.upTo
    return (way, line a.renderDot)
  | .suffix c k => do
    let text := match ← r.shortestWithSuffix c k letters with
      | some n => renderNat n
      | none => "-1".toList
    return ([], line text)

/-- Runs a request on its text. -/
def Request.run (q : Request) (text : List Char) : Outcome :=
  let shown (s : List Char) : List Char := if q.verbose then s else []
  let beginning := shown (titled "SRC" (line text))
  match readRegex q.polish text with
  | .error e => .misread beginning e
  | .ok r =>
    match q.task.run r q.letters with
    | .error f => .refused f
    | .ok (way, answer) =>
      .done (beginning ++ shown (titled "REGEX" (line r.render)) ++ shown way ++ answer)

/-- A whole run of the program; `readFile` answers the text at a path. -/
def invoke (args : List Argument) (readFile : List Char → Option (List Char)) : Outcome :=
  match Request.read args with
  | .error e => .usage e
  | .ok q =>
    match q.source.load readFile with
    | none => .unreadable
    | some text => q.run text

end RegularLang.CommandLine
