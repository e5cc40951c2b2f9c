/-
  RegularLang.Automaton.Dot — automata as text, for reading and for Graphviz.
-/

import RegularLang.Automaton.Basic
import RegularLang.Regex.Printer

namespace RegularLang

/-! ## One line per state and per transition -/

def renderNat (n : Nat) : List Char := Nat.toDigits 10 n

/-- Items with a separator between them. -/
def joined (separator : List Char) : List (List Char) → List Char
  | [] => []
  | [x] => x
  | x :: xs => x ++ separator ++ joined separator xs

def line (text : List Char) : List Char := text ++ ['\n']

namespace Automaton

def finals (a : Automaton) : List Nat := (List.range a.size).filter a.isFinalAt

def renderTransition (t : Transition) : List Char :=
  line ("    ".toList ++ renderNat t.target ++ ": ".toList ++ t.label.render)

def renderState (s : Nat) (st : State) : List Char :=
  line ("  ".toList ++ renderNat s ++ [':']) ++ st.transitions.flatMap renderTransition

def render (a : Automaton) : List Char :=
  line ("init: ".toList ++ renderNat a.start) ++
  line ("finals: [".toList ++ joined ", ".toList (a.finals.map renderNat) ++ [']']) ++
  line ("alphabet: ".toList ++ a.alphabet.toList) ++
  line "states:".toList ++
  (a.states.mapIdx renderState).flatten

end Automaton

/-! ## Graphviz

Final states are drawn with a double circle, with an arrow to the start state and an arrow per
transition. Inside a label a backslash stands before every quote and every backslash. -/

namespace Dot

def escapeChar (c : Char) : List Char := if c = '\\' ∨ c = '"' then ['\\', c] else [c]

def escape (text : List Char) : List Char := text.flatMap escapeChar

def indented (text : List Char) : List Char := line ("    ".toList ++ text)

def arrow (source target : List Char) : List Char := source ++ " -> ".toList ++ target

def edge (source : Nat) (t : Transition) : List Char :=
  indented (arrow (renderNat source) (renderNat t.target) ++ " [ label = \"".toList ++
    escape t.label.render ++ "\" ];".toList)

end Dot

open Dot in
def Automaton.renderDot (a : Automaton) : List Char :=
  line "digraph finite_state_machine \x7b".toList ++
  indented "rankdir=LR;".toList ++
  indented "size=\"8,5\"".toList ++
  indented ("node [shape = doublecircle]; ".toList ++
    a.finals.flatMap (fun s => renderNat s ++ [' ']) ++ [';']) ++
  indented "node [shape = circle];".toList ++
  indented "start [label=\"\", shape = none];".toList ++
  (if a.states.isEmpty then [] else indented (arrow "start".toList (renderNat a.start) ++ [';'])) ++
  (a.states.mapIdx fun s st => st.transitions.flatMap (edge s)).flatten ++
  line ['\x7d']

end RegularLang
