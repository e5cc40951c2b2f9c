/-
  RegularLang.Automaton.Simulation — reading a word with all states that are active
  at once. Labels that are not single characters are taken apart first.
-/

import RegularLang.Automaton.Basic
import RegularLang.IndexedSet

namespace RegularLang

/-! ## Simple automata

Their labels are single characters. A composite label is taken apart: a concatenation becomes
a chain of transitions through new states, a sum becomes parallel transitions, and a star a
loop between two new states that ε-transitions lead into and out of. -/

namespace Automaton

/-- Links `s` to `target` through new states, one transition per label. -/
def linkChain (a : Automaton) (s target : Nat) : List Regex → Automaton
  | [] => a.link s target .eps
  | [e] => a.link s target e
  | e :: es => ((a.addState false).link s a.size e).linkChain a.size target es

/-- Links `s` to `target` by a loop around `e`. -/
def linkLoop (a : Automaton) (s target : Nat) (e : Regex) : Automaton :=
  let first := a.size
  let last := a.size + 1
  (a.addState false).addState false
    |>.link first last e
    |>.link s first .eps
    |>.link last first .eps
    |>.link first target .eps

/-- Links `s` to `target` by the parts of a label. -/
def linkParts (a : Automaton) (s target : Nat) : Regex → Automaton
  | .char c => a.link s target (.char c)
  | .concat es => a.linkChain s target es
  | .sum es => es.foldl (fun a e => a.link s target e) a
  | .star e => a.linkLoop s target e

/-- Takes transition `i` of state `s` apart. -/
def expand (a : Automaton) (s i : Nat) : Automaton :=
  match a.transition? s i with
  | some t => (a.unlink s i).linkParts s t.target t.label
  | none => a

/-- A single character cannot be taken apart. -/
def expandTransition (a : Automaton) (s i : Nat) : Checked Automaton := do
  match (← a.transition s i).label with
  | .char c => .error (.notComposite c)
  | _ => .ok (a.expand s i)

/-- The first transition whose label is not a single character. -/
def firstComposite? (a : Automaton) : Option (Nat × Nat) :=
  a.firstTransition? fun t => !t.label.isChar

/-- The number of composite nodes in all labels; taking a label apart removes one. -/
def composites (a : Automaton) : Nat :=
  Regex.compositesAll (a.transitions.map (·.label))

def expandN : Nat → Automaton → Automaton
  | 0, a => a
  | n + 1, a =>
    match a.firstComposite? with
    | some (s, i) => expandN n (a.expand s i)
    | none => a

/-- Takes the first composite label apart until none is left. -/
def simplified (a : Automaton) : Automaton := expandN a.composites a

end Automaton

/-! ## Reading -/

namespace StateTable

/-- The states and what ε-transitions lead to from them. -/
def closure (t : StateTable) (states : List Nat) : StateSet :=
  .ofList (explore (fun s => (t.stateAt s).epsilonTargets) t.size states).toList

/-- What the letter `c` leads to. -/
def successors (t : StateTable) (active : StateSet) (c : Char) : StateSet :=
  .ofList (active.toList.flatMap fun s => (t.stateAt s).letterTargets c)

def advance (t : StateTable) (active : StateSet) (c : Char) : StateSet :=
  t.closure (t.successors active c).toList

def anyFinal (t : StateTable) (active : StateSet) : Bool :=
  active.toList.any fun s => (t.stateAt s).isFinal

end StateTable

namespace Automaton

/-- The closure of states that may not exist. -/
def epsilonClosure (a : Automaton) (states : List Nat) : Checked StateSet :=
  if states.all (· < a.size) then .ok (a.table.closure states) else .error .index

/-- Whether a simple automaton ends a word in a final state. -/
def simulate (a : Automaton) (w : List Char) : Bool :=
  let t := a.table
  t.anyFinal (w.foldl t.advance (t.closure [a.start]))

def accepts (a : Automaton) (w : List Char) : Bool := a.simplified.simulate w

end Automaton

end RegularLang
