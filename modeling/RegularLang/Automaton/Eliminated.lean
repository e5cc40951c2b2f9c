/-
  RegularLang.Automaton.Eliminated — removing states while regexes on the other
  transitions keep the language: a path through the state becomes one transition,
  labelled by what leads in, the loops on the state, and what leads out. In the end the
  regex of the automaton is read off.
-/

import RegularLang.Automaton.Basic

namespace RegularLang

/-- Adds a transition, as a union with the one to the same target if there is one. -/
def mergeInto (t : Transition) : List Transition → List Transition
  | [] => [t]
  | m :: ms =>
    if m.target = t.target then { m with label := m.label + t.label } :: ms
    else m :: mergeInto t ms

/-- One transition for each target, in the order of the first to it. -/
def mergeParallel (ts : List Transition) : List Transition :=
  ts.foldl (fun ms t => mergeInto t ms) []

namespace State

def mergeEdges (st : State) : State := { st with transitions := mergeParallel st.transitions }

/-- Goes past state `s`, which `loop` leads back to and `out` leaves. -/
def detour (st : State) (s : Nat) (loop : Regex) (out : List Transition) : State :=
  let incoming := st.transitions.filter (·.target = s)
  if incoming.isEmpty || out.isEmpty then st
  else
    let past := incoming.flatMap fun t =>
      out.map fun o => ⟨o.target, t.label * loop * o.label⟩
    { st with transitions := mergeParallel (st.transitions ++ past) }

/-- A final state becomes one that ends in `output`. -/
def divert (st : State) (output : Nat) : State :=
  if st.isFinal then ⟨false, st.transitions ++ [⟨output, .eps⟩]⟩ else st

end State

namespace Automaton

/-- Merges the parallel transitions of `s`; says whether there were any. -/
def mergeEdges (a : Automaton) (s : Nat) : Checked (Bool × Automaton) :=
  (a.state s).map fun st =>
    (st.mergeEdges.transitions.length ≠ st.transitions.length, a.modifyState s (·.mergeEdges))

/-- Several final states all lead to a new one, which alone is final. -/
def singleFinal (a : Automaton) : Automaton :=
  if a.finalCount ≤ 1 then a
  else { a with states := a.states.map (·.divert a.size) ++ [⟨true, []⟩] }

/-- The first state that is neither final nor the start. -/
def firstInner? (a : Automaton) : Option Nat :=
  (List.range a.size).find? fun s => !a.isFinalAt s && s ≠ a.start

/-- Leads every path through `s` past it. -/
def detour (a : Automaton) (s : Nat) : Automaton :=
  let loop := ((a.stateAt s).labelTo s).closure
  let out := (a.stateAt s).transitions.filter (·.target ≠ s)
  { a with states := a.states.mapIdx fun i st => if i = s then st else st.detour s loop out }

def eliminate (a : Automaton) (s : Nat) : Checked Automaton := do
  let _ ← a.state s
  (a.detour s).removeState s

def eliminateN : Nat → Automaton → Checked Automaton
  | 0, a => .ok a
  | n + 1, a =>
    match a.firstInner? with
    | some s => do eliminateN n (← a.eliminate s)
    | none => .ok a

/-- The start state and at most one final state are left. -/
def eliminated (a : Automaton) : Checked Automaton :=
  if a.isDeterministic then
    let b := a.singleFinal.mapStates (·.mergeEdges)
    eliminateN b.size b
  else .error .collapsingNondeterministic

end Automaton

/-! ## The regex

The automaton has been cut down to its start state and at most one final state. -/

namespace Automaton

/-- The union of the labels from `source` to `target`. -/
def label (a : Automaton) (source target : Nat) : Regex := (a.stateAt source).labelTo target

def labelBetween (a : Automaton) (source target : Nat) : Checked Regex :=
  (a.state source).map (·.labelTo target)

/-- Every word over the alphabet. -/
def anyWord (a : Automaton) : Regex := (Regex.unionOf (a.alphabet.toList.map .char)).closure

/-- The words of the paths from `p` to `q` that visit only these two. -/
def betweenTwo (a : Automaton) (p q : Nat) : Regex :=
  let loop := (a.label p p).closure
  let forward := a.label p q
  loop * forward * (a.label q q + a.label q p * loop * forward).closure

def regexBetween (a : Automaton) (p q : Nat) : Checked Regex := do
  let _ ← a.state p
  let _ ← a.state q
  return a.betweenTwo p q

def readOff (a : Automaton) : Checked Regex :=
  match a.states with
  | [st] => .ok (if st.isFinal then (st.labelTo 0).closure else .zero)
  | [_, _] =>
    let stop := 1 - a.start
    if !a.isFinalAt a.start && a.isFinalAt stop then .ok (a.betweenTwo a.start stop)
    else .error .unexpectedFinals
  | _ => .error (.notCollapsed a.size)

/-- The regex of a deterministic automaton. -/
def toRegex (a : Automaton) : Checked Regex := do (← a.eliminated).readOff

end Automaton

end RegularLang
