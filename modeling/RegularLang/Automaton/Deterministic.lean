/-
  RegularLang.Automaton.Deterministic — from an automaton without ε-transitions to the
  minimal deterministic one: what cannot be reached is cut off, what is missing is filled
  in, sets of states become states, and states that no word tells apart become one.
-/

import RegularLang.Automaton.Simulation

namespace RegularLang

/-! ## The states that can be reached

The automaton is cut down to them once no transition is labelled ∅. -/

/-- Breadth first from the states `layer`, all at the same distance; `seen` are the
    states met so far. -/
def StateTable.distanceN (t : StateTable) : Nat → IndexedSet Nat → List Nat → Option Nat
  | 0, _, _ => none
  | n + 1, seen, layer =>
    if layer.any fun s => (t.stateAt s).isFinal then some 0
    else
      let size := seen.size
      let found := seen.insertAll (layer.flatMap fun s => (t.stateAt s).targets)
      (t.distanceN n found (found.drop size)).map (· + 1)

namespace Automaton

def reachableFrom (a : Automaton) (s : Nat) : IndexedSet Nat :=
  let t := a.table
  explore (fun s => (t.stateAt s).targets) a.size [s]

/-- For each state, whether it can be reached. -/
def reachability (a : Automaton) : List Bool :=
  let reached := a.reachableFrom a.start
  (List.range a.size).map fun s => s ∈ reached

def dropUnreachable (a : Automaton) : Checked Automaton :=
  let reached := a.reachableFrom a.start
  a.removeStates ((List.range a.size).filter fun s => s ∉ reached).reverse

def dropZeros (a : Automaton) : Automaton :=
  a.mapStates fun st => { st with transitions := st.transitions.filter fun t => !t.label.isZero }

def trim (a : Automaton) : Checked Automaton := a.dropZeros.dropUnreachable

/-- The number of transitions on a shortest path from `s` to a final state. -/
def distance? (a : Automaton) (s : Nat) : Option Nat :=
  a.table.distanceN a.size (.ofList [s]) [s]

def distanceFrom (a : Automaton) (s : Nat) : Checked (Option Nat) :=
  (a.state s).map fun _ => a.distance? s

end Automaton

/-! ## Completion

Every state of a simple automaton gets a transition on every letter. What is missing leads to
a new state that nothing leaves; there is no such state when nothing is missing. -/

/-- The letters on which a state has no transition. -/
def State.missing (st : State) (letters : Alphabet) : List Char :=
  letters.toList.filter fun c => (st.find? c).isNone

/-- A transition to `target` on each letter. -/
def linksTo (target : Nat) (letters : List Char) : List Transition :=
  letters.map fun c => ⟨target, .char c⟩

namespace Automaton

def completed (a : Automaton) : Automaton :=
  if a.states.all fun st => (st.missing a.alphabet).isEmpty then a
  else
    let trap := a.size
    let filled := a.states.map fun st =>
      { st with transitions := st.transitions ++ linksTo trap (st.missing a.alphabet) }
    { a with states := filled ++ [⟨false, linksTo trap a.alphabet.toList⟩] }

def complete (a : Automaton) : Checked Automaton :=
  if a.isSimple then .ok a.completed else .error .completionNotSimple

end Automaton

/-! ## The subset construction

A state of the result is a set of states that one word leads to, numbered in order of
discovery: breadth first from the start, letters ascending. -/

/-- Where the letters lead from a set of states, letters ascending. -/
def StateTable.moves (t : StateTable) (letters : Alphabet) (active : StateSet) : List StateSet :=
  letters.toList.map (t.successors active)

namespace Automaton

/-- The sets of states that words lead to when there are no ε-transitions. -/
def subsets (a : Automaton) : IndexedSet StateSet :=
  explore (a.table.moves a.alphabet) (Nat.pow 2 a.size) [.singleton a.start]

/-- A set of states, and whether one of them is final. -/
structure Subset where
  isFinal : Bool
  states : StateSet

/-- The sets and, for each in turn, where the letters lead: source, letter, target. -/
def subsetTable (a : Automaton) :
    Checked (List Subset × List (Nat × Char × Nat)) :=
  let t := a.table
  let found := a.subsets
  if a.size = 0 then .error .index
  else
    .ok (found.toList.map fun active => ⟨t.anyFinal active, active⟩,
      (found.toList.mapIdx fun i active =>
        a.alphabet.toList.map fun c => (i, c, found.idx (t.successors active c))).flatten)

def determinized (a : Automaton) : Automaton :=
  let t := a.table
  let found := a.subsets
  { states := found.toList.map fun active =>
      ⟨t.anyFinal active,
        a.alphabet.toList.map fun c => ⟨found.idx (t.successors active c), .char c⟩⟩
    start := 0
    alphabet := a.alphabet }

def determine (a : Automaton) : Checked Automaton :=
  if a.hasEpsilon then .error .determinizationEpsilon
  else if !a.isComplete then .error .determinizationIncomplete
  else if a.size = 0 then .error .determinizationNoStart
  else .ok a.determinized

end Automaton

/-! ## Classes of states

The classes of states that no word tells apart are found by refining the split into final and
other states, and numbered by their first members. The automaton with one state per class is
the minimal one. -/

/-- The class of every state. -/
abbrev Partition := Array Nat

namespace Partition

/-- What a refinement tells states apart by: the class of a state and the classes of
    the states it moves to. -/
def profile (p : Partition) (s : Nat) (moves : List (Option Nat)) : List (Option Nat) :=
  p[s]? :: moves.map fun t => t.bind (p[·]?)

/-- The classes by profile and how many there are; `moves` are the moves of each state
    in turn. -/
def refine (p : Partition) (moves : List (List (Option Nat))) : Partition × Nat :=
  let profiles := moves.mapIdx p.profile
  let found := IndexedSet.ofList profiles
  ((profiles.map found.idx).toArray, found.size)

/-- Refining only splits classes, so the classes stay once their number does. -/
def refineN (moves : List (List (Option Nat))) : Nat → Partition → Nat → Partition × Nat
  | 0, p, count => (p, count)
  | n + 1, p, count =>
    let refined := p.refine moves
    if refined.2 = count then refined else refineN moves n refined.1 refined.2

/-- The first member of each class. -/
def firstMembers (p : Partition) : List Nat :=
  (p.toList.zipIdx.foldl (fun found (k, s) =>
    if k = found.size then found.push s else found) (#[] : Array Nat)).toList

end Partition

namespace Automaton

/-- Where the first transitions on the letters lead from each state, letters ascending. -/
def moves (a : Automaton) : List (List (Option Nat)) :=
  a.states.map fun st => a.alphabet.toList.map st.step?

/-- The class of each state and the number of classes. -/
def classes (a : Automaton) : Partition × Nat :=
  let finality := (a.states.map fun st => if st.isFinal then 1 else 0).toArray
  Partition.refineN a.moves (a.size + 1) finality 0

/-- The first state without a transition on some letter, and the first such letter. -/
def firstMissing? (a : Automaton) : Option (Nat × Char) :=
  a.states.zipIdx.findSome? fun (st, s) =>
    (a.alphabet.toList.find? fun c => (st.step? c).isNone).map fun c => (s, c)

def classify (a : Automaton) : Checked (Partition × Nat) :=
  match a.firstMissing? with
  | some (s, c) => .error (.noTransition s c)
  | none => .ok a.classes

/-- One state per class, which does what the first member of the class does. -/
def minimized (a : Automaton) : Automaton :=
  let t := a.table
  let p := a.classes.1
  { states := p.firstMembers.map fun first =>
      ⟨(t.stateAt first).isFinal, a.alphabet.toList.filterMap fun c =>
        (t.step? first c).map fun target => ⟨p.getD target 0, .char c⟩⟩
    start := p.getD a.start 0
    alphabet := a.alphabet }

def minimize (a : Automaton) : Checked Automaton :=
  if !(a.isDeterministic && a.isComplete) then .error .minimizationUnfit
  else if a.size = 0 then .error .minimizationNoStart
  else .ok a.minimized

end Automaton

end RegularLang
