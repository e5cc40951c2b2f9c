/-
  RegularLang.Automaton.EpsilonFree — removing the ε-transitions of a simple
  automaton. The states of a cycle of ε-transitions become one; when no cycle is
  left, the source of an ε-transition takes over the transitions of its target,
  and its finality, one ε-transition at a time.
-/

import RegularLang.Automaton.Basic
import RegularLang.IndexedSet

namespace RegularLang

namespace State

/-- The transitions into `group`, led to `merged` instead. -/
def intoMerged (st : State) (group : List Nat) (merged : Nat) : List Transition :=
  (st.transitions.filter (·.target ∈ group)).map fun t => { t with target := merged }

/-- The transitions of a state of `group` as the merged state has them: ε-transitions
    within the group are left out. -/
def asMerged (st : State) (group : List Nat) (merged : Nat) : List Transition :=
  st.transitions.filterMap fun t =>
    if t.target ∈ group then
      if t.label.isEps then none else some { t with target := merged }
    else some t

/-- Takes over what `target`, the state that ε-transition `i` leads to, can do. -/
def absorb (st : State) (i target : Nat) (other : State) : State where
  isFinal := st.isFinal || other.isFinal
  transitions := st.transitions.eraseIdx i ++
    other.transitions.filter fun t => !(t.label.isEps && t.target = target)

end State

/-! ## Cycles -/

/-- Follows ε-transitions from `s`, depth first. `path` leads to `s`, the last state
    first, and `seen` are the states entered so far. The error is a cycle, in the
    order of its transitions; a transition from a state to itself is none. -/
def StateTable.searchCycle (t : StateTable) :
    Nat → List Nat → IndexedSet Nat → Nat → Except (List Nat) (IndexedSet Nat)
  | 0, _, seen, _ => .ok seen
  | n + 1, path, seen, s =>
    let path := s :: path
    (t.stateAt s).epsilonTargets.foldlM (fun seen next =>
      if next = s then .ok seen
      else if next ∈ seen then
        if next ∈ path then .error (next :: (path.takeWhile (· ≠ next)).reverse)
        else .ok seen
      else t.searchCycle n path seen next) (seen.insert s)

namespace Automaton

/-- The first cycle of ε-transitions through two or more states. -/
def epsilonCycle? (a : Automaton) : Option (List Nat) :=
  let t := a.table
  let search := (List.range a.size).foldlM (fun seen s =>
    if s ∈ seen then .ok seen else t.searchCycle a.size [] seen s) IndexedSet.empty
  match search with
  | .error cycle => some cycle
  | .ok _ => none

/-! ## Merging -/

/-- Whether a state of `group` is final; a final state ends the look. -/
def groupFinal (a : Automaton) : List Nat → Checked Bool
  | [] => .ok false
  | s :: group => do if (← a.state s).isFinal then return true else a.groupFinal group

/-- Adds a state that does what all states of `group` do, and leads to it whatever
    leads to one of them from outside. -/
def addMerged (a : Automaton) (group : List Nat) (isFinal : Bool) : Automaton :=
  let merged := a.size
  let outside := a.states.mapIdx fun s st =>
    if s ∈ group then st
    else { st with transitions := st.transitions ++ st.intoMerged group merged }
  let taken := a.states.mapIdx fun s st => if s ∈ group then st.asMerged group merged else []
  { a with
    states := outside ++ [⟨isFinal, taken.flatten⟩]
    start := if a.start ∈ group then merged else a.start }

/-- Puts one new state in the place of `group`. -/
def mergeGroup (a : Automaton) (group : List Nat) : Checked Automaton := do
  let isFinal ← a.groupFinal group
  (a.addMerged group isFinal).removeStates (group.mergeSort (· ≥ ·))

/-! ## Removal -/

/-- Removes ε-transition `i` of state `s`, which takes over what its target can do. -/
def absorb (a : Automaton) (s i : Nat) : Automaton :=
  match a.transition? s i with
  | some t =>
    if t.target = s then a.unlink s i
    else a.modifyState s (·.absorb i t.target (a.stateAt t.target))
  | none => a

def absorbTarget (a : Automaton) (s i : Nat) : Checked Automaton :=
  (a.transition s i).map fun _ => a.absorb s i

/-! ## All of it -/

/-- Merges cycles until none is left. -/
def acyclicN : Nat → Automaton → Checked Automaton
  | 0, a => .ok a
  | n + 1, a =>
    match a.epsilonCycle? with
    | some cycle => do acyclicN n (← a.mergeGroup cycle)
    | none => .ok a

/-- Every merge loses a state. -/
def acyclic (a : Automaton) : Checked Automaton := acyclicN a.size a

/-- Removes the ε-transitions of state `s` and of those after it, one at a time and
    always the first. A state that has lost its own gets no new ones. -/
def absorbN : Nat → Nat → Automaton → Automaton
  | 0, _, a => a
  | n + 1, s, a =>
    match a.states[s]? with
    | none => a
    | some st =>
      match st.find? epsilon with
      | some i => absorbN n s (a.absorb s i)
      | none => absorbN n (s + 1) a

def epsilonCount (a : Automaton) : Nat := a.transitions.countP (·.label.isEps)

/-- Without cycles an ε-path uses each ε-transition at most once, so there are fewer
    ε-paths than sets of ε-transitions, and every removal loses one. No removal
    makes a cycle, because what a state takes over it could do before. -/
def absorbed (a : Automaton) : Automaton := absorbN (a.size + Nat.pow 2 a.epsilonCount) 0 a

def epsilonFree (a : Automaton) : Checked Automaton :=
  if a.isSimple then a.acyclic.map absorbed else .error .epsilonRemovalNotSimple

end Automaton

end RegularLang
