/-
  RegularLang.Guarded.Stages — every stage, and the regex of a collapsed automaton,
  step by guarded step: an automaton is built by adding one transition after the other
  between states that have to exist, and a state is looked up wherever the index of
  one is used.
-/

import RegularLang.Automaton.Edit
import RegularLang.Guarded.Basic

namespace RegularLang.Guarded

/-! ## Simplifying -/

def linkChain (a : Automaton) (s target : Nat) : List Regex → Guarded Automaton
  | [] => (a.addTransition s target .eps).guard
  | [e] => (a.addTransition s target e).guard
  | e :: es => do
    let b ← ((a.addState false).addTransition s a.size e).guard
    linkChain b a.size target es

def linkLoop (a : Automaton) (s target : Nat) (e : Regex) : Guarded Automaton :=
  let first := a.size
  let last := a.size + 1
  addTransitions ((a.addState false).addState false)
    [(first, ⟨last, e⟩), (s, ⟨first, .eps⟩), (last, ⟨first, .eps⟩), (first, ⟨target, .eps⟩)]

def linkParts (a : Automaton) (s target : Nat) : Regex → Guarded Automaton
  | .char c => .error (.refused (.notComposite c))
  | .concat es => linkChain a s target es
  | .sum es => addTransitions a (es.map fun e => (s, ⟨target, e⟩))
  | .star e => linkLoop a s target e

def expand (a : Automaton) : Nat × Nat → Guarded Automaton
  | (s, i) => do
    let (t, b) ← (a.removeTransition s i).guard
    linkParts b s t.target t.label

def firstComposite? (a : Automaton) : Guarded (Option (Nat × Nat)) := .ok a.firstComposite?

def simplify (a : Automaton) : Guarded Automaton := do
  let b ← whileFound firstComposite? expand a.composites a
  ensure b.isSimple
  return b

/-! ## Removing ε-transitions -/

/-- What ends the search for a cycle: a breach, or a cycle. -/
abbrev Search := Except (Breach ⊕ List Nat)

def searchCycle (a : Automaton) :
    Nat → List Nat → IndexedSet Nat → Nat → Search (IndexedSet Nat)
  | 0, _, _, _ => .error (.inl .endless)
  | n + 1, path, seen, s => do
    let path := s :: path
    let st ← (a.state s).guard.mapError .inl
    st.epsilonTargets.foldlM (fun seen next => do
      if next = s then return seen
      let next ← (index a.size next).mapError .inl
      if next ∈ seen then
        if next ∈ path then .error (.inr (next :: (path.takeWhile (· ≠ next)).reverse))
        else return seen
      else searchCycle a n path seen next) (seen.insert s)

def epsilonCycle? (a : Automaton) : Guarded (Option (List Nat)) :=
  let search := (List.range a.size).foldlM (fun seen s =>
    if s ∈ seen then .ok seen else searchCycle a a.size [] seen s) IndexedSet.empty
  match search with
  | .error (.inl breach) => .error breach
  | .error (.inr cycle) => .ok (some cycle)
  | .ok _ => .ok none

/-- The transitions that lead into or out of the state `merged` in the place of
    `group`. -/
def redirected (a : Automaton) (group : List Nat) (merged : Nat) : List (Nat × Transition) :=
  (a.states.mapIdx fun s st =>
    if s ∈ group then (st.asMerged group merged).map fun t => (merged, t)
    else (st.intoMerged group merged).map fun t => (s, t)).flatten

/-- A start in `group` moves to `merged`. -/
def moveStart (a : Automaton) (group : List Nat) (merged : Nat) : Guarded Automaton :=
  if a.start ∈ group then (a.setStart merged).guard else .ok a

def mergeGroup (a : Automaton) (group : List Nat) : Guarded Automaton := do
  let isFinal ← (a.groupFinal group).guard
  let merged := a.size
  let b ← addTransitions (a.addState isFinal) (redirected a group merged)
  let b ← moveStart b group merged
  (b.removeStates (group.mergeSort (· ≥ ·))).guard

/-- Gives `s` the transitions of `target`, but for its ε-loops, and its finality. -/
def takeOver (a : Automaton) (s target : Nat) : Guarded Automaton := do
  let other ← (a.state target).guard
  let copied := other.transitions.filter fun u => !(u.label.isEps && u.target = target)
  let b ← addTransitions a (copied.map fun u => (s, u))
  if (← (b.state target).guard).isFinal then (b.setFinal s true).guard else return b

def absorb (a : Automaton) (s i : Nat) : Guarded Automaton := do
  let t ← (a.transition s i).guard
  let b ← if t.target = s then .ok a else takeOver a s t.target
  return (← (b.removeTransition s i).guard).2

/-- A cycle, or else the first ε-transition. -/
def removable? (a : Automaton) : Guarded (Option (List Nat ⊕ Nat × Nat)) := do
  match ← epsilonCycle? a with
  | some cycle => return some (.inl cycle)
  | none => return (a.firstTransition? (·.label.isEps)).map .inr

def removeOne (a : Automaton) : List Nat ⊕ Nat × Nat → Guarded Automaton
  | .inl cycle => mergeGroup a cycle
  | .inr (s, i) => absorb a s i

/-- As many cycles and ε-transitions as have to be removed at most. -/
def removals (a : Automaton) : Nat :=
  a.size + match a.acyclic with
    | .ok b => Nat.pow 2 b.epsilonCount
    | .error _ => 0

def removeEpsilon (a : Automaton) : Guarded Automaton := do
  require a.isSimple .epsilonRemovalNotSimple
  let b ← whileFound removable? removeOne (removals a) a
  ensure !b.hasEpsilon
  return b

/-! ## Optimizing -/

/-- The targets of a state. -/
def targets (a : Automaton) (s : Nat) : Guarded (List Nat) := do
  let st ← (a.state s).guard
  st.targets.mapM (index a.size)

def reached (a : Automaton) : Guarded (IndexedSet Nat) :=
  if a.states.isEmpty then .ok .empty
  else do explore (targets a) a.size [← index a.size a.start]

def dropZeros (a : Automaton) : Guarded Automaton :=
  forStates a fun a s => do
    let _ ← (a.state s).guard
    return a.modifyState s fun st =>
      { st with transitions := st.transitions.filter fun t => !t.label.isZero }

def dropUnreachable (a : Automaton) : Guarded Automaton := do
  let found ← reached a
  (a.removeStates ((List.range a.size).filter fun s => s ∉ found).reverse).guard

def optimize (a : Automaton) : Guarded Automaton := do dropUnreachable (← dropZeros a)

/-! ## Completing -/

/-- A letter on which state `s` has no transition leads to the trap. With the automaton goes
    whether anything leads there. -/
def fillLetter (trap s : Nat) (x : Automaton × Bool) (c : Char) : Guarded (Automaton × Bool) := do
  if ((← (x.1.state s).guard).find? c).isSome then return x
  return (← (x.1.addTransition s trap (.char c)).guard, true)

/-- What `fillLetter` does, for all letters in turn. -/
def fillState (letters : Alphabet) (trap : Nat) (x : Automaton × Bool) (s : Nat) :
    Guarded (Automaton × Bool) :=
  letters.toList.foldlM (fillLetter trap s) x

/-- A trap that nothing leads to is taken away again. -/
def addTrap (a : Automaton) : Guarded Automaton := do
  let trap := a.size
  let (b, used) ← (List.range trap).foldlM (fillState a.alphabet trap) (a.addState false, false)
  if used then addTransitions b ((linksTo trap a.alphabet.toList).map fun t => (trap, t))
  else (b.removeState trap).guard

def complete (a : Automaton) : Guarded Automaton := do
  require a.isSimple .completionNotSimple
  if a.states.isEmpty then return a
  let b ← addTrap a
  ensure b.isComplete
  return b

/-! ## New states all at once -/

/-- States without transitions, of which `finals` says which are final. -/
def blank (letters : Alphabet) (finals : List Bool) : Automaton :=
  finals.foldl Automaton.addState (Automaton.empty.extendAlphabet letters.toList)

/-! ## Determinizing -/

def successors (a : Automaton) (active : StateSet) (c : Char) : Guarded StateSet := do
  let sts ← active.toList.mapM fun s => (a.state s).guard
  return .ofList (sts.flatMap (·.letterTargets c))

def subset (a : Automaton) (active : StateSet) : Guarded Automaton.Subset := do
  return ⟨← (a.groupFinal active.toList).guard, active⟩

/-- The sets found so far, the number of each, and the moves between them: source, letter,
    target. -/
structure Superpositions where
  found : List Automaton.Subset
  ids : IndexedSet StateSet
  moves : List (Nat × Char × Nat)

/-- Follows a letter from set `i`, whose states are `active`. A set that is met for the first
    time gets the next number. -/
def recordMove (a : Automaton) (i : Nat) (active : StateSet) (s : Superpositions) (c : Char) :
    Guarded Superpositions := do
  let targets ← successors a active c
  match s.ids.idx? targets with
  | some id => return { s with moves := s.moves ++ [(i, c, id)] }
  | none =>
    let found := s.found ++ [← subset a targets]
    let id ← minus found.length 1
    return ⟨found, s.ids.insert targets, s.moves ++ [(i, c, id)]⟩

/-- The sets before place `i` have been looked at. -/
def superpositionsN (a : Automaton) : Nat → Nat → Superpositions → Guarded Superpositions
  | n, i, s =>
    match s.found[i]? with
    | none => .ok s
    | some next =>
      match n with
      | 0 => .error .endless
      | n + 1 => do
        superpositionsN a n (i + 1) (← a.alphabet.toList.foldlM (recordMove a i next.states) s)

def superpositions (a : Automaton) :
    Guarded (List Automaton.Subset × List (Nat × Char × Nat)) := do
  let start : StateSet := .singleton a.start
  let s ← superpositionsN a (Nat.pow 2 a.size) 0 ⟨[← subset a start], .ofList [start], []⟩
  return (s.found, s.moves)

def determine (a : Automaton) : Guarded Automaton := do
  require (!a.hasEpsilon) .determinizationEpsilon
  require a.isComplete .determinizationIncomplete
  require (0 < a.size) .determinizationNoStart
  let (found, moves) ← superpositions a
  addTransitions (blank a.alphabet (found.map (·.isFinal)))
    (moves.map fun m => (m.1, ⟨m.2.2, .char m.2.1⟩))

/-! ## Minimizing -/

/-- The state that a letter leads to. It has a class. -/
def move (a : Automaton) (p : Partition) (s : Nat) (c : Char) : Guarded (Option Nat) := do
  match (← (a.state s).guard).step? c with
  | none => .error (.refused (.noTransition s c))
  | some target =>
    let _ ← lookUp p[target]?
    return some target

/-- The states that a state, which has a class too, moves to. -/
def moves (a : Automaton) (p : Partition) (s : Nat) : Guarded (List (Option Nat)) := do
  let _ ← lookUp p[s]?
  a.alphabet.toList.mapM (move a p s)

def refine (a : Automaton) (p : Partition) : Guarded (Partition × Nat) := do
  return p.refine (← (List.range p.size).mapM (moves a p))

def refineN (a : Automaton) : Nat → Partition → Nat → Guarded (Partition × Nat)
  | 0, _, _ => .error .endless
  | n + 1, p, count => do
    let refined ← refine a p
    if refined.2 = count then return refined
    refineN a n refined.1 refined.2

def classes (a : Automaton) : Guarded (Partition × Nat) :=
  refineN a (a.size + 1) (a.states.map fun st => if st.isFinal then 1 else 0).toArray 0

/-- The transitions of class `k`, whose first member is `first`. -/
def classRow (a : Automaton) (p : Partition) (row : Nat × Nat) :
    Guarded (List (Nat × Transition)) := do
  let st ← (a.state row.1).guard
  let moves := a.alphabet.toList.filterMap fun c => (st.step? c).map fun target => (c, target)
  moves.mapM fun move => do return (row.2, ⟨← lookUp p[move.2]?, .char move.1⟩)

def minimize (a : Automaton) : Guarded Automaton := do
  require (a.isDeterministic && a.isComplete) .minimizationUnfit
  require (0 < a.size) .minimizationNoStart
  let (p, count) ← classes a
  let firsts := p.firstMembers
  ensure (firsts.length = count)
  let members ← firsts.mapM fun s => (a.state s).guard
  let rows ← firsts.zipIdx.mapM (classRow a p)
  let b ← addTransitions (blank a.alphabet (members.map (·.isFinal))) rows.flatten
  (b.setStart (← lookUp p[a.start]?)).guard

/-! ## Inverting -/

def invert (a : Automaton) : Guarded Automaton :=
  forStates a fun a s => do
    let st ← (a.state s).guard
    (a.setFinal s !st.isFinal).guard

/-! ## Collapsing -/

/-- A final state becomes one that ends in `output`. -/
def divert (output : Nat) (a : Automaton) (s : Nat) : Guarded Automaton := do
  if (← (a.state s).guard).isFinal then
    let a ← (a.setFinal s false).guard
    (a.addTransition s output .eps).guard
  else return a

def singleFinal (a : Automaton) : Guarded Automaton :=
  if a.finalCount ≤ 1 then .ok a
  else (List.range a.size).foldlM (divert a.size) (a.addState true)

/-- Merges the parallel transitions of a state until there are none. -/
def mergeEdgesN : Nat → Automaton → Nat → Guarded Automaton
  | 0, _, _ => .error .endless
  | n + 1, a, s => do
    let (merged, b) ← (a.mergeEdges s).guard
    if merged then mergeEdgesN n b s else return b

/-- The transitions to `s` from other states, each with its source. -/
def incoming (a : Automaton) (s : Nat) : List (Nat × Transition) :=
  (a.states.mapIdx fun p st =>
    (if p = s then [] else st.transitions.filter (·.target = s)).map fun t => (p, t)).flatten

/-- The transitions that go past a state instead. -/
def detours (into : List (Nat × Transition)) (loop : Regex) (out : List Transition) :
    List (Nat × Transition) :=
  into.flatMap fun t => out.map fun o => (t.1, ⟨o.target, t.2.label * loop * o.label⟩)

/-- The states that get a transition past the one that goes. -/
def sources (into : List (Nat × Transition)) (out : List Transition) : List Nat :=
  if out.isEmpty then [] else insertAllNew [] (into.map (·.1))

def eliminate (a : Automaton) (s : Nat) : Guarded Automaton := do
  let st ← (a.state s).guard
  let loop := (st.labelTo s).closure
  let out := st.transitions.filter (·.target ≠ s)
  let into := incoming a s
  let b ← addTransitions a (detours into loop out)
  -- The second time there is nothing left to merge.
  let b ← (sources into out).foldlM (mergeEdgesN 2) b
  (b.removeState s).guard

def firstInner? (a : Automaton) : Guarded (Option Nat) := .ok a.firstInner?

def collapse (a : Automaton) : Guarded Automaton := do
  require a.isDeterministic .collapsingNondeterministic
  let b ← singleFinal a
  let b ← forStates b fun a s => do return (← (a.mergeEdges s).guard).2
  whileFound firstInner? eliminate b.size b

/-! ## Reading off -/

def readOff (a : Automaton) : Guarded Regex := do
  require (0 < a.size ∧ a.size ≤ 2) (.notCollapsed a.size)
  if a.size = 1 then
    if (← (a.state 0).guard).isFinal then return (← (a.labelBetween 0 0).guard).closure
    return .zero
  let stop ← minus 1 a.start
  let first ← (a.state a.start).guard
  let last ← (a.state stop).guard
  require (!first.isFinal && last.isFinal) .unexpectedFinals
  (a.regexBetween a.start stop).guard

/-! ## Stages -/

def apply (a : Automaton) : Stage → Guarded Automaton
  | .initial => .ok a
  | .simplify => simplify a
  | .removeEpsilon => removeEpsilon a
  | .optimize => optimize a
  | .complete => complete a
  | .determine => determine a
  | .minify => minimize a
  | .invert => invert a
  | .collapse => collapse a

def runStages (a : Automaton) (stages : List Stage) : Guarded Automaton := stages.foldlM apply a

end RegularLang.Guarded
