/-
  RegularLang.Guarded.Pipelines — the constructions from a regex, the reading of a
  word and the search for a shortest word, step by guarded step. The first final state
  that leaves the queue of the search is the nearest.
-/

import RegularLang.Construction
import RegularLang.Guarded.Stages

namespace RegularLang.Guarded

/-! ## Constructions -/

def automatonOver (r : Regex) (letters : Alphabet) : Guarded Automaton := do
  let ends := (Automaton.empty.addState false).addState true
  let a ← (ends.addTransition 0 1 r).guard
  return a.extendAlphabet letters.toList

/-- The automaton of a regex after the stages. -/
def run (r : Regex) (letters : Alphabet) (stages : List Stage) : Guarded Automaton := do
  runStages (← automatonOver r letters) stages

def dfa (r : Regex) (letters : Alphabet) : Guarded Automaton := run r letters Stage.toDfa

def minimalDfa (r : Regex) (letters : Alphabet) : Guarded Automaton := do
  minimize (← dfa r letters)

def toRegex (a : Automaton) : Guarded Regex := do readOff (← collapse a)

def normalForm (r : Regex) (letters : Alphabet) : Guarded Regex := do
  toRegex (← minimalDfa r letters)

def complement (r : Regex) (letters : Alphabet) : Guarded Regex := do
  toRegex (← invert (← dfa r letters))

/-! ## Reading a word -/

def closure (a : Automaton) (states : List Nat) : Guarded StateSet := do
  let found ← explore (fun s => do return (← (a.state s).guard).epsilonTargets) a.size states
  return .ofList found.toList

/-- Whether a word leads from the active states to a final one. -/
def reads (a : Automaton) : List Char → StateSet → Guarded Bool
  | [], active => (a.groupFinal active.toList).guard
  | c :: w, active => do
    let next ← successors a active c
    if next.toList.isEmpty then return false
    reads a w (← closure a next.toList)

def accepts (a : Automaton) (w : List Char) : Guarded Bool := do
  let b ← if a.isSimple then .ok a else simplify a
  if b.states.isEmpty then return false
  reads b w (← closure b [b.start])

/-! ## Walking along one letter -/

def step? (a : Automaton) (s : Nat) (c : Char) : Guarded (Option Nat) := do
  return (← (a.state s).guard).step? c

def stepTimes (a : Automaton) (c : Char) : Nat → Nat → Guarded (Option Nat)
  | 0, s => .ok (some s)
  | k + 1, s => do
    match ← step? a s c with
    | none => return none
    | some next => stepTimes a c k next

def increment (steps : Nat) : Guarded Nat :=
  if steps + 1 < lengthBound then .ok (steps + 1) else .error .arithmetic

/-- Has come to `s` in `steps` of the `k` steps; `firstSeen` says of every state after
    how many of them it was met. -/
def walkN (a : Automaton) (c : Char) (k : Nat) :
    Nat → List (Option Nat) → Nat → Nat → Guarded (Option Nat)
  | n, firstSeen, s, steps => do
    if k ≤ steps then return some s
    match ← lookUp firstSeen[s]? with
    | some first =>
      let period ← minus steps first
      stepTimes a c (← remainder (← minus k steps) period) s
    | none =>
      match ← step? a s c with
      | none => return none
      | some next =>
        match n with
        | 0 => .error .endless
        | n + 1 => walkN a c k n (firstSeen.set s (some steps)) next (← increment steps)

def walk (a : Automaton) (c : Char) (k : Nat) : Guarded (Option Nat) :=
  walkN a c k a.size (.replicate a.size none) a.start 0

/-! ## The nearest final state -/

/-- The states that are searched, one after the other. A state joins once, as soon as something
    leads to it, together with its distance. -/
structure Queue where
  /-- For each state, whether it has joined. -/
  joined : List Bool
  /-- Those that have not left, in turn, with their distances. -/
  waiting : List (Nat × Nat)

namespace Queue

/-- In front of the first round only state `s` of `n` states has joined. -/
def start (n s : Nat) : Queue := ⟨(List.replicate n false).set s true, [(s, 0)]⟩

/-- State `p` joins at distance `d`, unless it has joined before. -/
def join (d : Nat) (q : Queue) (p : Nat) : Guarded Queue := do
  if ← lookUp q.joined[p]? then return q
  return ⟨q.joined.set p true, q.waiting ++ [(p, d)]⟩

end Queue

/-- No more than `n` states are to leave the queue. -/
def nearestN (a : Automaton) : Nat → Queue → Guarded (Option Nat)
  | 0, q => if q.waiting.isEmpty then .ok none else .error .endless
  | n + 1, q =>
    match q.waiting with
    | [] => .ok none
    | (p, d) :: waiting => do
      let st ← (a.state p).guard
      if st.isFinal then return some d
      nearestN a n (← st.targets.foldlM (Queue.join (d + 1)) { q with waiting })

/-- How far the nearest final state is from `s`. -/
def nearest (a : Automaton) (s : Nat) : Guarded (Option Nat) := do
  let s ← index a.size s
  nearestN a a.size (.start a.size s)

/-! ## Shortest words -/

def shortestWithSuffix (r : Regex) (c : Char) (k : Nat) (letters : Alphabet) :
    Guarded (Option Nat) := do
  let d ← dfa r.reversed (letters.insert c)
  match ← walk d c k with
  | none => return none
  | some s =>
    match ← nearest d s with
    | none => return none
    | some n => return if n + k < lengthBound then some (n + k) else none

end RegularLang.Guarded
