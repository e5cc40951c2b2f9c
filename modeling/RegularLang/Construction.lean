/-
  RegularLang.Construction — from a regex to its deterministic automata and back, and the
  shortest word of its language that ends in a letter repeated. Automata are over the
  letters of the regex and any others asked for.
-/

import RegularLang.Automaton.Edit

namespace RegularLang

namespace Regex

def dfa (r : Regex) (letters : Alphabet) : Checked Automaton :=
  (Automaton.over r letters).runStages Stage.toDfa

def minimalDfa (r : Regex) (letters : Alphabet) : Checked Automaton := do
  (← r.dfa letters).minimize

/-- Matches the same words; read off the minimal automaton. -/
def normalForm (r : Regex) (letters : Alphabet) : Checked Regex := do
  (← r.minimalDfa letters).toRegex

/-- Matches the other words over the alphabet. -/
def complement (r : Regex) (letters : Alphabet) : Checked Regex := do
  (← r.dfa letters).inverted.toRegex

end Regex

/-! ## Words that end in a letter repeated

In the automaton of the reversed words the repeated letter comes first, and a shortest path
to a final state is the rest of the word. -/

namespace StateTable

/-- The state after `k` more letters `c`. -/
def stepTimes (t : StateTable) (c : Char) : Nat → Nat → Option Nat
  | 0, s => some s
  | k + 1, s => (t.step? s c).bind (t.stepTimes c k)

/-- The state after `k` more letters `c`, for large `k`. `trail` are the states before `s`,
    in order; once `s` is one of them the walk goes round, and only what is left of `k`
    after whole rounds is walked. -/
def leapFrom (t : StateTable) (c : Char) (trail : IndexedSet Nat) (s : Nat) : Nat → Option Nat
  | 0 => some s
  | k + 1 =>
    match trail.idx? s with
    | some i => t.stepTimes c ((k + 1) % (trail.size - i)) s
    | none => (t.step? s c).bind fun next => t.leapFrom c (trail.insert s) next k

end StateTable

/-- The state that `k` times the letter `c` leads to from the start. -/
def Automaton.leap (a : Automaton) (c : Char) (k : Nat) : Option Nat :=
  a.table.leapFrom c .empty a.start k

/-- Lengths are 64-bit numbers. -/
def lengthBound : Nat := UInt64.size

namespace Regex

/-- The length of a shortest word that ends in `k` times `c`, if it is below
    `lengthBound`. -/
def shortestWithSuffix (r : Regex) (c : Char) (k : Nat) (letters : Alphabet) :
    Checked (Option Nat) := do
  let dfa ← r.reversed.dfa (letters.insert c)
  return do
    let s ← dfa.leap c k
    let d ← dfa.distance? s
    if d + k < lengthBound then some (d + k) else none

def hasWithSuffix (r : Regex) (c : Char) (k : Nat) (letters : Alphabet) : Checked Bool :=
  (r.shortestWithSuffix c k letters).map (·.isSome)

end Regex

end RegularLang
