/-
  RegularLang.Guarded.Basic — runs that stop at the first thing that is not as the
  algorithms take it to be.

  The algorithms of this library follow targets and take apart labels without asking
  whether they may. The guarded ones ask before every step: each index is looked up,
  each operation that can be refused is carried out by the operation that refuses, a
  difference, a remainder or a sum is checked to be a number that there is, what is
  promised of a result is tested, and a loop that outlives its bound is no result
  either.
-/

import RegularLang.Automaton.Basic
import RegularLang.IndexedSet

namespace RegularLang

/-- What stops a guarded run. -/
inductive Breach where
  /-- An operation was refused, or an index is not there. -/
  | refused (f : Fault)
  /-- A result is not what was promised. -/
  | broken
  /-- A number below zero, a division by zero or a number that is too large. -/
  | arithmetic
  /-- A loop has not ended where it has to. -/
  | endless
  deriving DecidableEq

abbrev Guarded := Except Breach

/-- An operation that checks its arguments, as a step of a guarded run. -/
def Checked.guard {α : Type} (x : Checked α) : Guarded α := x.mapError .refused

namespace Guarded

/-! ## Steps -/

def require (p : Bool) (f : Fault) : Guarded Unit := if p then .ok () else .error (.refused f)

def ensure (p : Bool) : Guarded Unit := if p then .ok () else .error .broken

def lookUp {α : Type} : Option α → Guarded α
  | some x => .ok x
  | none => .error (.refused .index)

/-- An index into a table with an entry for each of `n` states. -/
def index (n s : Nat) : Guarded Nat := if s < n then .ok s else .error (.refused .index)

def minus (m n : Nat) : Guarded Nat := if n ≤ m then .ok (m - n) else .error .arithmetic

def remainder (m n : Nat) : Guarded Nat := if n = 0 then .error .arithmetic else .ok (m % n)

/-! ## Loops -/

section

variable {α β : Type}

/-- As long as `pick` finds something, does `act` with it, `n` times at most. -/
def whileFound (pick : α → Guarded (Option β)) (act : α → β → Guarded α) : Nat → α → Guarded α
  | n, x => do
    match ← pick x with
    | none => .ok x
    | some y =>
      match n with
      | 0 => .error .endless
      | n + 1 => whileFound pick act n (← act x y)

variable [Ord α] [Std.TransOrd α] [Std.LawfulEqOrd α]

/-- An exploration that finds out what a thing leads to by a guarded step. -/
def exploreN (next : α → Guarded (List α)) : Nat → Nat → IndexedSet α → Guarded (IndexedSet α)
  | n, i, found =>
    match found.get? i with
    | none => .ok found
    | some x =>
      match n with
      | 0 => .error .endless
      | n + 1 => do exploreN next n (i + 1) (found.insertAll (← next x))

def explore (next : α → Guarded (List α)) (bound : Nat) (roots : List α) : Guarded (IndexedSet α) :=
  exploreN next bound 0 (.ofList roots)

end

/-! ## Transitions -/

/-- Adds transitions in turn, each with its source. -/
def addTransitions (a : Automaton) (ts : List (Nat × Transition)) : Guarded Automaton :=
  ts.foldlM (fun a t => (a.addTransition t.1 t.2.target t.2.label).guard) a

/-- Does `act` to every state of `a` in turn. -/
def forStates (a : Automaton) (act : Automaton → Nat → Guarded Automaton) : Guarded Automaton :=
  (List.range a.size).foldlM act a

end Guarded

end RegularLang
