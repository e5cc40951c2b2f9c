/-
  RegularLang.Automaton.Edit — what an automaton can be put through: the stages on its way
  to a complete deterministic automaton, its minimal form, its complement and back to a
  regex, and the operations that change it, as values.
-/

import RegularLang.Automaton.Deterministic
import RegularLang.Automaton.Eliminated
import RegularLang.Automaton.EpsilonFree

namespace RegularLang

/-! ## Stages

Each stage but the first checks what it needs of the automaton. -/

/-- Every final state becomes non-final and every other final: the complement, if the
    automaton is complete and deterministic. -/
def Automaton.inverted (a : Automaton) : Automaton :=
  a.mapStates fun st => { st with isFinal := !st.isFinal }

inductive Stage where
  | initial
  | simplify
  | removeEpsilon
  | optimize
  | complete
  | determine
  | minify
  | invert
  | collapse
  deriving DecidableEq

namespace Stage

def all : List Stage :=
  [initial, simplify, removeEpsilon, optimize, complete, determine, minify, invert, collapse]

/-- How a stage is asked for. -/
def name : Stage → String
  | initial => "initial"
  | simplify => "simplify"
  | removeEpsilon => "remove-epsilon"
  | optimize => "optimize"
  | complete => "complete"
  | determine => "determine"
  | minify => "minify"
  | invert => "invert"
  | collapse => "collapse"

def ofName? (name : String) : Option Stage := all.find? (·.name = name)

/-- What an automaton is called after the stage. -/
def title : Stage → String
  | initial => "INITIAL"
  | simplify => "SIMPLIFIED"
  | removeEpsilon => "EPSILON-FREE"
  | optimize => "OPTIMIZED"
  | complete => "COMPLETE"
  | determine => "DETERMINISTIC"
  | minify => "MINIMAL"
  | invert => "INVERTED"
  | collapse => "COLLAPSED"

theorem ofName?_name (s : Stage) : ofName? s.name = some s := by cases s <;> decide

def apply (a : Automaton) : Stage → Checked Automaton
  | initial => .ok a
  | simplify => .ok a.simplified
  | removeEpsilon => a.epsilonFree
  | optimize => a.trim
  | complete => a.complete
  | determine => a.determine
  | minify => a.minimize
  | invert => .ok a.inverted
  | collapse => a.eliminated

/-- The stages that make a complete deterministic automaton. -/
def toDfa : List Stage := [simplify, removeEpsilon, optimize, complete, determine]

/-- The stages up to `s`; those past the minimal automaton begin with it. -/
def upTo (s : Stage) : List Stage :=
  let minimal := toDfa ++ [minify]
  if s = initial then []
  else if s ∈ minimal then minimal.take (minimal.idxOf s + 1)
  else minimal ++ [s]

end Stage

namespace Automaton

/-- The automaton after each stage, up to the first that is refused, and the outcome. -/
def trace (a : Automaton) : List Stage → List (Stage × Automaton) × Checked Automaton
  | [] => ([], .ok a)
  | s :: stages =>
    match s.apply a with
    | .error f => ([], .error f)
    | .ok b =>
      let (steps, outcome) := b.trace stages
      ((s, b) :: steps, outcome)

def runStages (a : Automaton) (stages : List Stage) : Checked Automaton := (a.trace stages).2

@[simp] theorem runStages_nil (a : Automaton) : a.runStages [] = .ok a := rfl

theorem runStages_cons (a : Automaton) (s : Stage) (stages : List Stage) :
    a.runStages (s :: stages) = (s.apply a).bind fun b => b.runStages stages := by
  rw [runStages, trace]
  cases s.apply a <;> rfl

end Automaton

/-! ## Edits

A whole session is a list of them. An edit that is refused changes nothing. -/

inductive Edit where
  | addState (isFinal : Bool)
  | addTransition (source target : Nat) (label : Regex)
  | removeTransition (s i : Nat)
  | removeState (s : Nat)
  | setFinal (s : Nat) (isFinal : Bool)
  | setStart (s : Nat)
  | extendAlphabet (cs : List Char)
  | stage (s : Stage)
  | expandTransition (s i : Nat)
  | mergeGroup (group : List Nat)
  | absorbTarget (s i : Nat)
  | dropZeros
  | dropUnreachable
  | singleFinal
  | mergeEdges (s : Nat)
  | eliminate (s : Nat)

def Edit.apply (a : Automaton) : Edit → Checked Automaton
  | addState isFinal => .ok (a.addState isFinal)
  | addTransition source target label => a.addTransition source target label
  | removeTransition s i => (a.removeTransition s i).map (·.2)
  | removeState s => a.removeState s
  | setFinal s isFinal => a.setFinal s isFinal
  | setStart s => a.setStart s
  | extendAlphabet cs => .ok (a.extendAlphabet cs)
  | stage s => s.apply a
  | expandTransition s i => a.expandTransition s i
  | mergeGroup group => a.mergeGroup group
  | absorbTarget s i => a.absorbTarget s i
  | dropZeros => .ok a.dropZeros
  | dropUnreachable => a.dropUnreachable
  | singleFinal => .ok a.singleFinal
  | mergeEdges s => (a.mergeEdges s).map (·.2)
  | eliminate s => a.eliminate s

/-- Makes the edits in order, up to the first that is refused. -/
def Automaton.edit (a : Automaton) (edits : List Edit) : Checked Automaton :=
  edits.foldlM Edit.apply a

end RegularLang
