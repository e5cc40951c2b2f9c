/-
  RegularLang.Automaton.Basic — finite automata whose transitions carry regexes.

  A state is its place in the list of states. Removing a state moves every later
  state, every target and the start down by one. The alphabet holds the letters of
  the labels and any others the automaton is to know; U+0000 is no letter.

  Operations that take indices check them (`Checked`). `stateAt` is for following
  targets: past the last state it is a state that is not final and leads nowhere.
-/

import RegularLang.Regex.Basic
import RegularLang.Text

namespace RegularLang

/-! ## Faults

A fault is why an operation on an automaton is refused: it either names the condition that
the automaton fails or is an index that nothing has. -/

inductive Fault where
  /-- A state or transition index that the automaton does not have. -/
  | index
  | edgeOutside (source target size : Nat)
  | noSuchStart (s : Nat)
  | startRemoval (s : Nat)
  | notComposite (c : Char)
  | noTransition (s : Nat) (c : Char)
  | epsilonRemovalNotSimple
  | completionNotSimple
  | determinizationEpsilon
  | determinizationIncomplete
  | determinizationNoStart
  | minimizationUnfit
  | minimizationNoStart
  | collapsingNondeterministic
  | notCollapsed (size : Nat)
  | unexpectedFinals
  deriving DecidableEq

/-- An index fault has no message. -/
def Fault.message? : Fault → Option String
  | .index => none
  | .edgeOutside source target size =>
    some s!"transition {source} -> {target} leaves the automaton ({size} states)"
  | .noSuchStart s => some s!"start state {s} does not exist"
  | .startRemoval s => some s!"cannot remove the start state {s}"
  | .notComposite c => some (charLiteral c ++ " is not a long transition")
  | .noTransition s c => some (s!"state {s} has no transition on " ++ charLiteral c)
  | .epsilonRemovalNotSimple => some "epsilon removal needs a simple automaton"
  | .completionNotSimple => some "completion needs a simple automaton"
  | .determinizationEpsilon =>
    some "determinization needs an automaton without epsilon transitions"
  | .determinizationIncomplete => some "determinization needs a complete automaton"
  | .determinizationNoStart => some "determinization needs a start state"
  | .minimizationUnfit => some "minimization needs a complete deterministic automaton"
  | .minimizationNoStart => some "minimization needs a start state"
  | .collapsingNondeterministic => some "collapsing needs a deterministic automaton"
  | .notCollapsed size => some s!"expected a collapsed automaton, got {size} states"
  | .unexpectedFinals => some "expected a non-final start state and a final end state"

/-- The result of an operation that may be refused. -/
abbrev Checked := Except Fault

namespace Checked

variable {ε α β : Type}

theorem bind_eq_ok {x : Except ε α} {f : α → Except ε β} {y : β} :
    (x >>= f) = .ok y ↔ ∃ z, x = .ok z ∧ f z = .ok y := by
  cases x <;> simp [bind, Except.bind]

theorem map_eq_ok {x : Except ε α} {f : α → β} {y : β} :
    x.map f = .ok y ↔ ∃ z, x = .ok z ∧ f z = y := by
  cases x <;> simp [Except.map]

theorem mapError_eq_ok {δ : Type} {x : Except ε α} {f : ε → δ} {y : α} :
    x.mapError f = .ok y ↔ x = .ok y := by
  constructor
  · intro h
    cases x <;> cases h
    rfl
  · intro h
    rw [h]
    rfl

/-- What one accepted step keeps, an accepted run of steps keeps. -/
theorem foldlM_keeps {f : α → β → Except ε α} {P : α → Prop}
    (hstep : ∀ {x y z}, P x → f x y = .ok z → P z) {l : List β} {x z : α} (hx : P x)
    (h : l.foldlM f x = .ok z) : P z := by
  induction l generalizing x with
  | nil =>
    cases h
    exact hx
  | cons y l ih =>
    rw [List.foldlM_cons] at h
    obtain ⟨x', hstep', h⟩ := bind_eq_ok.mp h
    exact ih (hstep hx hstep') h

end Checked

/-! ## States and transitions -/

/-- Read a word of `label`, then go to `target`. -/
structure Transition where
  target : Nat
  label : Regex
  deriving DecidableEq

structure State where
  isFinal : Bool
  transitions : List Transition
  deriving DecidableEq

structure Automaton where
  states : List State
  start : Nat
  alphabet : Alphabet
  deriving DecidableEq

/-- The number of state `t` once state `s` is gone. -/
def lower (s t : Nat) : Nat := if s < t then t - 1 else t

/-! ## One state -/

namespace State

def dead : State := ⟨false, []⟩

/-- The place of the first transition on `c`; `epsilon` finds ε-transitions. -/
def find? (st : State) (c : Char) : Option Nat :=
  st.transitions.findIdx? (·.label = .char c)

def findTo? (st : State) (c : Char) (target : Nat) : Option Nat :=
  st.transitions.findIdx? fun t => t.target = target ∧ t.label = .char c

def count (st : State) (c : Char) : Nat := st.transitions.countP (·.label = .char c)

/-- The target of the first transition on `c`. -/
def step? (st : State) (c : Char) : Option Nat :=
  (st.transitions.find? (·.label = .char c)).map (·.target)

/-- The union of the labels of the transitions to `target`. -/
def labelTo (st : State) (target : Nat) : Regex :=
  .unionOf ((st.transitions.filter (·.target = target)).map (·.label))

def targets (st : State) : List Nat := st.transitions.map (·.target)

def epsilonTargets (st : State) : List Nat :=
  (st.transitions.filter (·.label.isEps)).map (·.target)

/-- The targets of the transitions on the letter `c`. -/
def letterTargets (st : State) (c : Char) : List Nat :=
  (st.transitions.filter (·.label.letter? = some c)).map (·.target)

def link (st : State) (target : Nat) (label : Regex) : State :=
  { st with transitions := st.transitions ++ [⟨target, label⟩] }

def unlink (st : State) (i : Nat) : State :=
  { st with transitions := st.transitions.eraseIdx i }

/-- The state without its transitions to state `s`, which is gone. -/
def without (st : State) (s : Nat) : State :=
  { st with
    transitions := (st.transitions.filter (·.target ≠ s)).map fun t =>
      { t with target := lower s t.target } }

end State

/-! ## The automaton -/

namespace Automaton

def size (a : Automaton) : Nat := a.states.length

def state (a : Automaton) (s : Nat) : Checked State :=
  match a.states[s]? with
  | some st => .ok st
  | none => .error .index

def stateAt (a : Automaton) (s : Nat) : State := a.states.getD s .dead

def transition? (a : Automaton) (s i : Nat) : Option Transition :=
  (a.stateAt s).transitions[i]?

def transition (a : Automaton) (s i : Nat) : Checked Transition :=
  match a.transition? s i with
  | some t => .ok t
  | none => .error .index

def isFinalAt (a : Automaton) (s : Nat) : Bool := (a.stateAt s).isFinal

def step? (a : Automaton) (s : Nat) (c : Char) : Option Nat := (a.stateAt s).step? c

def finalCount (a : Automaton) : Nat := a.states.countP (·.isFinal)

/-- All transitions, state by state. -/
def transitions (a : Automaton) : List Transition := a.states.flatMap (·.transitions)

def anyTransition (a : Automaton) (p : Transition → Bool) : Bool :=
  a.states.any (·.transitions.any p)

/-- Every label is one character. -/
def isSimple (a : Automaton) : Bool := a.states.all (·.transitions.all (·.label.isChar))

def isComplete (a : Automaton) : Bool :=
  a.isSimple && a.states.all fun st => a.alphabet.toList.all fun c => (st.find? c).isSome

/-- ε-transitions do not count. -/
def isDeterministic (a : Automaton) : Bool :=
  a.isSimple && a.states.all fun st => a.alphabet.toList.all fun c => st.count c ≤ 1

def hasEpsilon (a : Automaton) : Bool := a.anyTransition (·.label.isEps)

/-- The state and place of the first transition that satisfies `p`, in a list whose
    first state is number `s`. -/
def firstTransitionFrom (p : Transition → Bool) (s : Nat) : List State → Option (Nat × Nat)
  | [] => none
  | st :: sts =>
    match st.transitions.findIdx? p with
    | some i => some (s, i)
    | none => firstTransitionFrom p (s + 1) sts

def firstTransition? (a : Automaton) (p : Transition → Bool) : Option (Nat × Nat) :=
  firstTransitionFrom p 0 a.states

/-! ## Building and editing -/

def empty : Automaton := ⟨[], 0, .empty⟩

/-- Two states and one transition. -/
def ofRegex (r : Regex) : Automaton := ⟨[⟨false, [⟨1, r⟩]⟩, ⟨true, []⟩], 0, r.alphabet⟩

/-- The new state has the number `a.size`. -/
def addState (a : Automaton) (isFinal : Bool) : Automaton :=
  { a with states := a.states ++ [⟨isFinal, []⟩] }

def mapStates (a : Automaton) (f : State → State) : Automaton :=
  { a with states := a.states.map f }

def modifyState (a : Automaton) (s : Nat) (f : State → State) : Automaton :=
  { a with states := a.states.modify s f }

/-- Adds a transition whose label has no new letters. -/
def link (a : Automaton) (source target : Nat) (label : Regex) : Automaton :=
  a.modifyState source (·.link target label)

def unlink (a : Automaton) (s i : Nat) : Automaton := a.modifyState s (·.unlink i)

def extendAlphabet (a : Automaton) (cs : List Char) : Automaton :=
  { a with alphabet := a.alphabet.insertAll (cs.filter (· ≠ epsilon)) }

def addTransition (a : Automaton) (source target : Nat) (label : Regex) : Checked Automaton :=
  if source < a.size ∧ target < a.size then
    .ok ((a.link source target label).extendAlphabet label.letters)
  else .error (.edgeOutside source target a.size)

/-- The transition taken out, and the automaton without it. -/
def removeTransition (a : Automaton) (s i : Nat) : Checked (Transition × Automaton) :=
  (a.transition s i).map fun t => (t, a.unlink s i)

def setFinal (a : Automaton) (s : Nat) (isFinal : Bool) : Checked Automaton :=
  (a.state s).map fun st => { a with states := a.states.set s { st with isFinal } }

def setStart (a : Automaton) (s : Nat) : Checked Automaton :=
  if s < a.size then .ok { a with start := s } else .error (.noSuchStart s)

def without (a : Automaton) (s : Nat) : Automaton :=
  { a with states := (a.states.map (·.without s)).eraseIdx s, start := lower s a.start }

/-- The start state cannot be removed. -/
def removeState (a : Automaton) (s : Nat) : Checked Automaton :=
  if s = a.start then .error (.startRemoval s)
  else if s < a.size then .ok (a.without s)
  else .error .index

def removeStates (a : Automaton) (group : List Nat) : Checked Automaton :=
  group.foldlM removeState a

end Automaton

/-- The automaton of a regex over its own letters and those of `letters`. -/
def Automaton.over (r : Regex) (letters : Alphabet) : Automaton :=
  (Automaton.ofRegex r).extendAlphabet letters.toList

/-! ## The states in an array

For the algorithms that look up many of them: `table_stateAt` says that a look-up finds what
`Automaton.stateAt` does. -/

structure StateTable where
  states : Array State

def StateTable.size (t : StateTable) : Nat := t.states.size

def StateTable.stateAt (t : StateTable) (s : Nat) : State := t.states.getD s .dead

def StateTable.step? (t : StateTable) (s : Nat) (c : Char) : Option Nat := (t.stateAt s).step? c

namespace Automaton

def table (a : Automaton) : StateTable := ⟨a.states.toArray⟩

@[simp] theorem table_size (a : Automaton) : a.table.size = a.size := by
  simp [table, StateTable.size, size]

@[simp] theorem table_stateAt (a : Automaton) : a.table.stateAt = a.stateAt := by
  funext s
  simp [table, StateTable.stateAt, stateAt]

@[simp] theorem table_step? (a : Automaton) : a.table.step? = a.step? := by
  funext s c
  simp [StateTable.step?, step?]

end Automaton

/-! ## Well-formed automata

What every automaton satisfies that is built by the operations of this library: targets and
start exist, U+0000 is no letter of the alphabet, and the alphabet has every letter of every
label. -/

namespace Automaton

structure WellFormed (a : Automaton) : Prop where
  target_lt : ∀ st ∈ a.states, ∀ t ∈ st.transitions, t.target < a.size
  /-- An automaton without states starts at 0. -/
  start_lt : a.start < a.size ∨ a.states = [] ∧ a.start = 0
  epsilon_not_mem : epsilon ∉ a.alphabet
  letters_mem : ∀ st ∈ a.states, ∀ t ∈ st.transitions, ∀ c ∈ t.label.letters, c ∈ a.alphabet

theorem stateAt_eq_get {a : Automaton} {s : Nat} (h : s < a.size) :
    a.stateAt s = a.states.get ⟨s, h⟩ := by
  rw [stateAt, List.getD_eq_getElem?_getD, List.getElem?_eq_getElem h, Option.getD_some]
  rfl

theorem stateAt_mem {a : Automaton} {s : Nat} (h : s < a.size) : a.stateAt s ∈ a.states := by
  rw [stateAt_eq_get h]
  exact List.get_mem ..

theorem stateAt_of_size_le {a : Automaton} {s : Nat} (h : a.size ≤ s) : a.stateAt s = .dead := by
  rw [stateAt, List.getD_eq_getElem?_getD, List.getElem?_eq_none h, Option.getD_none]

/-- Following a transition never leaves the automaton. -/
theorem WellFormed.target_lt_of_mem {a : Automaton} (h : a.WellFormed) {s : Nat} {t : Transition}
    (ht : t ∈ (a.stateAt s).transitions) : t.target < a.size := by
  by_cases hs : s < a.size
  · exact h.target_lt _ (stateAt_mem hs) t ht
  · rw [stateAt_of_size_le (Nat.not_lt.mp hs)] at ht
    exact absurd ht List.not_mem_nil

theorem wellFormed_empty : empty.WellFormed where
  target_lt := fun _ h => absurd h List.not_mem_nil
  start_lt := .inr ⟨rfl, rfl⟩
  epsilon_not_mem := SortedSet.not_mem_empty _
  letters_mem := fun _ h => absurd h List.not_mem_nil

theorem wellFormed_ofRegex (r : Regex) : (ofRegex r).WellFormed where
  target_lt := by simp [ofRegex, size]
  start_lt := .inl (by simp [ofRegex, size])
  epsilon_not_mem := fun h => r.epsilon_not_mem_letters (Regex.mem_alphabet.mp h)
  letters_mem := by simp [ofRegex]

end Automaton

end RegularLang
