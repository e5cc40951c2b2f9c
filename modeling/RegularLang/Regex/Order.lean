/-
  RegularLang.Regex.Order — a total order on regexes, and the order in which the composite
  nodes of one regex come.
-/

import RegularLang.Regex.Basic

namespace RegularLang.Regex

/-! ## Comparing regexes

A `char` comes before a `concat`, that before a `sum`, and that before a `star`; characters
go by code point, operand lists lexicographically. -/

mutual

def compare : Regex → Regex → Ordering
  | .char c, .char d => Ord.compare c.toNat d.toNat
  | .concat es, .concat fs | .sum es, .sum fs => compareAll es fs
  | .star e, .star f => compare e f
  | .char _, _ | .concat _, .sum _ | .concat _, .star _ | .sum _, .star _ => .lt
  | .concat _, .char _ | .sum _, .char _ | .sum _, .concat _ | .star _, .char _
  | .star _, .concat _ | .star _, .sum _ => .gt

def compareAll : List Regex → List Regex → Ordering
  | [], [] => .eq
  | [], _ :: _ => .lt
  | _ :: _, [] => .gt
  | e :: es, f :: fs => (compare e f).then (compareAll es fs)

end

instance : Ord Regex := ⟨compare⟩

@[simp] theorem compare_self (r : Regex) : compare r r = .eq := by
  have all {es : List Regex} (h : ∀ e ∈ es, compare e e = .eq) : compareAll es es = .eq := by
    induction es with
    | nil => rfl
    | cons e es ih => simp_all [compareAll]
  induction r with
  | char c => simp [compare]
  | concat es ih | sum es ih => exact all ih
  | star e ih => exact ih

/-! ## Composite nodes

One by one, with the states that each of them needs in an automaton whose labels are single
characters. -/

mutual

/-- The nodes other than `char`, each before those below it. -/
def compositeNodes : Regex → List Regex
  | .char _ => []
  | .concat es => .concat es :: compositeNodesAll es
  | .sum es => .sum es :: compositeNodesAll es
  | .star e => .star e :: e.compositeNodes

def compositeNodesAll : List Regex → List Regex
  | [] => []
  | e :: es => e.compositeNodes ++ compositeNodesAll es

end

/-- A concatenation needs a state between each operand and the next, none if it is empty; a
    star needs one at either end of its loop. -/
def innerStates : Regex → Nat
  | .concat es => es.length - 1
  | .star _ => 2
  | .char _ | .sum _ => 0

theorem compositeNodesAll_eq (es : List Regex) :
    compositeNodesAll es = es.flatMap compositeNodes := by
  induction es <;> simp [compositeNodesAll, *]

@[simp] theorem compositeNodes_char (c : Char) : (char c).compositeNodes = [] := rfl

@[simp] theorem compositeNodes_concat (es : List Regex) :
    (concat es).compositeNodes = concat es :: es.flatMap compositeNodes := by
  rw [compositeNodes, compositeNodesAll_eq]

@[simp] theorem compositeNodes_sum (es : List Regex) :
    (sum es).compositeNodes = sum es :: es.flatMap compositeNodes := by
  rw [compositeNodes, compositeNodesAll_eq]

@[simp] theorem compositeNodes_star (e : Regex) :
    (star e).compositeNodes = star e :: e.compositeNodes := rfl

theorem compositeNodes_of_isChar {r : Regex} (h : r.isChar) : r.compositeNodes = [] := by
  cases r with
  | char c => rfl
  | concat es | sum es | star e => cases h

theorem length_compositeNodes (r : Regex) : r.compositeNodes.length = r.composites := by
  have all {es : List Regex} (h : ∀ e ∈ es, e.compositeNodes.length = e.composites) :
      (es.flatMap compositeNodes).length = compositesAll es := by
    induction es with
    | nil => rfl
    | cons e es ih => simp_all
  induction r with
  | char c => rfl
  | concat es ih | sum es ih => simp [all ih, Nat.add_comm]
  | star e ih => simp [ih, Nat.add_comm]

end RegularLang.Regex
