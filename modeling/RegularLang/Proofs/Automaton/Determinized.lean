/-
  RegularLang.Proofs.Automaton.Determinized — a state of the subset construction reads
  what the states of its set read together (`mem_languageFrom_determinized`), and the
  result has a transition function (`tabular_determinized`).
-/

import Mathlib.Data.Finset.Powerset
import RegularLang.Automaton.Deterministic
import RegularLang.Proofs.Automaton.Completed

namespace RegularLang

/-! ## Sets of states -/

/-- There are at most `2 ^ n` sets of states below `n`. -/
theorem length_le_two_pow {n : Nat} (l : List StateSet) (h : l.Nodup)
    (hl : ∀ S ∈ l, ∀ s ∈ S, s < n) : l.length ≤ Nat.pow 2 n := by
  have hinj : Function.Injective fun S : StateSet => S.toList.toFinset := by
    intro S T e
    ext s
    have := Finset.ext_iff.mp e s
    rwa [List.mem_toFinset, List.mem_toFinset] at this
  have hsub : (l.map fun S => S.toList.toFinset).toFinset ⊆ (Finset.range n).powerset := by
    intro T hT
    obtain ⟨S, hS, rfl⟩ := List.mem_map.mp (List.mem_toFinset.mp hT)
    exact Finset.mem_powerset.mpr fun s hs =>
      Finset.mem_range.mpr (hl S hS s (List.mem_toFinset.mp hs))
  have hcard := Finset.card_le_card hsub
  rw [List.toFinset_card_of_nodup (h.map hinj), List.length_map, Finset.card_powerset,
    Finset.card_range] at hcard
  exact hcard

namespace Automaton

variable {a : Automaton} {S : StateSet} {i : Nat} {c : Char}

theorem mem_moves {T : StateSet} :
    T ∈ a.table.moves a.alphabet S ↔ ∃ c ∈ a.alphabet, a.table.successors S c = T := by
  rw [StateTable.moves, List.mem_map]
  rfl

theorem moves_lt (ha : a.WellFormed) (S : StateSet) :
    ∀ T ∈ a.table.moves a.alphabet S, ∀ s ∈ T, s < a.size := by
  intro T hT s hs
  obtain ⟨c, -, rfl⟩ := mem_moves.mp hT
  obtain ⟨p, -, h⟩ := mem_successors_iff.mp hs
  exact letterTarget_lt ha h

theorem explored_subsets (ha : a.WellFormed) (hpos : 0 < a.size) :
    Explored (a.table.moves a.alphabet) [.singleton a.start] a.subsets.toList.length
      a.subsets.toList := by
  refine explored_explore (P := fun S => ∀ s ∈ S, s < a.size) ?_ (fun S _ => moves_lt ha S)
    length_le_two_pow
  simpa using ha.start_lt_of_pos hpos

theorem subsets_eq (ha : a.WellFormed) (hpos : 0 < a.size) :
    insertAllNew [] (.singleton a.start :: a.subsets.toList.flatMap (a.table.moves a.alphabet)) =
      a.subsets.toList := by
  have h := (explored_subsets ha hpos).found_eq
  rwa [List.take_length] at h

theorem successors_mem_subsets (ha : a.WellFormed) (hpos : 0 < a.size) (hS : S ∈ a.subsets.toList)
    (hc : c ∈ a.alphabet) : a.table.successors S c ∈ a.subsets := by
  rw [IndexedSet.mem_def, ← subsets_eq ha hpos, mem_insertAllNew]
  exact .inr (List.mem_cons_of_mem _ (List.mem_flatMap.mpr ⟨S, hS, mem_moves.mpr ⟨c, hc, rfl⟩⟩))

theorem getElem?_subsets_zero (ha : a.WellFormed) (hpos : 0 < a.size) :
    a.subsets.toList[0]? = some (.singleton a.start) := by
  obtain ⟨l, hl⟩ := prefix_insertAllNew [SortedSet.singleton a.start]
    (a.subsets.toList.flatMap (a.table.moves a.alphabet))
  have e : [SortedSet.singleton a.start] ++ l = a.subsets.toList := hl.trans (subsets_eq ha hpos)
  rw [← e]
  rfl

/-! ## The automaton of the sets -/

theorem size_determinized (a : Automaton) : a.determinized.size = a.subsets.toList.length := by
  simp [determinized, size]

theorem lt_size_determinized (h : a.subsets.toList[i]? = some S) : i < a.determinized.size := by
  rw [size_determinized]
  exact (List.getElem?_eq_some_iff.mp h).1

/-- Where the letter `c` leads from the set with the number `i`. -/
def subsetStep (a : Automaton) (i : Nat) (c : Char) : Nat :=
  a.subsets.idx (a.table.successors (a.subsets.toList.getD i .empty) c)

theorem subsetStep_eq (h : a.subsets.toList[i]? = some S) (c : Char) :
    a.subsetStep i c = a.subsets.idx (a.table.successors S c) := by
  rw [subsetStep, List.getD_eq_getElem?_getD, h, Option.getD_some]

theorem stateAt_determinized (h : a.subsets.toList[i]? = some S) :
    a.determinized.stateAt i =
      ⟨a.table.anyFinal S, a.alphabet.toList.map fun c => ⟨a.subsetStep i c, .char c⟩⟩ := by
  rw [stateAt, List.getD_eq_getElem?_getD, determinized, List.getElem?_map, h, Option.map_some,
    Option.getD_some]
  simp only [subsetStep_eq h]

theorem getElem?_subsetStep (ha : a.WellFormed) (hpos : 0 < a.size)
    (h : a.subsets.toList[i]? = some S) (hc : c ∈ a.alphabet) :
    a.subsets.toList[a.subsetStep i c]? = some (a.table.successors S c) := by
  rw [subsetStep_eq h]
  exact IndexedSet.getElem?_idx (successors_mem_subsets ha hpos (List.mem_of_getElem? h) hc)

theorem tabular_determinized (ha : a.WellFormed) (hpos : 0 < a.size) :
    a.determinized.Tabular a.subsetStep where
  epsilon_not_mem := ha.epsilon_not_mem
  lt_size := by
    intro i hi c hc
    rw [size_determinized] at hi
    exact lt_size_determinized (getElem?_subsetStep ha hpos (List.getElem?_eq_getElem hi) hc)
  transitions_eq := by
    intro i hi
    rw [size_determinized] at hi
    rw [stateAt_determinized (List.getElem?_eq_getElem hi)]
    rfl

/-- A state reads what the states of its set read together. -/
theorem mem_languageFrom_determinized (ha : a.WellFormed) (hpos : 0 < a.size) (hs : a.isSimple)
    (he : a.hasEpsilon = false) {w : List Char} (h : a.subsets.toList[i]? = some S) :
    w ∈ a.determinized.languageFrom i ↔ ∃ s ∈ S, w ∈ a.languageFrom s := by
  have htab := tabular_determinized ha hpos
  induction w generalizing i S with
  | nil =>
    rw [htab.nil_mem_languageFrom_iff, isFinalAt, stateAt_determinized h]
    simp only [anyFinal_iff, nil_mem_languageFrom_iff hs he]
  | cons c w ih =>
    rw [htab.cons_mem_languageFrom_iff (lt_size_determinized h)]
    simp only [cons_mem_languageFrom_iff hs he]
    constructor
    · intro hx
      obtain ⟨hc, hw⟩ := hx
      obtain ⟨q, hq, hw⟩ := (ih (getElem?_subsetStep ha hpos h hc)).mp hw
      obtain ⟨p, hp, hpq⟩ := mem_successors_iff.mp hq
      exact ⟨p, hp, q, hpq, hw⟩
    · intro hx
      obtain ⟨p, hp, q, hpq, hw⟩ := hx
      have hc : c ∈ a.alphabet := by
        obtain ⟨t, ht, hl, -⟩ := State.mem_letterTargets.mp hpq
        obtain ⟨hne, e⟩ := Regex.letter?_eq_some_iff.mp hl
        exact ha.letters_mem_of_mem ht (by simp [e, hne])
      exact ⟨hc, (ih (getElem?_subsetStep ha hpos h hc)).mpr
        ⟨q, mem_successors_iff.mpr ⟨p, hp, hpq⟩, hw⟩⟩

theorem language_determinized (ha : a.WellFormed) (hpos : 0 < a.size) (hs : a.isSimple)
    (he : a.hasEpsilon = false) : a.determinized.language = a.language := by
  ext w
  rw [language_eq_languageFrom, language_eq_languageFrom]
  refine (mem_languageFrom_determinized ha hpos hs he (getElem?_subsets_zero ha hpos)).trans ?_
  simp

end Automaton

end RegularLang
