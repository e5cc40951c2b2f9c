/-
  RegularLang.Proofs.Subsets — the subset construction is exact (`determine_exact`). A word
  leads to the state that stands for the set of states which it leads to in the automaton
  (`exists_walk?_determinized`), final if one of these is; no set has two states, every state
  is reached, and the states are numbered in the order of the least words that reach them.
-/

import RegularLang.Proofs.Automaton.Residuals
import RegularLang.Proofs.Construction

namespace RegularLang.Automaton

variable {a : Automaton} {S : StateSet} {i : Nat} {w : List Char}

/-! ## What a word leads to -/

theorem exists_walk?_determinized (h : a.Determinizable) (hw : w ∈ wordsOver a.letters)
    (hS : a.subsets.toList[i]? = some S) :
    ∃ j T, a.determinized.walk? i w = some j ∧ a.subsets.toList[j]? = some T ∧
      ∀ q, q ∈ T ↔ ∃ p ∈ S, a.Path p w q := by
  induction w generalizing i S with
  | nil =>
    refine ⟨i, S, rfl, hS, ?_⟩
    intro q
    simp [path_nil_iff h.isSimple h.hasEpsilon]
  | cons c w ih =>
    obtain ⟨hc, hw⟩ := cons_mem_wordsOver.mp hw
    obtain ⟨j, T, hj, hT, hmem⟩ := ih hw (getElem?_subsetStep h.wellFormed h.size_pos hS hc)
    refine ⟨j, T, ?_, hT, ?_⟩
    · rw [walk?_cons, h.tabular.step?_eq (lt_size_determinized hS) hc]
      exact hj
    · intro q
      simp only [hmem, mem_successors_iff, path_cons_iff h.isSimple h.hasEpsilon]
      constructor
      · intro hx
        obtain ⟨r, ⟨p, hp, hr⟩, hq⟩ := hx
        exact ⟨p, hp, r, hr, hq⟩
      · intro hx
        obtain ⟨p, hp, r, hr, hq⟩ := hx
        exact ⟨r, ⟨p, hp, hr⟩, hq⟩

/-! ## The construction -/

/-- State `i` of `d` stands for the set `found[i]` of states of `a`. -/
structure SubsetsOf (a d : Automaton) (found : List Subset) : Prop where
  dfa : d.Dfa
  alphabet_eq : d.alphabet = a.alphabet
  start_eq : d.start = 0
  length_eq : found.length = d.size
  /-- Every word leads to the set of the states that it leads to in `a`. -/
  exists_walk? : ∀ w ∈ wordsOver a.letters, ∃ i S, d.walk? 0 w = some i ∧ found[i]? = some S ∧
    ∀ q, q ∈ S.states ↔ a.Path a.start w q
  isFinalAt_eq : ∀ i S, found[i]? = some S →
    d.isFinalAt i = S.isFinal ∧ (S.isFinal ↔ ∃ q ∈ S.states, a.isFinalAt q)
  nodup : (found.map (·.states)).Nodup
  exists_isLeastWord : ∀ i < d.size, ∃ u ∈ wordsOver a.letters, d.IsLeastWord i u
  lt_iff_shortlex : ∀ i j u v, d.IsLeastWord i u → d.IsLeastWord j v → (i < j ↔ Shortlex u v)

/-- The sets in the order in which they are found. -/
def foundSubsets (a : Automaton) : List Subset :=
  a.subsets.toList.map fun active => ⟨a.table.anyFinal active, active⟩

theorem getElem?_foundSubsets : a.foundSubsets[i]? =
    a.subsets.toList[i]?.map fun active => ⟨a.table.anyFinal active, active⟩ := List.getElem?_map

/-- Where the letters lead from each set in turn. -/
def foundMoves (a : Automaton) : List (Nat × Char × Nat) :=
  (a.subsets.toList.mapIdx fun i active =>
    a.alphabet.toList.map fun c => (i, c, a.subsets.idx (a.table.successors active c))).flatten

theorem subsetTable_eq_ok (hpos : 0 < a.size) :
    a.subsetTable = .ok (a.foundSubsets, a.foundMoves) := by
  rw [subsetTable, if_neg hpos.ne']
  rfl

theorem mem_foundMoves_iff (h : a.Determinizable) {j : Nat} {c : Char} :
    (i, c, j) ∈ a.foundMoves ↔ a.determinized.step? i c = some j := by
  rw [h.tabular.step?_eq_some_iff, size_determinized, alphabet_determinized, foundMoves]
  simp only [List.mem_flatten, List.mem_mapIdx]
  constructor
  · intro hx
    obtain ⟨_, ⟨k, hk, rfl⟩, hx⟩ := hx
    obtain ⟨d, hd, e⟩ := List.mem_map.mp hx
    cases e
    exact ⟨hk, hd, subsetStep_eq (List.getElem?_eq_getElem hk) c⟩
  · intro hx
    obtain ⟨hi, hc, rfl⟩ := hx
    refine ⟨_, ⟨i, hi, rfl⟩, List.mem_map.mpr ⟨c, hc, ?_⟩⟩
    rw [subsetStep_eq (List.getElem?_eq_getElem hi)]

/-- What is found at a place is what the state with this number stands for. -/
theorem of_getElem?_foundSubsets {S : Subset} (hS : a.foundSubsets[i]? = some S) :
    a.subsets.toList[i]? = some S.states ∧ a.determinized.isFinalAt i = S.isFinal ∧
      (S.isFinal ↔ ∃ q ∈ S.states, a.isFinalAt q) := by
  rw [getElem?_foundSubsets, Option.map_eq_some_iff] at hS
  obtain ⟨T, hT, rfl⟩ := hS
  refine ⟨hT, ?_, anyFinal_iff⟩
  rw [isFinalAt, stateAt_determinized hT]

theorem Determinizable.subsetsOf (h : a.Determinizable) :
    SubsetsOf a a.determinized a.foundSubsets := by
  have hdiscovered := discovered_determinized h.wellFormed h.size_pos
  have hletters : a.determinized.letters = a.letters := by
    rw [letters, alphabet_determinized, letters]
  refine ⟨h.dfa_determinized, alphabet_determinized a, rfl, ?_, ?_, ?_, ?_, ?_, ?_⟩
  · rw [size_determinized, foundSubsets, List.length_map]
  · intro w hw
    obtain ⟨j, T, hj, hT, hmem⟩ := exists_walk?_determinized h hw
      (getElem?_subsets_zero h.wellFormed h.size_pos)
    refine ⟨j, ⟨a.table.anyFinal T, T⟩, hj, ?_, ?_⟩
    · rw [getElem?_foundSubsets, hT, Option.map_some]
    · intro q
      simp [hmem]
  · intro i S hS
    exact (of_getElem?_foundSubsets hS).2
  · have hmap : a.foundSubsets.map (·.states) = a.subsets.toList := by
      rw [foundSubsets, List.map_map]
      exact List.map_id _
    rw [hmap]
    exact a.subsets.nodup_toList
  · intro i hi
    obtain ⟨v, -, hv⟩ := hdiscovered.exists_walk? h.tabular hi
    obtain ⟨u, hu⟩ := exists_isLeastWord hv
    exact ⟨u, hletters ▸ h.dfa_determinized.mem_wordsOver_of_walk? hu.1, hu⟩
  · intro i j u v hu hv
    exact hdiscovered.lt_iff_shortlex h.tabular hu hv

/-- The subset construction numbers the sets of states that words lead to, without
    repetition, in the order of their least words, and its result follows the moves
    between them. -/
theorem determine_exact (h : a.Determinizable) : ∃ d found rows, a.determine = .ok d ∧
    a.subsetTable = .ok (found, rows) ∧ SubsetsOf a d found ∧
      ∀ i c j, (i, c, j) ∈ rows ↔ d.step? i c = some j :=
  ⟨_, _, _, h.determine_eq_ok, subsetTable_eq_ok h.size_pos, h.subsetsOf,
    fun _ _ _ => mem_foundMoves_iff h⟩

/-- The words with an `a`, from state 1, which two transitions on `a` leave. -/
def someA : Automaton :=
  ⟨[⟨true, [⟨0, .char 'a'⟩, ⟨0, .char 'b'⟩]⟩,
    ⟨false, [⟨1, .char 'a'⟩, ⟨0, .char 'a'⟩, ⟨1, .char 'b'⟩]⟩], 1, .ofList ['a', 'b']⟩

theorem determine_exact_someA : someA.Determinizable ∧
    ∃ d found rows, someA.determine = .ok d ∧ someA.subsetTable = .ok (found, rows) ∧
      SubsetsOf someA d found ∧ ∀ i c j, (i, c, j) ∈ rows ↔ d.step? i c = some j := by
  have hwf : someA.WellFormed := ⟨by decide, by decide, by decide, by simp [someA]⟩
  have h : someA.Determinizable := ⟨hwf, by decide, by decide +kernel, by decide +kernel⟩
  exact ⟨h, determine_exact h⟩

end RegularLang.Automaton
