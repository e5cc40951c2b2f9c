/-
  RegularLang.Proofs.Guarded.Determinized — the subset construction meets nothing
  unexpected (`determine_eq`), since the sets hold states only, and neither does minimizing
  (`minimize_eq`).

  The construction records the moves while the sets are being found, each with the number
  that the target has at that time. A set keeps its number when others join, so that these
  are the moves between the sets found in the end (`superpositions_eq`).

  Every state of a complete automaton has a transition on every letter, the rounds of the
  refinement end in time, and there are as many first members as there are classes
  (`length_firstMembers`).
-/

import RegularLang.Guarded.Stages
import RegularLang.Proofs.Automaton.Determinized
import RegularLang.Proofs.Automaton.Merged
import RegularLang.Proofs.Automaton.Minimized
import RegularLang.Proofs.Guarded.Basic
import RegularLang.Proofs.Subsets

namespace RegularLang.Guarded

open Automaton

variable {a b : Automaton} {letters : Alphabet} {finals : List Bool} {S : StateSet} {c : Char}

/-! ## New states all at once -/

theorem foldl_addState (a : Automaton) (finals : List Bool) :
    finals.foldl addState a = { a with states := a.states ++ finals.map (⟨·, []⟩) } := by
  induction finals generalizing a with
  | nil => rw [List.map_nil, List.append_nil]; rfl
  | cons final finals ih =>
    rw [List.foldl_cons, ih, addState, List.append_assoc]
    rfl

theorem blank_eq (h : epsilon ∉ letters) (finals : List Bool) :
    blank letters finals = ⟨finals.map (⟨·, []⟩), 0, letters⟩ := by
  have hal : SortedSet.empty.insertAll (letters.toList.filter (· ≠ epsilon)) = letters := by
    ext c
    rw [SortedSet.mem_insertAll, List.mem_filter, decide_eq_true_iff]
    refine ⟨fun hc => (hc.resolve_left (SortedSet.not_mem_empty c)).1, fun hc => .inr ⟨hc, ?_⟩⟩
    exact fun e => h (e ▸ hc)
  rw [blank, foldl_addState]
  exact eq_of_stateAt rfl rfl hal fun _ _ => rfl

/-- An automaton is built from its finality and its rows of transitions. -/
theorem addTransitions_blank {α : Type} {l : List α} {f : Nat → α → List Transition}
    {g : α → Bool} (hb : b.WellFormed) (hsize : b.size = l.length)
    (h : ∀ p x, l[p]? = some x → b.stateAt p = ⟨g x, f p x⟩) :
    addTransitions (blank b.alphabet (l.map g))
      (l.mapIdx fun p x => (f p x).map fun t => (p, t)).flatten = .ok { b with start := 0 } := by
  rw [blank_eq hb.epsilon_not_mem]
  have hlength : (⟨(l.map g).map (⟨·, []⟩), 0, b.alphabet⟩ : Automaton).size = l.length := by
    simp [size]
  refine addTransitions_eq_of_rows hb (hsize.trans hlength.symm) rfl ?_ ?_
  · rw [hlength]
    exact source_rows_lt
  · intro p hp
    rw [hlength] at hp
    have hx := List.getElem?_eq_getElem hp
    rw [h p _ hx, outOf_rows hx]
    simp [stateAt, hp]

/-! ## Determinizing -/

theorem successors_eq_ok (hS : ∀ s ∈ S, s < a.size) (c : Char) :
    successors a S c = .ok (a.table.successors S c) := by
  rw [successors, bind_of_eq_ok
    (mapM_eq_ok fun s hs => guard_state_eq_ok (hS s hs))]
  refine congrArg Except.ok ?_
  rw [StateTable.successors, table_stateAt, List.flatMap_map]

theorem subset_eq_ok (hS : ∀ s ∈ S, s < a.size) : subset a S = .ok ⟨a.table.anyFinal S, S⟩ := by
  rw [subset, groupFinal_eq_ok hS, StateTable.anyFinal, table_stateAt]
  rfl

/-! ### The sets with their numbers -/

/-- The sets of `ids` in turn, and the moves that have been recorded. -/
def recorded (a : Automaton) (ids : IndexedSet StateSet) (moves : List (Nat × Char × Nat)) :
    Superpositions :=
  ⟨ids.toList.map fun active => ⟨a.table.anyFinal active, active⟩, ids, moves⟩

/-- The moves from set `i`, whose states are `active`. -/
def movesFrom (a : Automaton) (ids : IndexedSet StateSet) (i : Nat) (active : StateSet) :
    List (Nat × Char × Nat) :=
  a.alphabet.toList.map fun c => (i, c, ids.idx (a.table.successors active c))

section

variable {ids : IndexedSet StateSet} {moves : List (Nat × Char × Nat)} {cs : List Char} {i n : Nat}

theorem successors_lt (ha : a.WellFormed) (S : StateSet) (c : Char) :
    ∀ s ∈ a.table.successors S c, s < a.size := by
  intro s hs
  obtain ⟨p, -, hp⟩ := mem_successors_iff.mp hs
  exact letterTarget_lt ha hp

theorem recordMove_eq_ok (ha : a.WellFormed) (hS : ∀ s ∈ S, s < a.size) (ids : IndexedSet StateSet)
    (moves : List (Nat × Char × Nat)) (c : Char) :
    let found := ids.insert (a.table.successors S c)
    recordMove a i S (recorded a ids moves) c =
      .ok (recorded a found (moves ++ [(i, c, found.idx (a.table.successors S c))])) := by
  intro found
  have hids : (recorded a ids moves).ids.idx? = ids.idx? := rfl
  rw [recordMove, bind_of_eq_ok (successors_eq_ok hS c), hids]
  cases hid : ids.idx? (a.table.successors S c) with
  | some id =>
    have hmem : a.table.successors S c ∈ ids :=
      List.mem_of_getElem? (IndexedSet.idx?_eq_some.mp hid)
    have hsame : found = ids := IndexedSet.insert_of_mem hmem
    rw [hsame, IndexedSet.idx, hid]
    rfl
  | none =>
    have hnew := IndexedSet.toList_insert_of_not_mem (IndexedSet.idx?_eq_none.mp hid)
    have hlast : found.idx (a.table.successors S c) = ids.toList.length := by
      apply IndexedSet.idx_eq
      rw [hnew, List.getElem?_concat_length]
    have hfound : (recorded a found []).found = (recorded a ids []).found ++
        [⟨a.table.anyFinal (a.table.successors S c), a.table.successors S c⟩] := by
      rw [recorded, hnew, List.map_append]
      rfl
    have hid : minus (recorded a found []).found.length 1 = .ok ids.toList.length := by
      rw [recorded, hnew, List.length_map, List.length_append]
      rfl
    show (subset a _ >>= fun new => minus ((recorded a ids []).found ++ [new]).length 1 >>= _) = _
    rw [bind_of_eq_ok (subset_eq_ok (successors_lt ha S c)), ← hfound, bind_of_eq_ok hid, hlast]
    exact congrArg Except.ok (congrArg (Superpositions.mk · _ _) hfound.symm)

/-- All letters in turn. -/
theorem foldlM_recordMove (ha : a.WellFormed) (hS : ∀ s ∈ S, s < a.size) (ids : IndexedSet StateSet)
    (moves : List (Nat × Char × Nat)) (cs : List Char) :
    let found := ids.insertAll (cs.map (a.table.successors S))
    cs.foldlM (recordMove a i S) (recorded a ids moves) =
      .ok (recorded a found
        (moves ++ cs.map fun c => (i, c, found.idx (a.table.successors S c)))) := by
  induction cs generalizing ids moves with
  | nil =>
    intro found
    exact congrArg (fun moves => Except.ok (recorded a ids moves)) (List.append_nil moves).symm
  | cons c cs ih =>
    intro found
    have hmem : a.table.successors S c ∈ ids.insert (a.table.successors S c) :=
      IndexedSet.mem_insert.mpr (.inr rfl)
    have hprefix : (ids.insert (a.table.successors S c)).toList <+: found.toList :=
      (ids.insert (a.table.successors S c)).prefix_insertAll (cs.map (a.table.successors S))
    rw [List.foldlM_cons, bind_of_eq_ok (recordMove_eq_ok ha hS ids moves c), ih,
      List.append_assoc, ← IndexedSet.idx_of_prefix hprefix hmem]
    rfl

/-- What is recorded in the end: all moves from the sets at place `i` and after it are new. -/
def explored (a : Automaton) (n i : Nat) (ids : IndexedSet StateSet)
    (moves : List (Nat × Char × Nat)) : Superpositions :=
  let found := RegularLang.exploreN (a.table.moves a.alphabet) n i ids
  recorded a found
    (moves ++ ((found.toList.drop i).mapIdx fun j => movesFrom a found (i + j)).flatten)

theorem explored_of_length_le (h : ids.toList.length ≤ i) (n : Nat) :
    explored a n i ids moves = recorded a ids moves := by
  rw [explored, exploreN_of_length_le h, List.drop_eq_nil_of_le h, List.mapIdx_nil,
    List.flatten_nil, List.append_nil]

theorem explored_succ (hS : ids.toList[i]? = some S) (n : Nat) :
    let found := ids.insertAll (a.table.moves a.alphabet S)
    explored a (n + 1) i ids moves = explored a n (i + 1) found (moves ++ movesFrom a found i S) := by
  intro found
  have hexplore : RegularLang.exploreN (a.table.moves a.alphabet) (n + 1) i ids =
      RegularLang.exploreN (a.table.moves a.alphabet) n (i + 1) found := by
    rw [RegularLang.exploreN, IndexedSet.get?_eq, hS]
  have hprefix := prefix_exploreN (a.table.moves a.alphabet) n (i + 1) found
  rw [explored, explored, hexplore]
  generalize RegularLang.exploreN (a.table.moves a.alphabet) n (i + 1) found = last at hprefix
  have hlast : last.toList[i]? = some S := by
    obtain ⟨more, hmore⟩ := (ids.prefix_insertAll _).trans hprefix
    rw [← hmore, List.getElem?_append_left (List.getElem?_eq_some_iff.mp hS).1, hS]
  have hmoves : movesFrom a found i S = movesFrom a last i S := by
    refine List.map_congr_left fun c hc => ?_
    have hmem : a.table.successors S c ∈ found :=
      IndexedSet.mem_insertAll.mpr (.inr (List.mem_map_of_mem hc))
    rw [IndexedSet.idx_of_prefix hprefix hmem]
  obtain ⟨hi, hS⟩ := List.getElem?_eq_some_iff.mp hlast
  rw [List.drop_eq_getElem_cons hi, hS, List.mapIdx_cons, List.flatten_cons, hmoves,
    List.append_assoc]
  simp only [Nat.add_zero, Nat.add_assoc, Nat.add_comm 1]

theorem superpositionsN_of_length_le (h : ids.toList.length ≤ i) (n : Nat) :
    superpositionsN a n i (recorded a ids moves) = .ok (explored a n i ids moves) := by
  have hnone : (recorded a ids moves).found[i]? = none :=
    List.getElem?_eq_none ((List.length_map ..).trans_le h)
  rw [superpositionsN, hnone, explored_of_length_le h]

theorem superpositionsN_eq_ok (ha : a.WellFormed) (h : ∀ S ∈ ids.toList, ∀ s ∈ S, s < a.size)
    (hn : Nat.pow 2 a.size ≤ n + i) :
    superpositionsN a n i (recorded a ids moves) = .ok (explored a n i ids moves) := by
  induction n generalizing i ids moves with
  | zero =>
    have hlen := length_le_two_pow _ ids.nodup_toList h
    exact superpositionsN_of_length_le (hlen.trans (by omega)) 0
  | succ n ih =>
    cases hS : ids.toList[i]? with
    | none => exact superpositionsN_of_length_le (List.getElem?_eq_none_iff.mp hS) _
    | some S =>
      have hnext : (recorded a ids moves).found[i]? = some ⟨a.table.anyFinal S, S⟩ := by
        rw [recorded, List.getElem?_map, hS]
        rfl
      have hlt := h S (List.mem_of_getElem? hS)
      have hmoves := foldlM_recordMove (i := i) ha hlt ids moves a.alphabet.toList
      rw [superpositionsN, hnext, explored_succ hS]
      show (a.alphabet.toList.foldlM (recordMove a i S) _ >>= superpositionsN a n (i + 1)) = _
      rw [bind_of_eq_ok hmoves]
      refine ih ?_ (by omega)
      intro T hT
      rcases IndexedSet.mem_insertAll.mp hT with hT | hT
      · exact h T hT
      · obtain ⟨c, -, rfl⟩ := List.mem_map.mp hT
        exact successors_lt ha S c

end

/-- One pass finds the sets and the moves between them. -/
theorem superpositions_eq (ha : a.WellFormed) (hpos : 0 < a.size) :
    superpositions a = a.subsetTable.guard := by
  let start : StateSet := .singleton a.start
  have hstart : ∀ s ∈ start, s < a.size := by
    intro s hs
    rw [SortedSet.mem_singleton.mp hs]
    exact ha.start_lt_of_pos hpos
  have hroot : (IndexedSet.ofList [start]).toList = [start] := IndexedSet.toList_insertAll ..
  have hfirst : recorded a (.ofList [start]) [] =
      ⟨[⟨a.table.anyFinal start, start⟩], .ofList [start], []⟩ := by
    rw [recorded, hroot]
    rfl
  have hpass : superpositionsN a (Nat.pow 2 a.size) 0 (recorded a (.ofList [start]) []) =
      .ok (explored a (Nat.pow 2 a.size) 0 (.ofList [start]) []) :=
    superpositionsN_eq_ok ha (by simpa [hroot] using hstart) (Nat.le_add_right _ 0)
  rw [hfirst] at hpass
  rw [superpositions, bind_of_eq_ok (subset_eq_ok hstart), bind_of_eq_ok hpass,
    subsetTable_eq_ok hpos]
  have hmoves : (explored a (Nat.pow 2 a.size) 0 (.ofList [start]) []).moves = a.foundMoves := by
    show [] ++ ((a.subsets.toList.drop 0).mapIdx fun j => movesFrom a a.subsets (0 + j)).flatten = _
    simp only [List.nil_append, List.drop_zero, Nat.zero_add]
    rfl
  rw [hmoves]
  rfl

theorem addTransitions_determinized (ha : a.WellFormed) (hpos : 0 < a.size) :
    addTransitions (blank a.alphabet (a.foundSubsets.map (·.isFinal)))
      (a.foundMoves.map fun m => (m.1, ⟨m.2.2, .char m.2.1⟩)) = .ok a.determinized := by
  have hstart : a.determinized.start < a.determinized.size :=
    lt_size_determinized (getElem?_subsets_zero ha hpos)
  have hfinals : a.foundSubsets.map (·.isFinal) = a.subsets.toList.map a.table.anyFinal := by
    rw [foundSubsets, List.map_map]
    rfl
  have hmoves : a.foundMoves.map (fun m => (m.1, (⟨m.2.2, .char m.2.1⟩ : Transition))) =
      (a.subsets.toList.mapIdx fun i S => (a.alphabet.toList.map fun c =>
        (⟨a.subsets.idx (a.table.successors S c), .char c⟩ : Transition)).map fun t =>
          (i, t)).flatten := by
    rw [foundMoves, List.map_flatten]
    refine congrArg List.flatten (List.ext_getElem? fun i => ?_)
    simp [List.getElem?_mapIdx, Function.comp_def]
  rw [hfinals, hmoves]
  refine addTransitions_blank ((tabular_determinized ha hpos).wellFormed hstart)
    (size_determinized a) fun i S hS => ?_
  rw [stateAt_determinized hS]
  refine congrArg (State.mk _) (List.map_congr_left fun c _ => ?_)
  rw [subsetStep_eq hS]

theorem determine_eq (ha : a.WellFormed) : determine a = a.determine.guard := by
  rw [determine, Automaton.determine]
  cases he : a.hasEpsilon with
  | true => rfl
  | false =>
    cases hc : a.isComplete with
    | false => rfl
    | true =>
      rcases Nat.eq_zero_or_pos a.size with hzero | hpos
      · rw [hzero]
        rfl
      · have htable := congrArg Checked.guard (subsetTable_eq_ok hpos)
        rw [bind_of_eq_ok (require_of_true (p := !false) rfl _),
          bind_of_eq_ok (require_of_true (p := true) rfl _),
          bind_of_eq_ok (require_of_true (decide_eq_true hpos) _),
          bind_of_eq_ok ((superpositions_eq ha hpos).trans htable), if_neg (Nat.ne_of_gt hpos)]
        exact addTransitions_determinized ha hpos

variable {p : Partition} {s k n count : Nat}

/-! ## Refining -/

theorem lookUp_class (hp : p.size = a.size) (hs : s < a.size) :
    ∃ k, lookUp p[s]? = .ok k :=
  ⟨_, lookUp_eq_ok (Array.getElem?_eq_getElem (hp ▸ hs))⟩

theorem move_eq_ok (ha : a.WellFormed) (hc : a.isComplete) (hp : p.size = a.size)
    (hs : s < a.size) {c : Char} (hcm : c ∈ a.alphabet) : move a p s c = .ok (a.step? s c) := by
  obtain ⟨q, hq⟩ := exists_step? hc hs hcm
  obtain ⟨k, hk⟩ := lookUp_class hp (step?_lt_size ha hq)
  have hst : (a.stateAt s).step? c = some q := hq
  rw [move, bind_of_eq_ok (guard_state_eq_ok hs), hst, hq]
  exact bind_of_eq_ok hk _

theorem moves_eq_ok (ha : a.WellFormed) (hc : a.isComplete) (hp : p.size = a.size)
    (hs : s < a.size) : moves a p s = .ok (a.alphabet.toList.map (a.step? s)) := by
  obtain ⟨k, hk⟩ := lookUp_class hp hs
  rw [moves, bind_of_eq_ok hk]
  exact mapM_eq_ok fun c (hcm : c ∈ a.alphabet.toList) => move_eq_ok ha hc hp hs hcm

theorem refine_eq_ok (ha : a.WellFormed) (hc : a.isComplete) (hp : p.size = a.size) :
    refine a p = .ok (p.refine a.moves) := by
  have hmoves : (List.range p.size).mapM (moves a p) = .ok a.moves := by
    rw [mapM_eq_ok fun s hs => moves_eq_ok ha hc hp (hp ▸ List.mem_range.mp hs)]
    refine congrArg Except.ok (List.ext_getElem (by simp [length_moves, hp]) fun s hs hs' => ?_)
    rw [List.getElem_map, List.getElem_range, getElem_moves]
  rw [refine, bind_of_eq_ok hmoves]
  rfl

theorem refineN_eq_ok (ha : a.WellFormed) (hc : a.isComplete) (hp : p.size = a.size)
    (hcount : count = 0 ∨ count = p.classCount) (hn : a.size < n + count) :
    refineN a n p count = .ok (Partition.refineN a.moves n p count) := by
  induction n generalizing p count with
  | zero =>
    have := Partition.classCount_le_size p
    rcases hcount with h | h <;> omega
  | succ n ih =>
    have hlen := length_moves a
    have hsize := Partition.size_refine p a.moves
    have hadd := Partition.classCount_le_refine (hp.trans hlen.symm)
    have hcl := Partition.classCount_refine p a.moves
    rw [refineN, bind_of_eq_ok (refine_eq_ok ha hc hp), Partition.refineN]
    split_ifs with h
    · rfl
    · exact ih (hsize.trans hlen) (.inr hcl.symm) (by rcases hcount with h | h <;> omega)

theorem classes_eq_ok (ha : a.WellFormed) (hc : a.isComplete) : classes a = .ok a.classes := by
  refine refineN_eq_ok ha hc (by simp [size]) (.inl rfl) (by omega)

/-! ## First members -/

theorem lookUp_classes (ha : a.WellFormed) (hc : a.isComplete) (hs : s < a.size) :
    lookUp a.classes.1[s]? = .ok (a.classOf s) :=
  lookUp_eq_ok (getElem?_classes ha hc hs)

/-- The transitions of a class as its first member `s` has them. -/
def rowOf (a : Automaton) (s : Nat) : List Transition :=
  a.alphabet.toList.filterMap fun c => (a.step? s c).map fun target => ⟨a.classOf target, .char c⟩

theorem classRow_eq_ok (ha : a.WellFormed) (hc : a.isComplete) (h : a.FirstMember k s) :
    classRow a a.classes.1 (s, k) = .ok ((rowOf a s).map fun t => (k, t)) := by
  rw [classRow, bind_of_eq_ok (guard_state_eq_ok (h.lt_size ha hc)),
    mapM_eq_ok (g := fun move => (k, ⟨a.classOf move.2, .char move.1⟩)) fun move hmove => ?_]
  · refine congrArg Except.ok ?_
    rw [rowOf, List.map_filterMap, List.map_filterMap]
    simp only [Option.map_map]
    rfl
  · obtain ⟨c, -, hmove⟩ := List.mem_filterMap.mp hmove
    obtain ⟨q, hq, rfl⟩ := Option.map_eq_some_iff.mp hmove
    rw [bind_of_eq_ok (lookUp_classes ha hc (step?_lt_size ha hq))]
    rfl

theorem addTransitions_minimized (ha : a.WellFormed) (hc : a.isComplete) (hpos : 0 < a.size) :
    addTransitions (blank a.alphabet (a.classes.1.firstMembers.map a.isFinalAt))
      (a.classes.1.firstMembers.mapIdx fun k s => (rowOf a s).map fun t => (k, t)).flatten =
        .ok { a.minimized with start := 0 } := by
  have hstart : a.minimized.start < a.minimized.size :=
    classOf_lt_size ha hc (ha.start_lt_of_pos hpos)
  refine addTransitions_blank (f := fun _ s => rowOf a s)
    ((tabular_minimized ha hc).wellFormed hstart) (size_minimized a) fun k s h => ?_
  exact stateAt_minimized h

theorem minimize_eq_ok (ha : a.WellFormed) (hc : a.isComplete) (hd : a.isDeterministic)
    (hpos : 0 < a.size) : minimize a = .ok a.minimized := by
  have hstart := ha.start_lt_of_pos hpos
  have hmembers : a.classes.1.firstMembers.mapM (fun s => (a.state s).guard) =
      .ok (a.classes.1.firstMembers.map a.stateAt) := by
    refine mapM_eq_ok fun s hs => ?_
    obtain ⟨k, hk⟩ := List.mem_iff_getElem?.mp hs
    exact guard_state_eq_ok (FirstMember.lt_size ha hc hk)
  have hrows := mapM_zipIdx_eq_ok (l := a.classes.1.firstMembers)
    fun s k hk => classRow_eq_ok ha hc (k := k) hk
  have hfinals : (a.classes.1.firstMembers.map a.stateAt).map (·.isFinal) =
      a.classes.1.firstMembers.map a.isFinalAt := List.map_map
  have hfit : a.isDeterministic && a.isComplete := by rw [hd, hc]; rfl
  rw [minimize, bind_of_eq_ok (require_of_true hfit _),
    bind_of_eq_ok (require_of_true (decide_eq_true hpos) _), bind_of_eq_ok (classes_eq_ok ha hc)]
  dsimp only
  rw [bind_of_eq_ok (ensure_of_true (decide_eq_true (length_firstMembers ha hc))),
    bind_of_eq_ok hmembers, bind_of_eq_ok hrows, hfinals,
    bind_of_eq_ok (addTransitions_minimized ha hc hpos), bind_of_eq_ok (lookUp_classes ha hc hstart)]
  refine Checked.guard_eq_ok ((if_pos ?_).trans rfl)
  exact classOf_lt_size ha hc hstart

theorem minimize_eq (ha : a.WellFormed) : minimize a = a.minimize.guard := by
  by_cases hfit : a.isDeterministic && a.isComplete
  · obtain ⟨hd, hc⟩ := Bool.and_eq_true_iff.mp hfit
    rw [Automaton.minimize, hfit]
    rcases Nat.eq_zero_or_pos a.size with hzero | hpos
    · rw [minimize, hfit, hzero]
      rfl
    · rw [minimize_eq_ok ha hc hd hpos, if_neg (Nat.ne_of_gt hpos)]
      rfl
  · have hfit := Bool.eq_false_of_not_eq_true hfit
    rw [minimize, Automaton.minimize, hfit]
    rfl

end RegularLang.Guarded
