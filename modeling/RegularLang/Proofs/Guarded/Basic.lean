/-
  RegularLang.Proofs.Guarded.Basic — when the steps of a guarded run get through, and
  with what result: each guarded step has one lemma that says what it takes.

  Adding transitions gets through when they fit (`addTransitions_eq_ok`): both ends
  are states and the alphabet has the letters of the label, which is why building an
  automaton without asking gives the same.
-/

import RegularLang.Guarded.Basic
import RegularLang.Proofs.Automaton.Eliminated
import RegularLang.Proofs.Exploration

namespace RegularLang

/-! ## Steps -/

section

variable {ε ε' α β : Type}

@[simp] theorem Checked.guard_ok (x : α) : Checked.guard (.ok x) = .ok x := rfl

@[simp] theorem Checked.guard_error (f : Fault) :
    Checked.guard (.error f : Checked α) = .error (.refused f) := rfl

theorem Checked.guard_eq_ok {x : Checked α} {y : α} (h : x = .ok y) : x.guard = .ok y := by
  rw [h, guard_ok]

namespace Guarded

theorem bind_of_eq_ok {x : Except ε α} {y : α} (h : x = .ok y) (f : α → Except ε β) :
    (x >>= f) = f y := by
  rw [h]
  rfl

/-- A guarded operation, and what is done with its result. -/
theorem guard_bind_congr {x : Checked α} {f : α → Guarded β} {g : α → Checked β}
    (h : ∀ y, x = .ok y → f y = (g y).guard) : (x.guard >>= f) = (x >>= g).guard := by
  cases hx : x with
  | error e => rfl
  | ok y => exact h y hx

theorem require_of_true {p : Bool} (h : p) (f : Fault) : require p f = .ok () := if_pos h

theorem require_of_false {p : Bool} (h : p = false) (f : Fault) :
    require p f = .error (.refused f) := if_neg (ne_true_of_eq_false h)

theorem ensure_of_true {p : Bool} (h : p) : ensure p = .ok () := if_pos h

theorem lookUp_eq_ok {o : Option α} {x : α} (h : o = some x) : lookUp o = .ok x := by
  rw [h, lookUp]

theorem index_of_lt {n s : Nat} (h : s < n) : index n s = .ok s := if_pos h

theorem minus_of_le {m n : Nat} (h : n ≤ m) : minus m n = .ok (m - n) := if_pos h

theorem remainder_of_pos {m n : Nat} (h : 0 < n) : remainder m n = .ok (m % n) :=
  if_neg (Nat.ne_of_gt h)

theorem mapM_eq_ok {f : α → Except ε β} {g : α → β} {l : List α}
    (h : ∀ x ∈ l, f x = .ok (g x)) : l.mapM f = .ok (l.map g) := by
  induction l with
  | nil => rfl
  | cons x l ih =>
    obtain ⟨hx, hl⟩ := List.forall_mem_cons.mp h
    rw [List.mapM_cons, bind_of_eq_ok hx, bind_of_eq_ok (ih hl)]
    rfl

theorem mapM_zipIdx_eq_ok {f : α × Nat → Except ε β} {g : Nat → α → β} {l : List α}
    (h : ∀ x i, l[i]? = some x → f (x, i) = .ok (g i x)) : l.zipIdx.mapM f = .ok (l.mapIdx g) := by
  rw [mapM_eq_ok (g := fun y => g y.2 y.1) fun y hy => ?_, List.mapIdx_eq_zipIdx_map]
  exact h y.1 y.2 (List.mem_zipIdx_iff_getElem?.mp hy)

theorem mapM_index {n : Nat} {l : List Nat} (h : ∀ s ∈ l, s < n) : l.mapM (index n) = .ok l := by
  rw [mapM_eq_ok (f := index n) (g := id) fun s hs => index_of_lt (h s hs), List.map_id]

/-- A fold whose steps do the same up to the errors they end in. -/
theorem foldlM_mapError {f : β → α → Except ε β} {f' : β → α → Except ε' β} {g : ε → ε'}
    {P : β → Prop} {l : List α} {x : β}
    (h : ∀ y ∈ l, ∀ x, P x → f' x y = (f x y).mapError g ∧ ∀ z, f x y = .ok z → P z) (hx : P x) :
    l.foldlM f' x = (l.foldlM f x).mapError g := by
  induction l generalizing x with
  | nil => rfl
  | cons y l ih =>
    obtain ⟨hy, hl⟩ := List.forall_mem_cons.mp h
    obtain ⟨he, hz⟩ := hy x hx
    rw [List.foldlM_cons, List.foldlM_cons, he]
    cases hr : f x y with
    | error e => rfl
    | ok z => exact ih hl (hz z hr)

/-! ## Loops -/

variable {pick : α → Guarded (Option β)} {act : α → β → Guarded α} {n : Nat} {x x' : α} {y : β}

theorem whileFound_of_none (h : pick x = .ok none) : whileFound pick act n x = .ok x := by
  rw [whileFound, bind_of_eq_ok h]

theorem whileFound_of_some (h : pick x = .ok (some y)) (h' : act x y = .ok x') :
    whileFound pick act (n + 1) x = whileFound pick act n x' := by
  rw [whileFound, bind_of_eq_ok h]
  exact bind_of_eq_ok h' _

/-- So many rounds of a loop, each of which does `act` with what `pick` has found. -/
inductive Rounds (pick : α → Guarded (Option β)) (act : α → β → Guarded α) : Nat → α → α → Prop
  | nil {x : α} : Rounds pick act 0 x x
  | cons {n : Nat} {x x' z : α} {y : β} : pick x = .ok (some y) → act x y = .ok x' →
      Rounds pick act n x' z → Rounds pick act (n + 1) x z

theorem exists_rounds {z : α} (h : whileFound pick act n x = .ok z) :
    ∃ m ≤ n, Rounds pick act m x z ∧ pick z = .ok none := by
  induction n generalizing x with
  | zero =>
    rw [whileFound] at h
    obtain ⟨_ | y, hpick, h⟩ := Checked.bind_eq_ok.mp h
    · cases h
      exact ⟨0, Nat.le_refl _, .nil, hpick⟩
    · cases h
  | succ n ih =>
    rw [whileFound] at h
    obtain ⟨_ | y, hpick, h⟩ := Checked.bind_eq_ok.mp h
    · cases h
      exact ⟨0, Nat.zero_le _, .nil, hpick⟩
    · obtain ⟨x', hact, h⟩ := Checked.bind_eq_ok.mp h
      obtain ⟨m, hm, hrounds, hend⟩ := ih h
      exact ⟨m + 1, Nat.succ_le_succ hm, .cons hpick hact hrounds, hend⟩

end Guarded

end

namespace Guarded

section

variable {α : Type} [Ord α] [Std.TransOrd α] [Std.LawfulEqOrd α] [DecidableEq α]
  {next : α → List α} {next' : α → Guarded (List α)} {roots : List α} {P : α → Prop} {bound : Nat}

theorem exploreN_eq_ok (hnext' : ∀ x, P x → next' x = .ok (next x))
    (hnext : ∀ x, P x → ∀ y ∈ next x, P y)
    (hbound : ∀ l : List α, l.Nodup → (∀ x ∈ l, P x) → l.length ≤ bound) {n i : Nat}
    {found : IndexedSet α} (h : ∀ x ∈ found.toList, P x) (hn : bound ≤ n + i) :
    exploreN next' n i found = .ok (RegularLang.exploreN next n i found) := by
  induction n generalizing i found with
  | zero =>
    have hlen := hbound _ found.nodup_toList h
    rw [exploreN, RegularLang.exploreN, IndexedSet.get?_eq, List.getElem?_eq_none (by omega)]
  | succ n ih =>
    rw [exploreN, RegularLang.exploreN]
    cases hx : found.get? i with
    | none => rfl
    | some x =>
      rw [IndexedSet.get?_eq] at hx
      have hPx := h x (List.mem_of_getElem? hx)
      have hfound : ∀ y ∈ (found.insertAll (next x)).toList, P y := by
        intro y hy
        rw [IndexedSet.toList_insertAll, mem_insertAllNew] at hy
        exact hy.elim (h y) (hnext x hPx y)
      show (next' x >>= fun ys => exploreN next' n (i + 1) (found.insertAll ys)) = _
      rw [bind_of_eq_ok (hnext' x hPx)]
      exact ih hfound (by omega)

theorem explore_eq_ok (hroots : ∀ x ∈ roots, P x) (hnext' : ∀ x, P x → next' x = .ok (next x))
    (hnext : ∀ x, P x → ∀ y ∈ next x, P y)
    (hbound : ∀ l : List α, l.Nodup → (∀ x ∈ l, P x) → l.length ≤ bound) :
    explore next' bound roots = .ok (RegularLang.explore next bound roots) := by
  refine exploreN_eq_ok hnext' hnext hbound ?_ (Nat.le_add_right ..)
  intro x hx
  exact hroots x (IndexedSet.mem_ofList.mp hx)

end

end Guarded

/-! ## Lists of things with a source -/

section

variable {α β : Type} {ts : List (Nat × β)} {p : Nat}

/-- The things whose source is `p`, without it. -/
def outOf (ts : List (Nat × β)) (p : Nat) : List β := (ts.filter (·.1 = p)).map (·.2)

theorem outOf_cons (t : Nat × β) (ts : List (Nat × β)) (p : Nat) :
    outOf (t :: ts) p = (if t.1 = p then [t.2] else []) ++ outOf ts p := by
  rw [outOf, List.filter_cons]
  by_cases h : t.1 = p <;> simp [h, outOf]

theorem outOf_append (ts us : List (Nat × β)) (p : Nat) :
    outOf (ts ++ us) p = outOf ts p ++ outOf us p := by
  simp [outOf]

theorem outOf_flatten (rows : List (List (Nat × β))) (p : Nat) :
    outOf rows.flatten p = (rows.map (outOf · p)).flatten := by
  induction rows with
  | nil => rfl
  | cons row rows ih => rw [List.flatten_cons, outOf_append, ih, List.map_cons, List.flatten_cons]

theorem outOf_map (row : List β) (s p : Nat) :
    outOf (row.map fun t => (s, t)) p = if s = p then row else [] := by
  induction row with
  | nil => simp [outOf]
  | cons t row ih =>
    rw [List.map_cons, outOf_cons, ih]
    split_ifs <;> rfl

theorem outOf_eq_nil_iff : outOf ts p = [] ↔ ∀ t ∈ ts, t.1 ≠ p := by
  simp [outOf, List.filter_eq_nil_iff]

theorem flatten_mapIdx_eq_nil {l : List α} {f : Nat → α → List β} (h : ∀ s y, f s y = []) :
    (l.mapIdx f).flatten = [] := by
  simp [List.flatten_eq_nil_iff, List.mem_mapIdx, h]

/-- When only one of the lists has anything, all together are that one. -/
theorem flatten_mapIdx_eq {l : List α} {f : Nat → α → List β} {x : α} (hx : l[p]? = some x)
    (h : ∀ s y, s ≠ p → f s y = []) : (l.mapIdx f).flatten = f p x := by
  induction l generalizing p f with
  | nil => cases hx
  | cons y l ih =>
    rw [List.mapIdx_cons, List.flatten_cons]
    cases p with
    | zero =>
      cases hx
      rw [flatten_mapIdx_eq_nil fun s y => h (s + 1) y (Nat.succ_ne_zero s), List.append_nil]
    | succ p =>
      rw [h 0 y (Nat.succ_ne_zero p).symm, List.nil_append]
      exact ih hx fun s y hs => h (s + 1) y fun e => hs (Nat.succ.inj e)

theorem source_rows_lt {l : List α} {f : Nat → α → List β} :
    ∀ t ∈ (l.mapIdx fun s y => (f s y).map fun t => (s, t)).flatten, t.1 < l.length := by
  intro t ht
  obtain ⟨r, hr, ht⟩ := List.mem_flatten.mp ht
  obtain ⟨s, hs, rfl⟩ := List.mem_mapIdx.mp hr
  obtain ⟨u, -, rfl⟩ := List.mem_map.mp ht
  exact hs

/-- Of rows with their number as source, those that leave `p` are row `p`. -/
theorem outOf_rows {l : List α} {f : Nat → α → List β} {x : α} (hx : l[p]? = some x) :
    outOf (l.mapIdx fun s y => (f s y).map fun t => (s, t)).flatten p = f p x := by
  have hmap : (l.mapIdx fun s y => (f s y).map fun t => (s, t)).map (outOf · p) =
      l.mapIdx fun s y => if s = p then f s y else [] := by
    apply List.ext_getElem?
    intro i
    simp [List.getElem?_mapIdx, Function.comp_def, outOf_map]
  rw [outOf_flatten, hmap, flatten_mapIdx_eq hx fun s y hs => if_neg hs, if_pos rfl]

end

namespace Automaton

variable {a b : Automaton} {s p : Nat} {t : Transition} {ts : List (Nat × Transition)}

/-! ## Adding transitions -/

theorem isEmpty_states_iff : a.states.isEmpty ↔ a.size = 0 := by
  rw [List.isEmpty_iff, size, List.length_eq_zero_iff]

theorem getElem?_states (hp : p < a.size) : a.states[p]? = some (a.stateAt p) := by
  rw [List.getElem?_eq_getElem hp, stateAt_eq_get hp]
  rfl

theorem extendAlphabet_eq_self {cs : List Char} (h : ∀ c ∈ cs, c ∈ a.alphabet) :
    a.extendAlphabet cs = a := by
  have hal : a.alphabet.insertAll (cs.filter (· ≠ epsilon)) = a.alphabet := by
    ext c
    rw [SortedSet.mem_insertAll]
    exact ⟨fun hc => hc.elim id fun hc => h c (List.mem_of_mem_filter hc), .inl⟩
  rw [extendAlphabet, hal]

theorem addTransition_of_fits (hs : s < a.size) (ht : State.Fits a.size a.alphabet t) :
    a.addTransition s t.target t.label = .ok (a.link s t.target t.label) := by
  have hlink : (a.link s t.target t.label).extendAlphabet t.label.letters =
      a.link s t.target t.label := extendAlphabet_eq_self ht.2
  rw [addTransition, if_pos ⟨hs, ht.1⟩, hlink]

def linkAll (a : Automaton) (ts : List (Nat × Transition)) : Automaton :=
  { a with states := a.states.mapIdx fun p st =>
      { st with transitions := st.transitions ++ outOf ts p } }

@[simp] theorem size_linkAll (a : Automaton) (ts : List (Nat × Transition)) :
    (a.linkAll ts).size = a.size := by
  simp [linkAll, size]

theorem stateAt_linkAll (hp : p < a.size) : (a.linkAll ts).stateAt p =
    { a.stateAt p with transitions := (a.stateAt p).transitions ++ outOf ts p } := by
  have h := hp
  rw [size] at h
  simp [stateAt, linkAll, h]

theorem linkAll_nil (a : Automaton) : a.linkAll [] = a := by
  refine eq_of_stateAt (by simp) rfl rfl ?_
  intro p hp
  rw [size_linkAll] at hp
  rw [stateAt_linkAll hp]
  simp [outOf]

theorem linkAll_cons (hs : s < a.size) :
    a.linkAll ((s, t) :: ts) = (a.link s t.target t.label).linkAll ts := by
  refine eq_of_stateAt (by simp) rfl rfl ?_
  intro p hp
  rw [size_linkAll] at hp
  rw [stateAt_linkAll hp, stateAt_linkAll (by simpa using hp), stateAt_link hs, outOf_cons]
  by_cases h : p = s
  · subst h
    simp [State.link]
  · simp [h, Ne.symm h]

theorem linkAll_eq_foldl (h : ∀ t ∈ ts, t.1 < a.size) :
    a.linkAll ts = ts.foldl (fun a t => a.link t.1 t.2.target t.2.label) a := by
  induction ts generalizing a with
  | nil => exact linkAll_nil a
  | cons t ts ih =>
    obtain ⟨ht, hts⟩ := List.forall_mem_cons.mp h
    rw [linkAll_cons ht, List.foldl_cons]
    exact ih fun u hu => by simpa using hts u hu

end Automaton

namespace Guarded

open Automaton

variable {a b : Automaton} {ts : List (Nat × Transition)}

theorem guard_state_eq_ok {s : Nat} (hs : s < a.size) : (a.state s).guard = .ok (a.stateAt s) :=
  Checked.guard_eq_ok (state_eq_ok hs)

theorem addTransitions_eq_ok
    (h : ∀ t ∈ ts, t.1 < a.size ∧ State.Fits a.size a.alphabet t.2) :
    addTransitions a ts = .ok (a.linkAll ts) := by
  induction ts generalizing a with
  | nil => exact congrArg Except.ok (linkAll_nil a).symm
  | cons t ts ih =>
    obtain ⟨⟨hs, ht⟩, hts⟩ := List.forall_mem_cons.mp h
    rw [addTransitions, List.foldlM_cons,
      bind_of_eq_ok (Checked.guard_eq_ok (addTransition_of_fits hs ht)), linkAll_cons hs]
    refine ih ?_
    intro u hu
    rw [size_link]
    exact hts u hu

/-- To build `b` it is enough that every state gets its transitions. -/
theorem addTransitions_eq_of_rows (hb : b.WellFormed) (hsize : b.size = a.size)
    (hal : b.alphabet = a.alphabet) (hts : ∀ t ∈ ts, t.1 < a.size)
    (h : ∀ p < a.size, b.stateAt p =
      { a.stateAt p with transitions := (a.stateAt p).transitions ++ outOf ts p }) :
    addTransitions a ts = .ok { b with start := a.start } := by
  have hfits : ∀ t ∈ ts, t.1 < a.size ∧ State.Fits a.size a.alphabet t.2 := by
    intro t ht
    have hs := hts t ht
    refine ⟨hs, ?_⟩
    rw [← hsize, ← hal]
    refine hb.fits (p := t.1) ?_
    rw [h t.1 hs]
    refine List.mem_append_right _ (List.mem_map.mpr ⟨t, List.mem_filter.mpr ⟨ht, ?_⟩, rfl⟩)
    exact decide_eq_true rfl
  rw [addTransitions_eq_ok hfits]
  refine congrArg Except.ok (eq_of_stateAt ((size_linkAll ..).trans hsize.symm) rfl hal.symm ?_)
  intro p hp
  rw [size_linkAll] at hp
  rw [stateAt_linkAll hp]
  exact (h p hp).symm

/-! ## One state after the other -/

/-- `a` with `f` applied to the states of a list. -/
def mapAt (a : Automaton) (f : State → State) (l : List Nat) : Automaton :=
  { a with states := a.states.mapIdx fun p st => if p ∈ l then f st else st }

theorem size_mapAt (a : Automaton) (f : State → State) (l : List Nat) :
    (mapAt a f l).size = a.size := by
  simp [mapAt, size]

theorem stateAt_mapAt {f : State → State} {l : List Nat} {p : Nat} (hp : p < a.size) :
    (mapAt a f l).stateAt p = if p ∈ l then f (a.stateAt p) else a.stateAt p := by
  have h := hp
  rw [size] at h
  simp [stateAt, mapAt, h]

theorem mapAt_nil (a : Automaton) (f : State → State) : mapAt a f [] = a := by
  refine eq_of_stateAt (size_mapAt ..) rfl rfl fun p hp => ?_
  rw [size_mapAt] at hp
  rw [stateAt_mapAt hp, if_neg List.not_mem_nil]

theorem mapAt_modifyState {f : State → State} {s : Nat} {l : List Nat} (hs : s < a.size)
    (hnew : s ∉ l) : mapAt (a.modifyState s f) f l = mapAt a f (s :: l) := by
  refine eq_of_stateAt (by simp [size_mapAt]) rfl rfl fun p hp => ?_
  rw [size_mapAt, size_modifyState] at hp
  rw [stateAt_mapAt (by rwa [size_modifyState]), stateAt_mapAt hp, stateAt_modifyState hs]
  by_cases e : p = s
  · subst e
    rw [if_neg hnew, if_pos rfl, if_pos (List.mem_cons_self ..)]
  · simp [e]

/-- An action that changes one state, done to several. -/
theorem foldlM_eq_ok {act : Automaton → Nat → Guarded Automaton} {f : State → State} {l : List Nat}
    (hact : ∀ b : Automaton, b.size = a.size → b.alphabet = a.alphabet → ∀ s ∈ l,
      act b s = .ok (b.modifyState s f)) (hlt : ∀ s ∈ l, s < a.size) (hnodup : l.Nodup) :
    l.foldlM act a = .ok (mapAt a f l) := by
  induction l generalizing a with
  | nil => exact congrArg Except.ok (mapAt_nil a f).symm
  | cons s l ih =>
    obtain ⟨hs, hl⟩ := List.forall_mem_cons.mp hlt
    obtain ⟨hnew, hnodup⟩ := List.nodup_cons.mp hnodup
    have hsize : (a.modifyState s f).size = a.size := size_modifyState ..
    rw [List.foldlM_cons, bind_of_eq_ok (hact a rfl rfl s (List.mem_cons_self ..)), ih _ _ hnodup,
      mapAt_modifyState hs hnew]
    · exact fun b hb hal u hu => hact b (hb.trans hsize) hal u (List.mem_cons_of_mem _ hu)
    · exact fun u hu => hsize.symm ▸ hl u hu

theorem forStates_eq_ok {act : Automaton → Nat → Guarded Automaton} {f : State → State}
    (hact : ∀ b : Automaton, b.size = a.size → ∀ s < a.size, act b s = .ok (b.modifyState s f)) :
    forStates a act = .ok (a.mapStates f) := by
  rw [forStates, foldlM_eq_ok (fun b hb _ s hs => hact b hb s (List.mem_range.mp hs))
    (fun s => List.mem_range.mp) List.nodup_range]
  refine congrArg Except.ok (eq_of_stateAt (by simp [size_mapAt]) rfl rfl fun p hp => ?_)
  rw [size_mapAt] at hp
  rw [stateAt_mapAt hp, if_pos (List.mem_range.mpr hp), stateAt_mapStates hp]

end Guarded

end RegularLang
