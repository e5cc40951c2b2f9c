/-
  RegularLang.Proofs.Automaton.Eliminated — eliminating states keeps the language, and
  leaves the start and at most one final state (`eliminated_eq_ok`).

  `forall_mem_mergeParallel_iff` is all that is used of merging parallel transitions.
-/

import RegularLang.Proofs.Automaton.Parallel
import RegularLang.Proofs.Automaton.Restricted
import RegularLang.Proofs.Automaton.Simulated
import RegularLang.Proofs.Regex.Joined
import RegularLang.Proofs.Regex.Quotient

namespace RegularLang

open Computability

namespace State

variable {st : State} {X : Nat → Language Char} {l : Language Char} {n s : Nat} {letters : Alphabet}

theorem mul_le_add_iff (X : Nat → Language Char) (l : Language Char) (target : Nat) (e f : Regex) :
    (e + f).language * X target ≤ l ↔ e.language * X target ≤ l ∧ f.language * X target ≤ l := by
  rw [Regex.language_add, add_mul, add_le_iff]

/-- What a well-formed automaton of `n` states asks of a transition. -/
def Fits (n : Nat) (letters : Alphabet) (t : Transition) : Prop :=
  t.target < n ∧ ∀ c ∈ t.label.letters, c ∈ letters

theorem fits_add_iff (n : Nat) (letters : Alphabet) (target : Nat) (e f : Regex) :
    Fits n letters ⟨target, e + f⟩ ↔ Fits n letters ⟨target, e⟩ ∧ Fits n letters ⟨target, f⟩ := by
  simp only [Fits, Regex.mem_letters_add, or_imp, forall_and]
  tauto

theorem reads_mergeEdges (st : State) (X : Nat → Language Char) :
    st.mergeEdges.reads X = st.reads X := by
  apply eq_of_forall_ge_iff
  intro l
  rw [reads_le_iff, reads_le_iff]
  exact and_congr_right fun _ =>
    forall_mem_mergeParallel_iff (P := fun t => t.label.language * X t.target ≤ l) (mul_le_add_iff X l)

/-! ## Going past a state -/

theorem labelTo_mul_le_iff {target : Nat} {m : Language Char} :
    (st.labelTo target).language * m ≤ l ↔
      ∀ t ∈ st.transitions, t.target = target → t.label.language * m ≤ l := by
  have h (es : List Regex) : (Regex.unionOf es).language * m ≤ l ↔ ∀ e ∈ es, e.language * m ≤ l := by
    rw [Regex.language_unionOf]
    induction es with
    | nil => simp
    | cons e es ih => rw [List.map_cons, List.sum_cons, add_mul, add_le_iff, ih, List.forall_mem_cons]
  rw [labelTo, h]
  simp only [List.mem_map, List.mem_filter, decide_eq_true_eq, forall_exists_index, and_imp]
  exact ⟨fun h t ht hs => h _ t ht hs rfl, fun h e t ht hs he => he ▸ h t ht hs⟩

theorem mul_reads_le {m : Language Char} (hf : st.isFinal = false)
    (h : ∀ t ∈ st.transitions, m * (t.label.language * X t.target) ≤ l) : m * st.reads X ≤ l := by
  intro _ hx
  rcases hx with ⟨u, hu, v, ⟨hv, -⟩ | ⟨t, ht, hv⟩, rfl⟩
  · rw [hf] at hv
    cases hv
  · exact h t ht (Language.append_mem_mul hu hv)

theorem reads_detour_le_iff {loop : Regex} {out : List Transition} :
    (st.detour s loop out).reads X ≤ l ↔ st.reads X ≤ l ∧ ∀ t ∈ st.transitions, t.target = s →
      ∀ o ∈ out, t.label.language * loop.language * o.label.language * X o.target ≤ l := by
  rw [detour]
  dsimp only
  split_ifs with h
  · refine (and_iff_left ?_).symm
    intro t ht hs o ho
    rcases Bool.or_eq_true_iff.mp h with h | h
    · have hmem : t ∈ st.transitions.filter (·.target = s) :=
        List.mem_filter.mpr ⟨ht, decide_eq_true hs⟩
      rw [List.isEmpty_iff.mp h] at hmem
      cases hmem
    · rw [List.isEmpty_iff.mp h] at ho
      cases ho
  · rw [reads_le_iff, reads_le_iff, and_assoc]
    apply and_congr_right
    intro _
    refine (forall_mem_mergeParallel_iff (P := fun t => t.label.language * X t.target ≤ l)
      (mul_le_add_iff X l)).trans ?_
    rw [List.forall_mem_append]
    apply and_congr_right
    intro _
    simp only [List.mem_flatMap, List.mem_map, List.mem_filter, decide_eq_true_eq]
    constructor
    · intro h t ht hs o ho
      have := h ⟨o.target, t.label * loop * o.label⟩ ⟨t, ⟨ht, hs⟩, o, ho, rfl⟩
      simpa only [Regex.language_mul] using this
    · intro h _ hx
      obtain ⟨t, ⟨ht, hs⟩, o, ho, rfl⟩ := hx
      simpa only [Regex.language_mul] using h t ht hs o ho

theorem fits_mul {e loop : Regex} {o : Transition} (he : ∀ c ∈ e.letters, c ∈ letters)
    (hloop : ∀ c ∈ loop.letters, c ∈ letters) (ho : Fits n letters o) :
    Fits n letters ⟨o.target, e * loop * o.label⟩ := by
  refine ⟨ho.1, ?_⟩
  intro c hc
  rcases Regex.mem_letters_of_mul hc with hc | hc
  · rcases Regex.mem_letters_of_mul hc with hc | hc
    · exact he c hc
    · exact hloop c hc
  · exact ho.2 c hc

theorem fits_detour {loop : Regex} {out : List Transition}
    (hst : ∀ t ∈ st.transitions, Fits n letters t) (hloop : ∀ c ∈ loop.letters, c ∈ letters)
    (hout : ∀ o ∈ out, Fits n letters o) :
    ∀ t ∈ (st.detour s loop out).transitions, Fits n letters t := by
  rw [detour]
  dsimp only
  split_ifs
  · exact hst
  · refine (forall_mem_mergeParallel_iff (fits_add_iff n letters)).mpr
      (List.forall_mem_append.mpr ⟨hst, ?_⟩)
    intro u hu
    obtain ⟨t, ht, hu⟩ := List.mem_flatMap.mp hu
    obtain ⟨o, ho, rfl⟩ := List.mem_map.mp hu
    exact fits_mul (hst t (List.mem_filter.mp ht).1).2 hloop (hout o ho)

@[simp] theorem isFinal_detour (st : State) (s : Nat) (loop : Regex) (out : List Transition) :
    (st.detour s loop out).isFinal = st.isFinal := by
  rw [detour]
  dsimp only
  split_ifs <;> rfl

end State

namespace Automaton

variable {a : Automaton} {s p q : Nat}

/-! ## One state -/

/-- Around the loops of state `s`, any number of times. -/
def loopAt (a : Automaton) (s : Nat) : Regex := ((a.stateAt s).labelTo s).closure

/-- The transitions that leave state `s`. -/
def leaving (a : Automaton) (s : Nat) : List Transition :=
  (a.stateAt s).transitions.filter (·.target ≠ s)

theorem mem_leaving {t : Transition} :
    t ∈ a.leaving s ↔ t ∈ (a.stateAt s).transitions ∧ t.target ≠ s := by
  rw [leaving, List.mem_filter, decide_eq_true_iff]

@[simp] theorem size_detour (a : Automaton) (s : Nat) : (a.detour s).size = a.size := by
  simp [detour, size]

theorem stateAt_detour (a : Automaton) (s p : Nat) : (a.detour s).stateAt p =
    if p = s then a.stateAt p else (a.stateAt p).detour s (a.loopAt s) (a.leaving s) := by
  have hdead (loop out) : State.dead.detour s loop out = .dead := rfl
  have hold : a.stateAt p = (a.states[p]?).getD .dead := List.getD_eq_getElem?_getD ..
  rw [stateAt, detour, List.getD_eq_getElem?_getD, List.getElem?_mapIdx, hold]
  cases a.states[p]? with
  | none => rw [Option.map_none, Option.getD_none, hdead, ite_self]
  | some st => rfl

theorem isFinalAt_detour (a : Automaton) (s p : Nat) : (a.detour s).isFinalAt p = a.isFinalAt p := by
  rw [isFinalAt, stateAt_detour, isFinalAt]
  split_ifs
  · rfl
  · exact State.isFinal_detour ..

theorem WellFormed.fits (h : a.WellFormed) {t : Transition} (ht : t ∈ (a.stateAt p).transitions) :
    State.Fits a.size a.alphabet t :=
  ⟨h.target_lt_of_mem ht, fun _ => h.letters_mem_of_mem ht⟩

theorem letters_loopAt (ha : a.WellFormed) (s : Nat) :
    ∀ c ∈ (a.loopAt s).letters, c ∈ a.alphabet := by
  intro c hc
  obtain ⟨e, he, hc⟩ := Regex.mem_letters_unionOf.mp (Regex.mem_letters_of_closure hc)
  obtain ⟨u, hu, rfl⟩ := List.mem_map.mp he
  exact (ha.fits (List.mem_filter.mp hu).1).2 c hc

theorem wellFormed_detour (ha : a.WellFormed) (s : Nat) : (a.detour s).WellFormed := by
  refine .of_stateAt (ha.start_lt.imp (fun h => (size_detour a s).symm ▸ h) fun h => ⟨?_, h.2⟩)
    ha.epsilon_not_mem ?_
  · simp [detour, h.1]
  · intro p _ t ht
    rw [stateAt_detour] at ht
    rw [size_detour]
    show State.Fits a.size a.alphabet t
    split_ifs at ht
    · exact ha.fits ht
    · exact State.fits_detour (fun t => ha.fits) (letters_loopAt ha s)
        (fun o ho => ha.fits (mem_leaving.mp ho).1) t ht

/-- A state's loops, taken any number of times, add nothing to its words. -/
theorem loopAt_mul_le (a : Automaton) (s : Nat) :
    (a.loopAt s).language * a.languageFrom s ≤ a.languageFrom s := by
  rw [loopAt, Regex.language_closure]
  refine kstar_mul_le_self (State.labelTo_mul_le_iff.mpr ?_)
  intro t ht hs
  have := mul_le_languageFrom ht
  rwa [hs] at this

theorem languageFrom_detour (a : Automaton) (s : Nat) :
    (a.detour s).languageFrom = a.languageFrom := by
  funext p
  refine le_antisymm (languageFrom_le ?_ p) (languageFrom_le ?_ p)
  · intro p
    rw [stateAt_detour]
    split_ifs with h
    · exact a.reads_languageFrom_le p
    · refine State.reads_detour_le_iff.mpr ⟨a.reads_languageFrom_le p, ?_⟩
      intro t ht hs o ho
      calc t.label.language * (a.loopAt s).language * o.label.language * a.languageFrom o.target
          = t.label.language * ((a.loopAt s).language * (o.label.language * a.languageFrom o.target)) := by
            simp only [mul_assoc]
        _ ≤ t.label.language * ((a.loopAt s).language * a.languageFrom s) :=
            mul_le_mul_right (mul_le_mul_right (mul_le_languageFrom (mem_leaving.mp ho).1) _) _
        _ ≤ t.label.language * a.languageFrom s := mul_le_mul_right (a.loopAt_mul_le s) _
        _ ≤ a.languageFrom p := hs ▸ mul_le_languageFrom ht
  · intro p
    have h := (a.detour s).reads_languageFrom_le p
    rw [stateAt_detour] at h
    split_ifs at h
    · exact h
    · exact (State.reads_detour_le_iff.mp h).1

theorem lower_raise (s q : Nat) : lower s (raise s q) = q := by
  unfold lower raise
  split_ifs <;> omega

theorem raise_ne (s q : Nat) : raise s q ≠ s := by
  unfold raise
  split_ifs <;> omega

/-- A state that is not final reads its loops, and then what leads out of it. -/
theorem reads_le_loopAt_mul (hf : a.isFinalAt s = false) {Y Z : Nat → Language Char}
    (hY : ∀ p, p ≠ s → Y p = Z p)
    (hYs : Y s = (a.loopAt s).language * (State.mk false (a.leaving s)).reads Z) :
    (a.stateAt s).reads Y ≤ Y s := by
  set out := (State.mk false (a.leaving s)).reads Z with hout
  rw [loopAt, Regex.language_closure] at hYs
  refine State.reads_le_iff.mpr ⟨fun h => absurd (hf.symm.trans h) nofun, ?_⟩
  intro t ht
  rw [hYs]
  by_cases hts : t.target = s
  · rw [hts, hYs]
    have hloop : ((a.stateAt s).labelTo s).language *
        (((a.stateAt s).labelTo s).language∗ * out) ≤
          ((a.stateAt s).labelTo s).language∗ * out := by
      rw [← mul_assoc]
      exact mul_le_mul_left mul_kstar_le_kstar _
    exact State.labelTo_mul_le_iff.mp hloop t ht hts
  · rw [hY _ hts]
    have hmem : t ∈ (State.mk false (a.leaving s)).transitions := mem_leaving.mpr ⟨ht, hts⟩
    calc t.label.language * Z t.target ≤ out := hout ▸ State.mul_le_reads hmem
      _ = 1 * out := (one_mul _).symm
      _ ≤ ((a.stateAt s).labelTo s).language∗ * out := mul_le_mul_left one_le_kstar _

/-- With no words at `s`, a state reads what it reads once `s` is gone. -/
theorem reads_le_languageFrom_without {b : Automaton} {X : Nat → Language Char} (hXs : X s = 0)
    (hX : ∀ p, p ≠ s → X p = (b.without s).languageFrom (lower s p)) (q : Nat) :
    (b.stateAt (raise s q)).reads X ≤ (b.without s).languageFrom q := by
  refine State.reads_le_iff.mpr ⟨fun h => one_le_languageFrom ?_, ?_⟩
  · rw [isFinalAt, stateAt_without]
    exact h
  · intro t ht
    by_cases hts : t.target = s
    · rw [hts, hXs, mul_zero]
      exact zero_le
    · rw [hX _ hts]
      refine mul_le_languageFrom (p := q) (t := ⟨lower s t.target, t.label⟩) ?_
      rw [stateAt_without]
      exact List.mem_map.mpr ⟨t, List.mem_filter.mpr ⟨ht, decide_eq_true hts⟩, rfl⟩

/-- Past the transitions of `s` that lead out of it, the others can do without it. -/
theorem languageFrom_detour_le (hf : a.isFinalAt s = false) (q : Nat) :
    (a.detour s).languageFrom (raise s q) ≤ ((a.detour s).without s).languageFrom q := by
  let c := (a.detour s).without s
  -- The words that each state of `a` has without `s`, and that `s` had.
  let Z p := c.languageFrom (lower s p)
  let Y p := if p = s then (a.loopAt s).language * (State.mk false (a.leaving s)).reads Z else Z p
  let X p := if p = s then 0 else Z p
  have hYs : Y s = (a.loopAt s).language * (State.mk false (a.leaving s)).reads Z := if_pos rfl
  have hY : ∀ p, p ≠ s → Y p = Z p := fun p h => if_neg h
  have hX : ∀ p, p ≠ s → X p = Z p := fun p h => if_neg h
  have hZ (q) : Z (raise s q) = c.languageFrom q := congrArg c.languageFrom (lower_raise s q)
  suffices h : ∀ p, ((a.detour s).stateAt p).reads Y ≤ Y p by
    refine (languageFrom_le h (raise s q)).trans_eq ?_
    rw [hY _ (raise_ne s q), hZ]
  intro p
  by_cases hp : p = s
  · subst hp
    rw [stateAt_detour, if_pos rfl]
    exact reads_le_loopAt_mul hf hY hYs
  · obtain ⟨q, rfl⟩ : ∃ q, raise s q = p := ⟨_, raise_lower hp⟩
    have hc : ((a.detour s).stateAt (raise s q)).reads X ≤ c.languageFrom q :=
      reads_le_languageFrom_without (if_pos rfl) hX q
    rw [stateAt_detour, if_neg hp] at hc ⊢
    rw [hY _ hp, hZ]
    obtain ⟨hold, hpast⟩ := State.reads_detour_le_iff.mp hc
    obtain ⟨hfinal, htrans⟩ := State.reads_le_iff.mp hold
    refine State.reads_detour_le_iff.mpr ⟨State.reads_le_iff.mpr ⟨hfinal, ?_⟩, ?_⟩
    · intro t ht
      by_cases hts : t.target = s
      · rw [hts, hYs, ← mul_assoc]
        refine State.mul_reads_le rfl ?_
        intro o ho
        have := hpast t ht hts o ho
        rwa [hX _ (mem_leaving.mp ho).2, mul_assoc _ o.label.language] at this
      · rw [hY _ hts, ← hX _ hts]
        exact htrans t ht
    · intro t ht hts o ho
      have hos := (mem_leaving.mp ho).2
      rw [hY _ hos, ← hX _ hos]
      exact hpast t ht hts o ho

theorem languageFrom_eliminate (hs : s < a.size) (hne : s ≠ a.start) (hf : a.isFinalAt s = false)
    (q : Nat) : ((a.detour s).without s).languageFrom q = a.languageFrom (raise s q) := by
  have hr := restricts_without (a := a.detour s) (size_detour a s ▸ hs) hne
  have h := languageFrom_detour a s
  refine le_antisymm ((hr.languageFrom_le q).trans_eq (by rw [h])) ?_
  rw [← h]
  exact languageFrom_detour_le hf q

theorem eliminate_eq_ok (hs : s < a.size) (hne : s ≠ a.start) :
    a.eliminate s = .ok ((a.detour s).without s) := by
  rw [eliminate, state_eq_ok hs]
  exact removeState_eq_ok (size_detour a s ▸ hs) hne

theorem restricts_eliminate (hs : s < a.size) (hne : s ≠ a.start) :
    (a.detour s).Restricts ((a.detour s).without s) [s] (raise s) :=
  restricts_without (size_detour a s ▸ hs) hne

theorem size_eliminate (hs : s < a.size) : ((a.detour s).without s).size + 1 = a.size := by
  rw [size_without (size_detour a s ▸ hs), size_detour]

theorem language_eliminate (hs : s < a.size) (hne : s ≠ a.start) (hf : a.isFinalAt s = false) :
    ((a.detour s).without s).language = a.language := by
  rw [language_eq_languageFrom, languageFrom_eliminate hs hne hf, (restricts_eliminate hs hne).start_eq]
  rfl

theorem map_isFinal_eliminate (a : Automaton) (s : Nat) :
    ((a.detour s).without s).states.map (·.isFinal) = (a.states.map (·.isFinal)).eraseIdx s := by
  have hdetour : (a.detour s).states.map (·.isFinal) = a.states.map (·.isFinal) := by
    rw [← map_stateAt_range, ← map_stateAt_range, size_detour, List.map_map, List.map_map]
    exact List.map_congr_left fun p _ => isFinalAt_detour a s p
  rw [without, ← List.eraseIdx_map, List.map_map, ← hdetour]
  rfl

/-- Eliminating a state that is neither the start nor final leaves the others in their
    order and final as they were, each with the words that it had. -/
theorem eliminate_exact (ha : a.WellFormed) (hs : s < a.size) (hne : s ≠ a.start)
    (hf : a.isFinalAt s = false) :
    ∃ b, a.eliminate s = .ok b ∧ b.WellFormed ∧ b.size + 1 = a.size ∧ b.alphabet = a.alphabet ∧
      b.language = a.language ∧ (∀ w, b.accepts w = a.accepts w) ∧ raise s b.start = a.start ∧
      b.states.map (·.isFinal) = (a.states.map (·.isFinal)).eraseIdx s ∧
      ∀ q, b.languageFrom q = a.languageFrom (raise s q) := by
  have hr := restricts_eliminate hs hne
  have hb := hr.wellFormed (wellFormed_detour ha s)
  have hl := language_eliminate hs hne hf
  refine ⟨_, eliminate_eq_ok hs hne, hb, size_eliminate hs, rfl, hl, ?_, hr.start_eq,
    map_isFinal_eliminate a s, languageFrom_eliminate hs hne hf⟩
  intro w
  rw [Bool.eq_iff_iff, accepts_iff_mem hb, accepts_iff_mem ha, hl]

/-- A state with loops, one of them ∅, between states that parallel transitions and one
    labelled by ∅ join to it. -/
theorem eliminate_exact_parallel :
    let a : Automaton := ⟨[
      ⟨false, [⟨1, .char 'a'⟩, ⟨1, .char 'b'⟩, ⟨1, .zero⟩, ⟨2, .char 'c'⟩]⟩,
      ⟨false, [⟨1, .char 'a'⟩, ⟨1, .zero⟩, ⟨1, .star (.char 'b')⟩, ⟨2, .char 'c'⟩,
        ⟨2, .concat [.char 'a', .char 'c']⟩, ⟨0, .eps⟩]⟩,
      ⟨true, [⟨1, .sum [.char 'a', .char 'b']⟩]⟩], 0, .ofList ['a', 'b', 'c']⟩
    a.WellFormed ∧ 1 < a.size ∧ 1 ≠ a.start ∧ a.isFinalAt 1 = false ∧
      ∃ b, a.eliminate 1 = .ok b ∧ b.size = 2 ∧ b.states.map (·.isFinal) = [false, true] ∧
        b.language = a.language := by
  intro a
  have ha : a.WellFormed := ⟨by decide, .inl (by decide), by decide, by
    simp [a, Regex.eps, Regex.zero, epsilon]⟩
  have hs : 1 < a.size := by decide
  have hne : 1 ≠ a.start := by decide
  have hf : a.isFinalAt 1 = false := by decide
  obtain ⟨b, hb, -, hsize, -, hl, -, -, hfinal, -⟩ := eliminate_exact ha hs hne hf
  exact ⟨ha, hs, hne, hf, b, hb, Nat.succ.inj hsize, hfinal, hl⟩

/-! ## All states but two -/

/-- At most one state is final. -/
def OneFinal (a : Automaton) : Prop := ∀ p q, a.isFinalAt p → a.isFinalAt q → p = q

/-- What eliminating states keeps. -/
structure CollapsedFrom (a b : Automaton) : Prop where
  wellFormed : b.WellFormed
  alphabet_eq : b.alphabet = a.alphabet
  size_pos : 0 < a.size → 0 < b.size
  oneFinal : b.OneFinal
  language_eq : b.language = a.language

theorem collapsedFrom_eliminate (ha : a.WellFormed) (hone : a.OneFinal) (hs : s < a.size)
    (hne : s ≠ a.start) (hf : a.isFinalAt s = false) :
    a.CollapsedFrom ((a.detour s).without s) := by
  have hr := restricts_eliminate hs hne
  have hstart : ((a.detour s).without s).start < ((a.detour s).without s).size := by
    rw [hr.lt_size_iff, hr.start_eq, size_detour]
    exact ha.start_lt_of_lt hs
  refine ⟨hr.wellFormed (wellFormed_detour ha s), rfl, fun _ => Nat.zero_lt_of_lt hstart,
    ?_, language_eliminate hs hne hf⟩
  intro p q hp hq
  rw [hr.isFinalAt_eq, isFinalAt_detour] at hp hq
  exact hr.strictMono.injective (hone _ _ hp hq)

theorem firstInner?_eq_some (h : a.firstInner? = some s) :
    s < a.size ∧ s ≠ a.start ∧ a.isFinalAt s = false := by
  have hp := List.find?_some h
  rw [Bool.and_eq_true, Bool.not_eq_true', decide_eq_true_iff] at hp
  exact ⟨List.mem_range.mp (List.mem_of_find?_eq_some h), hp.2, hp.1⟩

theorem eliminateN_of_firstInner {n : Nat} (h : a.firstInner? = some s) :
    eliminateN (n + 1) a = eliminateN n ((a.detour s).without s) := by
  obtain ⟨hs, hne, -⟩ := firstInner?_eq_some h
  rw [eliminateN, h]
  dsimp only
  rw [eliminate_eq_ok hs hne]
  rfl

theorem eliminateN_eq_ok {n : Nat} (ha : a.WellFormed) (hone : a.OneFinal) (hn : a.size ≤ n) :
    ∃ b, eliminateN n a = .ok b ∧ a.CollapsedFrom b ∧ b.firstInner? = none := by
  induction n generalizing a with
  | zero =>
    refine ⟨a, rfl, ⟨ha, rfl, id, hone, rfl⟩, ?_⟩
    rw [firstInner?, Nat.le_zero.mp hn]
    rfl
  | succ n ih =>
    cases h : a.firstInner? with
    | none => exact ⟨a, by rw [eliminateN, h], ⟨ha, rfl, id, hone, rfl⟩, h⟩
    | some s =>
      obtain ⟨hs, hne, hf⟩ := firstInner?_eq_some h
      have hb := collapsedFrom_eliminate ha hone hs hne hf
      have hsize := size_eliminate hs
      obtain ⟨c, hc, hcb, hnone⟩ := ih hb.wellFormed hb.oneFinal (by omega)
      exact ⟨c, (eliminateN_of_firstInner h).trans hc,
        ⟨hcb.wellFormed, hcb.alphabet_eq.trans hb.alphabet_eq, hcb.size_pos ∘ hb.size_pos,
          hcb.oneFinal, hcb.language_eq.trans hb.language_eq⟩, hnone⟩

/-! ## One final state -/

theorem oneFinal_of_finalCount (h : a.finalCount ≤ 1) : a.OneFinal := by
  intro p q hp hq
  rw [finalCount, ← map_stateAt_range, List.countP_map, List.countP_eq_length_filter] at h
  have mem {p} (hp : a.isFinalAt p) :
      p ∈ (List.range a.size).filter ((fun st : State => st.isFinal) ∘ a.stateAt) :=
    List.mem_filter.mpr ⟨List.mem_range.mpr (lt_size_of_isFinalAt hp), hp⟩
  obtain ⟨r, hr⟩ := List.length_eq_one_iff.mp (Nat.le_antisymm h (List.length_pos_of_mem (mem hp)))
  have hp := mem hp
  have hq := mem hq
  rw [hr] at hp hq
  rw [List.mem_singleton.mp hp, List.mem_singleton.mp hq]

/-- With more than one final state, all lead to a new one. -/
theorem stateAt_singleFinal (h : ¬a.finalCount ≤ 1) (p : Nat) : a.singleFinal.stateAt p =
    if p = a.size then ⟨true, []⟩ else (a.stateAt p).divert a.size := by
  rw [singleFinal, if_neg h]
  have hsnoc := stateAt_snoc (a.mapStates (·.divert a.size)) ⟨true, []⟩ a.start p a.alphabet
  rw [size_mapStates, stateAt_mapStates_of_dead rfl] at hsnoc
  exact hsnoc

theorem size_singleFinal (h : ¬a.finalCount ≤ 1) : a.singleFinal.size = a.size + 1 := by
  simp [singleFinal, h, size]

theorem oneFinal_singleFinal (a : Automaton) : a.singleFinal.OneFinal := by
  by_cases h : a.finalCount ≤ 1
  · rw [singleFinal, if_pos h]
    exact oneFinal_of_finalCount h
  · have heq {p} (hp : a.singleFinal.isFinalAt p) : p = a.size := by
      by_contra hne
      rw [isFinalAt, stateAt_singleFinal h, if_neg hne, State.divert] at hp
      split_ifs at hp with hf
      exact hf hp
    exact fun p q hp hq => (heq hp).trans (heq hq).symm

/-- The transitions of a state whose finality is led elsewhere. -/
theorem mem_divert {st : State} {output : Nat} {t : Transition}
    (h : t ∈ (st.divert output).transitions) :
    t ∈ st.transitions ∨ st.isFinal ∧ t = ⟨output, .eps⟩ := by
  rw [State.divert] at h
  split_ifs at h with hf
  · exact (List.mem_append.mp h).imp_right fun h => ⟨hf, List.mem_singleton.mp h⟩
  · exact .inl h

theorem wellFormed_singleFinal (ha : a.WellFormed) (h : ¬a.finalCount ≤ 1) :
    a.singleFinal.WellFormed := by
  have hstart : a.singleFinal.start = a.start := by rw [singleFinal, if_neg h]
  have hal : a.singleFinal.alphabet = a.alphabet := by rw [singleFinal, if_neg h]
  refine .of_stateAt (.inl ?_) (hal ▸ ha.epsilon_not_mem) ?_
  · rw [hstart, size_singleFinal h]
    rcases ha.start_lt with h | ⟨-, h⟩ <;> omega
  · intro p _ t ht
    rw [stateAt_singleFinal h] at ht
    rw [size_singleFinal h, hal]
    split_ifs at ht
    · cases ht
    · rcases mem_divert ht with ht | ⟨-, rfl⟩
      · have hlt := ha.target_lt_of_mem ht
        exact ⟨by omega, fun c => ha.letters_mem_of_mem ht⟩
      · exact ⟨Nat.lt_succ_self _, nofun⟩

theorem languageFrom_singleFinal_le (ha : a.WellFormed) (h : ¬a.finalCount ≤ 1) {p : Nat}
    (hp : p < a.size) : a.singleFinal.languageFrom p ≤ a.languageFrom p := by
  let X p := if p = a.size then 1 else a.languageFrom p
  have hX {p} (h : p ≠ a.size) : X p = a.languageFrom p := if_neg h
  have hXsize : X a.size = 1 := if_pos rfl
  refine (languageFrom_le (X := X) ?_ p).trans_eq (hX hp.ne)
  intro q
  rw [stateAt_singleFinal h]
  split_ifs with hq
  · rw [hq, hXsize]
    exact State.reads_le_iff.mpr ⟨fun _ => le_rfl, nofun⟩
  · rw [hX hq]
    refine State.reads_le_iff.mpr ⟨?_, ?_⟩
    · intro hf
      rw [State.divert] at hf
      split_ifs at hf with hq'
      exact absurd hf hq'
    · intro t ht
      rcases mem_divert ht with ht | ⟨hf, rfl⟩
      · rw [hX (ha.target_lt_of_mem ht).ne]
        exact mul_le_languageFrom ht
      · rw [Regex.language_eps, one_mul, hXsize]
        exact one_le_languageFrom hf

theorem languageFrom_le_singleFinal (h : ¬a.finalCount ≤ 1) (p : Nat) :
    a.languageFrom p ≤ a.singleFinal.languageFrom p := by
  have hnew : 1 ≤ a.singleFinal.languageFrom a.size := by
    apply one_le_languageFrom
    rw [isFinalAt, stateAt_singleFinal h, if_pos rfl]
  refine languageFrom_le ?_ p
  intro q
  by_cases hq : q < a.size
  · have hat : a.singleFinal.stateAt q = (a.stateAt q).divert a.size := by
      rw [stateAt_singleFinal h, if_neg hq.ne]
    refine State.reads_le_iff.mpr ⟨?_, ?_⟩
    · intro hf
      have hmem : ⟨a.size, .eps⟩ ∈ (a.singleFinal.stateAt q).transitions := by
        rw [hat, State.divert, if_pos hf]
        exact List.mem_append_right _ (List.mem_singleton_self _)
      exact hnew.trans
        (languageFrom_le_of_epsilon (State.mem_epsilonTargets.mpr ⟨_, hmem, rfl, rfl⟩))
    · intro t ht
      apply mul_le_languageFrom
      rw [hat, State.divert]
      split_ifs
      · exact List.mem_append_left _ ht
      · exact ht
  · rw [stateAt_of_size_le (Nat.not_lt.mp hq), State.reads_dead]
    exact zero_le

theorem extends_singleFinal (ha : a.WellFormed) : a.Extends a.singleFinal := by
  by_cases h : a.finalCount ≤ 1
  · rw [singleFinal, if_pos h]
    exact .refl ha
  · have hsize := size_singleFinal h
    have hcount : a.finalCount ≤ a.size := List.countP_le_length
    refine ⟨wellFormed_singleFinal ha h, by omega, fun _ => by omega, ?_, ?_, fun p hp => ?_⟩
    · rw [singleFinal, if_neg h]
    · rw [singleFinal, if_neg h]
    · exact le_antisymm (languageFrom_singleFinal_le ha h hp) (languageFrom_le_singleFinal h p)

theorem extends_mergeEdges (ha : a.WellFormed) : a.Extends (a.mapStates (·.mergeEdges)) := by
  refine .of_reads (ha.mapStates ?_) (by simp) rfl rfl ?_
  · intro p
    refine (forall_mem_mergeParallel_iff (State.fits_add_iff a.size a.alphabet)).mpr ?_
    intro t ht
    exact ⟨ha.target_lt_of_mem ht, fun c => ha.letters_mem_of_mem ht⟩
  · intro p X
    rw [stateAt_mapStates_of_dead rfl, State.reads_mergeEdges]

/-! ## All of it -/

theorem eliminated_eq_ok (ha : a.WellFormed) (hd : a.isDeterministic) :
    ∃ b, a.eliminated = .ok b ∧ a.CollapsedFrom b ∧ b.firstInner? = none := by
  have hsingle := extends_singleFinal ha
  have hmerged := hsingle.trans (extends_mergeEdges hsingle.wellFormed)
  have hone : (a.singleFinal.mapStates (·.mergeEdges)).OneFinal := by
    intro p q hp hq
    rw [isFinalAt, stateAt_mapStates_of_dead rfl] at hp hq
    exact oneFinal_singleFinal a p q hp hq
  obtain ⟨b, hb, hc, hnone⟩ := eliminateN_eq_ok hmerged.wellFormed hone le_rfl
  refine ⟨b, ?_, ⟨hc.wellFormed, hc.alphabet_eq.trans hmerged.alphabet_eq,
    fun hpos => hc.size_pos (hpos.trans_le hmerged.size_le), hc.oneFinal,
    hc.language_eq.trans (hmerged.language_eq ha)⟩, hnone⟩
  rw [eliminated, if_pos hd]
  exact hb

end Automaton

end RegularLang
