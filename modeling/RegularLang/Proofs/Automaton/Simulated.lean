/-
  RegularLang.Proofs.Automaton.Simulated — reading a word with all active states at
  once decides the language of the paths (`simulate_iff`, `accepts_iff_mem`).

  Along the word the active states are closed under ε-transitions, and a state that
  ends the rest of the word in a final state is among them exactly when the start
  ends the whole word in one.
-/

import RegularLang.Automaton.Simulation
import RegularLang.Proofs.Automaton.Simplified
import RegularLang.Proofs.Exploration

namespace RegularLang

/-! ## Steps on single characters -/

namespace Regex

theorem letter?_eq_some_iff {r : Regex} {c : Char} :
    r.letter? = some c ↔ c ≠ epsilon ∧ r = .char c := by
  cases r with
  | char d =>
    rw [letter?]
    split_ifs with h
    · subst h
      exact ⟨nofun, fun ⟨hc, e⟩ => absurd (char.inj e).symm hc⟩
    · exact ⟨fun e => ⟨Option.some.inj e ▸ h, by rw [Option.some.inj e]⟩,
        fun ⟨_, e⟩ => congrArg some (char.inj e)⟩
  | _ => exact ⟨nofun, fun ⟨_, e⟩ => nomatch e⟩

theorem language_of_letter? {r : Regex} {c : Char} (h : r.letter? = some c) : r.language = {[c]} := by
  obtain ⟨hc, rfl⟩ := letter?_eq_some_iff.mp h
  rw [language_char, if_neg hc]

/-- A character is ε or a letter. -/
theorem eps_or_letter_of_isChar {r : Regex} (h : r.isChar) : r.isEps ∨ ∃ c, r.letter? = some c := by
  cases r with
  | char c =>
    by_cases hc : c = epsilon
    · exact .inl (by simp [isEps, hc])
    · exact .inr ⟨c, by simp [letter?, hc]⟩
  | _ => cases h

end Regex

namespace State

variable {st : State} {c : Char} {q : Nat}

theorem mem_epsilonTargets :
    q ∈ st.epsilonTargets ↔ ∃ t ∈ st.transitions, t.label.isEps ∧ t.target = q := by
  simp [epsilonTargets, and_assoc]

theorem mem_letterTargets :
    q ∈ st.letterTargets c ↔ ∃ t ∈ st.transitions, t.label.letter? = some c ∧ t.target = q := by
  simp [letterTargets, and_assoc]

end State

namespace Automaton

variable {a : Automaton}

theorem languageFrom_le_of_epsilon {p q : Nat} (h : q ∈ (a.stateAt p).epsilonTargets) :
    a.languageFrom q ≤ a.languageFrom p := by
  obtain ⟨t, ht, he, rfl⟩ := State.mem_epsilonTargets.mp h
  have := mul_le_languageFrom ht
  rwa [Regex.eq_eps_of_isEps he, Regex.language_eps, one_mul] at this

theorem cons_mem_languageFrom {p q : Nat} {c : Char} {w : List Char}
    (h : q ∈ (a.stateAt p).letterTargets c) (hw : w ∈ a.languageFrom q) :
    c :: w ∈ a.languageFrom p := by
  obtain ⟨t, ht, hc, rfl⟩ := State.mem_letterTargets.mp h
  refine mul_le_languageFrom ht ?_
  rw [Regex.language_of_letter? hc]
  exact ⟨[c], rfl, w, hw, rfl⟩

/-- How a set of states that ε-transitions do not leave ends a word: the empty one in a
    final state of the set, any other one by a transition on its first letter. -/
def Begins (a : Automaton) (S : Set Nat) : List Char → Prop
  | [] => ∃ q ∈ S, a.isFinalAt q
  | c :: w => ∃ q ∈ S, ∃ r ∈ (a.stateAt q).letterTargets c, w ∈ a.languageFrom r

theorem begins_of_mem_languageFrom (hs : a.isSimple) {S : Set Nat}
    (hS : ∀ p ∈ S, ∀ q ∈ (a.stateAt p).epsilonTargets, q ∈ S) {p : Nat} (hp : p ∈ S) {w : List Char}
    (hw : w ∈ a.languageFrom p) : a.Begins S w := by
  let X : Nat → Language Char := fun p => {w | w ∈ a.languageFrom p ∧ (p ∈ S → a.Begins S w)}
  have hX (p) : X p ≤ a.languageFrom p := fun w h => h.1
  refine (languageFrom_le (X := X) (fun p => State.reads_le_iff.mpr ⟨?_, ?_⟩) p hw).2 hp
  · intro hf w hw
    rw [(Language.mem_one w).mp hw]
    exact ⟨one_le_languageFrom hf Language.nil_mem_one, fun hp => ⟨p, hp, hf⟩⟩
  · intro t ht w hw
    have hle := (mul_le_mul_right (hX t.target) t.label.language).trans (mul_le_languageFrom ht)
    refine ⟨hle hw, ?_⟩
    intro hp
    rcases Regex.eps_or_letter_of_isChar (isSimple_iff.mp hs p t ht) with he | ⟨c, hc⟩
    · have hq : t.target ∈ (a.stateAt p).epsilonTargets :=
        State.mem_epsilonTargets.mpr ⟨t, ht, he, rfl⟩
      rw [Regex.eq_eps_of_isEps he, Regex.language_eps, one_mul] at hw
      exact hw.2 (hS p hp _ hq)
    · rw [Regex.language_of_letter? hc] at hw
      obtain ⟨_, rfl, v, hv, rfl⟩ := Language.mem_mul.mp hw
      exact ⟨p, hp, _, State.mem_letterTargets.mpr ⟨t, ht, hc, rfl⟩, hv.1⟩

/-! ## Without ε-transitions -/

theorem epsilonTargets_eq_nil (he : a.hasEpsilon = false) (p : Nat) :
    (a.stateAt p).epsilonTargets = [] := by
  apply List.eq_nil_iff_forall_not_mem.mpr
  intro q hq
  obtain ⟨t, ht, h, -⟩ := State.mem_epsilonTargets.mp hq
  rw [hasEpsilon_eq_false_iff.mp he p t ht] at h
  cases h

/-- Every label is a letter. -/
theorem exists_letter (hs : a.isSimple) (he : a.hasEpsilon = false) {p : Nat} {t : Transition}
    (ht : t ∈ (a.stateAt p).transitions) : ∃ c, t.label.letter? = some c := by
  refine (Regex.eps_or_letter_of_isChar (isSimple_iff.mp hs p t ht)).resolve_left ?_
  rw [hasEpsilon_eq_false_iff.mp he p t ht]
  exact Bool.false_ne_true

theorem path_nil_iff (hs : a.isSimple) (he : a.hasEpsilon = false) {p q : Nat} :
    a.Path p [] q ↔ p = q := by
  constructor
  · intro h
    generalize hw : [] = w at h
    cases h with
    | nil => rfl
    | cons ht hv _ =>
      obtain ⟨c, hc⟩ := exists_letter hs he ht
      rw [Regex.language_of_letter? hc] at hv
      cases hv
      cases hw
  · intro h
    exact h ▸ .nil p

theorem path_cons_iff (hs : a.isSimple) (he : a.hasEpsilon = false) {p q : Nat} {c : Char}
    {w : List Char} :
    a.Path p (c :: w) q ↔ ∃ r ∈ (a.stateAt p).letterTargets c, a.Path r w q := by
  constructor
  · intro h
    generalize hw : c :: w = u at h
    cases h with
    | nil => cases hw
    | @cons _ _ t _ _ ht hv h =>
      obtain ⟨d, hd⟩ := exists_letter hs he ht
      rw [Regex.language_of_letter? hd] at hv
      cases hv
      cases hw
      exact ⟨t.target, State.mem_letterTargets.mpr ⟨t, ht, hd, rfl⟩, h⟩
  · intro h
    obtain ⟨r, hr, h⟩ := h
    obtain ⟨t, ht, hc, rfl⟩ := State.mem_letterTargets.mp hr
    refine Path.cons (v := [c]) ht ?_ h
    rw [Regex.language_of_letter? hc]
    rfl

theorem begins_singleton (hs : a.isSimple) (he : a.hasEpsilon = false) {p : Nat} {w : List Char}
    (hw : w ∈ a.languageFrom p) : a.Begins {p} w :=
  begins_of_mem_languageFrom hs (fun q _ r hr => by simp [epsilonTargets_eq_nil he] at hr)
    (Set.mem_singleton p) hw

theorem nil_mem_languageFrom_iff (hs : a.isSimple) (he : a.hasEpsilon = false) {p : Nat} :
    [] ∈ a.languageFrom p ↔ a.isFinalAt p := by
  constructor
  · intro h
    obtain ⟨q, rfl, hf⟩ := begins_singleton hs he h
    exact hf
  · exact fun h => one_le_languageFrom h Language.nil_mem_one

theorem cons_mem_languageFrom_iff (hs : a.isSimple) (he : a.hasEpsilon = false) {p : Nat} {c : Char}
    {w : List Char} :
    c :: w ∈ a.languageFrom p ↔ ∃ q ∈ (a.stateAt p).letterTargets c, w ∈ a.languageFrom q := by
  constructor
  · intro h
    obtain ⟨q, rfl, hq⟩ := begins_singleton hs he h
    exact hq
  · intro hx
    obtain ⟨q, hq, hw⟩ := hx
    exact cons_mem_languageFrom hq hw

/-! ## Closures -/

variable {states : List Nat} {p q : Nat}

theorem epsilonTarget_lt (h : a.WellFormed) (hq : q ∈ (a.stateAt p).epsilonTargets) : q < a.size := by
  obtain ⟨t, ht, -, rfl⟩ := State.mem_epsilonTargets.mp hq
  exact h.target_lt_of_mem ht

theorem letterTarget_lt (h : a.WellFormed) {c : Char} (hq : q ∈ (a.stateAt p).letterTargets c) :
    q < a.size := by
  obtain ⟨t, ht, -, rfl⟩ := State.mem_letterTargets.mp hq
  exact h.target_lt_of_mem ht

/-- A path of ε-transitions. -/
def EpsilonPath (a : Automaton) : Nat → Nat → Prop :=
  Relation.ReflTransGen fun p q => q ∈ (a.stateAt p).epsilonTargets

theorem EpsilonPath.languageFrom_le (h : a.EpsilonPath p q) : a.languageFrom q ≤ a.languageFrom p := by
  induction h with
  | refl => exact le_rfl
  | tail _ hq ih => exact (languageFrom_le_of_epsilon hq).trans ih

theorem mem_closure_iff (ha : a.WellFormed) (hs : ∀ p ∈ states, p < a.size) :
    q ∈ a.table.closure states ↔ ∃ p ∈ states, a.EpsilonPath p q := by
  rw [StateTable.closure, SortedSet.mem_ofList, table_stateAt, table_size]
  exact mem_explore_iff (P := (· < a.size)) hs (fun _ _ _ => epsilonTarget_lt ha)
    length_le_of_nodup_lt

theorem mem_successors_iff {S : StateSet} {c : Char} :
    q ∈ a.table.successors S c ↔ ∃ p ∈ S, q ∈ (a.stateAt p).letterTargets c := by
  rw [StateTable.successors, SortedSet.mem_ofList, table_stateAt, List.mem_flatMap]
  rfl

theorem anyFinal_iff {S : StateSet} : a.table.anyFinal S ↔ ∃ p ∈ S, a.isFinalAt p := by
  rw [StateTable.anyFinal, List.any_eq_true, table_stateAt]
  rfl

/-! ## Reading a word -/

/-- The states of a simulation: ε-transitions do not leave them. -/
def Closed (a : Automaton) (S : StateSet) : Prop :=
  ∀ p ∈ S, ∀ q ∈ (a.stateAt p).epsilonTargets, q ∈ S

theorem closed_closure (ha : a.WellFormed) (hs : ∀ p ∈ states, p < a.size) :
    a.Closed (a.table.closure states) := by
  intro q hq r hr
  obtain ⟨p, hp, h⟩ := (mem_closure_iff ha hs).mp hq
  exact (mem_closure_iff ha hs).mpr ⟨p, hp, h.tail hr⟩

theorem exists_mem_closure_iff (ha : a.WellFormed) (hs : ∀ p ∈ states, p < a.size) {w : List Char} :
    (∃ q ∈ a.table.closure states, w ∈ a.languageFrom q) ↔ ∃ p ∈ states, w ∈ a.languageFrom p := by
  constructor
  · intro hx
    obtain ⟨q, hq, hw⟩ := hx
    obtain ⟨p, hp, h⟩ := (mem_closure_iff ha hs).mp hq
    exact ⟨p, hp, h.languageFrom_le hw⟩
  · intro hx
    obtain ⟨p, hp, hw⟩ := hx
    exact ⟨p, (mem_closure_iff ha hs).mpr ⟨p, hp, .refl⟩, hw⟩

theorem anyFinal_foldl_advance (ha : a.WellFormed) (hs : a.isSimple) (w : List Char) {S : StateSet}
    (hS : a.Closed S) :
    a.table.anyFinal (w.foldl a.table.advance S) ↔ ∃ p ∈ S, w ∈ a.languageFrom p := by
  induction w generalizing S with
  | nil =>
    rw [List.foldl_nil, anyFinal_iff]
    constructor
    · intro hx
      obtain ⟨p, hp, hf⟩ := hx
      exact ⟨p, hp, one_le_languageFrom hf Language.nil_mem_one⟩
    · intro h
      obtain ⟨p, hp, hw⟩ := h
      exact begins_of_mem_languageFrom hs (S := {p | p ∈ S}) hS hp hw
  | cons c w ih =>
    have hlt : ∀ q ∈ (a.table.successors S c).toList, q < a.size := by
      intro q hq
      obtain ⟨p, -, h⟩ := mem_successors_iff.mp hq
      exact letterTarget_lt ha h
    rw [List.foldl_cons, StateTable.advance, ih (closed_closure ha hlt),
      exists_mem_closure_iff ha hlt]
    constructor
    · intro hx
      obtain ⟨q, hq, hw⟩ := hx
      obtain ⟨p, hp, h⟩ := mem_successors_iff.mp hq
      exact ⟨p, hp, cons_mem_languageFrom h hw⟩
    · intro hx
      obtain ⟨p, hp, hw⟩ := hx
      obtain ⟨q, hq, r, hr, hw⟩ :=
        begins_of_mem_languageFrom hs (S := {p | p ∈ S}) hS hp hw
      exact ⟨r, mem_successors_iff.mpr ⟨q, hq, hr⟩, hw⟩

theorem simulate_of_size_eq_zero (hsize : a.size = 0) (w : List Char) : a.simulate w = false := by
  refine Bool.eq_false_iff.mpr fun h => ?_
  obtain ⟨p, -, hf⟩ := anyFinal_iff.mp h
  exact absurd (lt_size_of_isFinalAt hf) (Nat.not_lt.mpr (hsize ▸ Nat.zero_le p))

theorem simulate_iff (ha : a.WellFormed) (hs : a.isSimple) {w : List Char} :
    a.simulate w ↔ w ∈ a.language := by
  rw [language_eq_languageFrom]
  by_cases h : a.start < a.size
  · have hlt : ∀ p ∈ [a.start], p < a.size := by simpa
    rw [simulate, anyFinal_foldl_advance ha hs w (closed_closure ha hlt), exists_mem_closure_iff ha hlt]
    simp
  · have h := Nat.not_lt.mp h
    have hsize : a.size = 0 := Nat.eq_zero_of_not_pos fun hp => h.not_gt (ha.start_lt_of_pos hp)
    rw [simulate_of_size_eq_zero hsize, languageFrom_of_size_le h]
    exact iff_of_false Bool.false_ne_true (Language.notMem_zero w)

theorem accepts_iff_mem (ha : a.WellFormed) {w : List Char} : a.accepts w ↔ w ∈ a.language := by
  rw [accepts, simulate_iff (extends_simplified ha).wellFormed (isSimple_simplified a),
    language_simplified ha]

/-- A simple automaton is simulated as it is. -/
theorem accepts_eq_simulate (hs : a.isSimple) (w : List Char) : a.accepts w = a.simulate w := by
  have hnone : a.firstComposite? = none := by
    cases h : a.firstComposite? with
    | none => rfl
    | some si =>
      obtain ⟨t, ht, hc⟩ := firstComposite?_eq_some h
      have := isSimple_iff.mp hs si.1 t (List.mem_of_getElem? ht)
      rw [this] at hc
      cases hc
  have hself : a.simplified = a := by
    unfold simplified
    cases a.composites with
    | zero => rfl
    | succ n => rw [expandN, hnone]
  rw [accepts, hself]

/-- Once no state is active none will be, so that reading may stop there. -/
theorem foldl_advance_empty (t : StateTable) (w : List Char) : w.foldl t.advance .empty = .empty := by
  have hstep (c : Char) : t.advance .empty c = .empty := by
    show SortedSet.ofList (exploreN _ t.size 0 (.ofList [])).toList = .empty
    cases t.size <;> rfl
  induction w with
  | nil => rfl
  | cons c w ih => rw [List.foldl_cons, hstep, ih]

end Automaton

end RegularLang
