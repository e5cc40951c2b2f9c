/-
  RegularLang.Proofs.Automaton.Minimized — minimization puts two states of a complete
  automaton into one class exactly when the same words lead from them to a final state
  along first transitions on letters (`classOf_eq_iff`). The result has a transition
  function, no two of its states have the same words, and the words are those that
  first transitions read from the start (`language_minimized`).

  Those are all words of a deterministic automaton without ε-transitions
  (`stepLanguage_eq`). The stage itself does not ask for the absence of ε-transitions,
  and in general they are only some (`stepLanguage_le`).
-/

import RegularLang.Proofs.Automaton.Completed
import RegularLang.Proofs.Automaton.Refined

namespace RegularLang.Automaton

variable {a : Automaton} {p q s t : Nat} {c : Char} {w : List Char}

/-! ## First transitions -/

/-- First transitions on the letters of `w` lead from `p` to a final state. -/
def Walks (a : Automaton) : Nat → List Char → Prop
  | p, [] => a.isFinalAt p
  | p, c :: w => c ∈ a.alphabet ∧ ∃ q, a.step? p c = some q ∧ Walks a q w

def stepLanguage (a : Automaton) (p : Nat) : Language Char := {w | a.Walks p w}

theorem nil_mem_stepLanguage : [] ∈ a.stepLanguage p ↔ a.isFinalAt p := Iff.rfl

theorem cons_mem_stepLanguage :
    c :: w ∈ a.stepLanguage p ↔ c ∈ a.alphabet ∧ ∃ q, a.step? p c = some q ∧ w ∈ a.stepLanguage q :=
  Iff.rfl

theorem step?_eq_some (h : a.step? p c = some q) : ⟨q, .char c⟩ ∈ (a.stateAt p).transitions := by
  rw [step?, State.step?, Option.map_eq_some_iff] at h
  obtain ⟨t, ht, rfl⟩ := h
  have hlabel : t.label = .char c := by simpa using List.find?_some ht
  rw [← hlabel]
  exact List.mem_of_find?_eq_some ht

theorem stepLanguage_le (he : epsilon ∉ a.alphabet) (p : Nat) :
    a.stepLanguage p ≤ a.languageFrom p := by
  intro w hw
  induction w generalizing p with
  | nil => exact one_le_languageFrom hw Language.nil_mem_one
  | cons c w ih =>
    obtain ⟨hc, q, hq, hw⟩ := cons_mem_stepLanguage.mp hw
    refine cons_mem_languageFrom (State.mem_letterTargets.mpr ⟨_, step?_eq_some hq, ?_, rfl⟩) (ih q hw)
    exact Regex.letter?_eq_some_iff.mpr ⟨fun e => he (e ▸ hc), rfl⟩

/-- In a complete automaton, a letter leads somewhere from every state. -/
theorem exists_step? (h : a.isComplete) (hp : p < a.size) (hc : c ∈ a.alphabet) :
    ∃ q, a.step? p c = some q := by
  obtain ⟨t, ht, hl⟩ := (isComplete_iff.mp h).2 p hp c hc
  have hsome : ((a.stateAt p).transitions.find? (·.label = .char c)).isSome :=
    List.find?_isSome.mpr ⟨t, ht, decide_eq_true hl⟩
  obtain ⟨u, hu⟩ := Option.isSome_iff_exists.mp hsome
  exact ⟨u.target, by rw [step?, State.step?, hu]; rfl⟩

theorem step?_lt_size (ha : a.WellFormed) (h : a.step? p c = some q) : q < a.size :=
  ha.target_lt_of_mem (step?_eq_some h)

/-- What first transitions read is all that can be read if there are no others. -/
theorem stepLanguage_eq (ha : a.WellFormed) (hd : a.isDeterministic) (he : a.hasEpsilon = false)
    (p : Nat) : a.stepLanguage p = a.languageFrom p := by
  refine le_antisymm (stepLanguage_le ha.epsilon_not_mem p) ?_
  intro w hw
  obtain ⟨hs, hcount⟩ := isDeterministic_iff.mp hd
  induction w generalizing p with
  | nil => exact (nil_mem_languageFrom_iff hs he).mp hw
  | cons c w ih =>
    obtain ⟨q, hq, hw⟩ := (cons_mem_languageFrom_iff hs he).mp hw
    obtain ⟨t, ht, hl, rfl⟩ := State.mem_letterTargets.mp hq
    obtain ⟨hne, hl⟩ := Regex.letter?_eq_some_iff.mp hl
    have hc : c ∈ a.alphabet := ha.letters_mem_of_mem ht (by simp [hl, hne])
    have hlen := hcount p (lt_size_of_mem ht) c hc
    rw [State.count, List.countP_eq_length_filter] at hlen
    have hmem : t ∈ (a.stateAt p).transitions.filter (·.label = .char c) :=
      List.mem_filter.mpr ⟨ht, decide_eq_true hl⟩
    refine cons_mem_stepLanguage.mpr ⟨hc, t.target, ?_, ih _ hw⟩
    rw [step?, State.step?, ← List.head?_filter]
    obtain ⟨u, hu⟩ := List.length_eq_one_iff.mp
      (Nat.le_antisymm hlen (List.length_pos_of_mem hmem))
    rw [hu] at hmem ⊢
    rw [List.mem_singleton.mp hmem]
    rfl

/-! ## The classes -/

theorem length_moves (a : Automaton) : a.moves.length = a.size := by simp [moves, size]

theorem getElem_moves (h : s < a.moves.length) :
    a.moves[s] = a.alphabet.toList.map (a.step? s) := by
  simp only [moves, List.getElem_map]
  rw [show a.step? s = (a.stateAt s).step? from rfl, stateAt_eq_get (length_moves a ▸ h)]
  rfl

theorem refine_moves_eq_iff (r : Partition) (hs : s < a.size) (ht : t < a.size) :
    (r.refine a.moves).1[s]? = (r.refine a.moves).1[t]? ↔
      r[s]? = r[t]? ∧ ∀ c ∈ a.alphabet, (a.step? s c).bind (r[·]?) = (a.step? t c).bind (r[·]?) := by
  rw [← length_moves] at hs ht
  rw [Partition.refine_eq_iff hs ht, Partition.profile, Partition.profile, List.cons.injEq,
    getElem_moves hs, getElem_moves ht, List.map_map, List.map_map, List.map_inj_left]
  rfl

/-- What holds of the partition before every round: it tells final states from others,
    and does not tell states with the same words apart. -/
structure Coarse (a : Automaton) (r : Partition) : Prop where
  isFinalAt_eq : ∀ s < a.size, ∀ t < a.size, r[s]? = r[t]? → a.isFinalAt s = a.isFinalAt t
  eq_of_stepLanguage : ∀ s < a.size, ∀ t < a.size, a.stepLanguage s = a.stepLanguage t → r[s]? = r[t]?

/-- The split into final and other states. -/
def finality (a : Automaton) : Partition :=
  (a.states.map fun st => if st.isFinal then 1 else 0).toArray

theorem getElem?_finality (hs : s < a.size) :
    a.finality[s]? = some (if a.isFinalAt s then 1 else 0) := by
  have hget := stateAt_eq_get hs
  simp only [finality, isFinalAt, hget]
  have hs : s < a.states.length := hs
  simp [hs]

theorem coarse_finality (a : Automaton) : a.Coarse a.finality where
  isFinalAt_eq := by
    intro s hs t ht h
    rw [getElem?_finality hs, getElem?_finality ht] at h
    cases hf : a.isFinalAt s <;> cases hf' : a.isFinalAt t <;> simp_all
  eq_of_stepLanguage := by
    intro s hs t ht h
    have hf : a.isFinalAt s ↔ a.isFinalAt t := by
      rw [← nil_mem_stepLanguage, h, nil_mem_stepLanguage]
    rw [getElem?_finality hs, getElem?_finality ht, Bool.eq_iff_iff.mpr hf]

theorem Coarse.refine (ha : a.WellFormed) (hc : a.isComplete) {r : Partition} (h : a.Coarse r) :
    a.Coarse (r.refine a.moves).1 where
  isFinalAt_eq := fun s hs t ht e => h.isFinalAt_eq s hs t ht ((refine_moves_eq_iff r hs ht).mp e).1
  eq_of_stepLanguage := by
    intro s hs t ht e
    refine (refine_moves_eq_iff r hs ht).mpr ⟨h.eq_of_stepLanguage s hs t ht e, ?_⟩
    intro c hcm
    obtain ⟨q, hq⟩ := exists_step? hc hs hcm
    obtain ⟨q', hq'⟩ := exists_step? hc ht hcm
    rw [hq, hq', Option.bind_some, Option.bind_some]
    refine h.eq_of_stepLanguage q (step?_lt_size ha hq) q' (step?_lt_size ha hq') ?_
    ext w
    have hw : c :: w ∈ a.stepLanguage s ↔ c :: w ∈ a.stepLanguage t := by rw [e]
    simpa [cons_mem_stepLanguage, hcm, hq, hq'] using hw

/-- The class of a state. -/
def classOf (a : Automaton) (s : Nat) : Nat := a.classes.1.getD s 0

theorem size_finality (a : Automaton) : a.finality.size = a.moves.length := by
  simp [finality, length_moves, size]

theorem settles_classes (a : Automaton) : Partition.Settles a.moves a.finality 0 a.classes := by
  have hlen := length_moves a
  exact Partition.settles_refineN (size_finality a) (.inl rfl) (by omega)

/-- The classes are those of a last round that separates nothing new. -/
theorem exists_classes_eq (ha : a.WellFormed) (hc : a.isComplete) :
    ∃ r : Partition, a.classes = r.refine a.moves ∧ a.Coarse r ∧ ∀ s < a.size, ∀ t < a.size,
      ((r.refine a.moves).1[s]? = (r.refine a.moves).1[t]? ↔ r[s]? = r[t]?) := by
  have hlen := length_moves a
  obtain ⟨r, he, -, hr, hstable⟩ := (settles_classes a).exists_eq (size_finality a) (.inl rfl)
    (coarse_finality a) (fun q _ hq => hq.refine ha hc)
  rw [hlen] at hstable
  exact ⟨r, he, hr, hstable⟩

theorem size_classes (ha : a.WellFormed) (hc : a.isComplete) : a.classes.1.size = a.size := by
  obtain ⟨r, he, -⟩ := exists_classes_eq ha hc
  rw [he, Partition.size_refine, length_moves]

theorem getElem?_classes (ha : a.WellFormed) (hc : a.isComplete) (hs : s < a.size) :
    a.classes.1[s]? = some (a.classOf s) := by
  have hlt : s < a.classes.1.size := by rwa [size_classes ha hc]
  simp [classOf, hlt]

theorem ordered_classes (ha : a.WellFormed) (hc : a.isComplete) : a.classes.1.Ordered := by
  obtain ⟨r, he, -⟩ := exists_classes_eq ha hc
  rw [he]
  exact Partition.ordered_refine r a.moves

theorem mem_stepLanguage_of_coarse (ha : a.WellFormed) (hc : a.isComplete) {r : Partition}
    (hr : a.Coarse r) (hstable : ∀ s < a.size, ∀ t < a.size,
      ((r.refine a.moves).1[s]? = (r.refine a.moves).1[t]? ↔ r[s]? = r[t]?))
    (hs : s < a.size) (ht : t < a.size) (h : r[s]? = r[t]?) (hw : w ∈ a.stepLanguage s) :
    w ∈ a.stepLanguage t := by
  induction w generalizing s t with
  | nil => exact nil_mem_stepLanguage.mpr (hr.isFinalAt_eq s hs t ht h ▸ nil_mem_stepLanguage.mp hw)
  | cons c w ih =>
    obtain ⟨hcm, q, hq, hw⟩ := cons_mem_stepLanguage.mp hw
    obtain ⟨q', hq'⟩ := exists_step? hc ht hcm
    have hmoves := ((refine_moves_eq_iff r hs ht).mp ((hstable s hs t ht).mpr h)).2 c hcm
    rw [hq, hq', Option.bind_some, Option.bind_some] at hmoves
    exact cons_mem_stepLanguage.mpr
      ⟨hcm, q', hq', ih (step?_lt_size ha hq) (step?_lt_size ha hq') hmoves hw⟩

theorem classOf_eq_iff (ha : a.WellFormed) (hc : a.isComplete) (hs : s < a.size) (ht : t < a.size) :
    a.classOf s = a.classOf t ↔ a.stepLanguage s = a.stepLanguage t := by
  rw [← Option.some_inj, ← getElem?_classes ha hc hs, ← getElem?_classes ha hc ht]
  obtain ⟨r, he, hr, hstable⟩ := exists_classes_eq ha hc
  rw [he, hstable s hs t ht]
  refine ⟨fun h => le_antisymm ?_ ?_, hr.eq_of_stepLanguage s hs t ht⟩
  · exact fun w => mem_stepLanguage_of_coarse ha hc hr hstable hs ht h
  · exact fun w => mem_stepLanguage_of_coarse ha hc hr hstable ht hs h.symm

/-- States of one class move to states of one class. -/
theorem classOf_step_eq (ha : a.WellFormed) (hc : a.isComplete) (h : a.classOf s = a.classOf t)
    {p q : Nat} (hp : a.step? s c = some p) (hq : a.step? t c = some q) (hcm : c ∈ a.alphabet) :
    a.classOf p = a.classOf q := by
  have hs := lt_size_of_mem (step?_eq_some hp)
  have ht := lt_size_of_mem (step?_eq_some hq)
  refine (classOf_eq_iff ha hc (step?_lt_size ha hp) (step?_lt_size ha hq)).mpr ?_
  ext w
  have hw : c :: w ∈ a.stepLanguage s ↔ c :: w ∈ a.stepLanguage t := by
    rw [(classOf_eq_iff ha hc hs ht).mp h]
  simpa [cons_mem_stepLanguage, hcm, hp, hq] using hw

/-! ## One state per class -/

/-- The first member of the class `k`. -/
def FirstMember (a : Automaton) (k s : Nat) : Prop := a.classes.1.firstMembers[k]? = some s

theorem firsts_classes (ha : a.WellFormed) (hc : a.isComplete) :
    Partition.Firsts a.classes.1.toList a.classes.1.firstMembers :=
  Partition.firsts_firstMembers (ordered_classes ha hc)

theorem length_firstMembers (ha : a.WellFormed) (hc : a.isComplete) :
    a.classes.1.firstMembers.length = a.classes.2 := by
  obtain ⟨r, he, -⟩ := exists_classes_eq ha hc
  rw [(firsts_classes ha hc).length_eq, he]
  exact Partition.classCount_refine r a.moves

theorem FirstMember.lt_size (ha : a.WellFormed) (hc : a.isComplete) {k : Nat}
    (h : a.FirstMember k s) : s < a.size := by
  have hs := (List.getElem?_eq_some_iff.mp ((firsts_classes ha hc).eq_some h).1).1
  rwa [Array.length_toList, size_classes ha hc] at hs

theorem FirstMember.classOf_eq (ha : a.WellFormed) (hc : a.isComplete) {k : Nat}
    (h : a.FirstMember k s) : a.classOf s = k := by
  have hs := ((firsts_classes ha hc).eq_some h).1
  rw [Array.getElem?_toList, getElem?_classes ha hc (h.lt_size ha hc)] at hs
  exact Option.some.inj hs

theorem exists_firstMember (ha : a.WellFormed) (hc : a.isComplete) (hs : s < a.size) :
    ∃ r, a.FirstMember (a.classOf s) r := by
  have hlt := (firsts_classes ha hc).lt_length (s := s) (k := a.classOf s)
    (by rw [Array.getElem?_toList, getElem?_classes ha hc hs])
  exact ⟨_, List.getElem?_eq_getElem hlt⟩

theorem minimize_eq_ok (hd : a.isDeterministic) (hc : a.isComplete) (hpos : 0 < a.size) :
    a.minimize = .ok a.minimized := by
  rw [minimize, hd, hc, if_neg nofun, if_neg hpos.ne']

theorem size_minimized (a : Automaton) : a.minimized.size = a.classes.1.firstMembers.length := by
  simp [minimized, size]

theorem classOf_lt_size (ha : a.WellFormed) (hc : a.isComplete) (hs : s < a.size) :
    a.classOf s < a.minimized.size := by
  obtain ⟨r, hr⟩ := exists_firstMember ha hc hs
  rw [size_minimized]
  exact (List.getElem?_eq_some_iff.mp hr).1

theorem exists_firstMember_of_lt {k : Nat} (hk : k < a.minimized.size) : ∃ s, a.FirstMember k s := by
  rw [size_minimized] at hk
  exact ⟨_, List.getElem?_eq_getElem hk⟩

/-- Where the letter `c` leads from the class `k`. -/
def classStep (a : Automaton) (k : Nat) (c : Char) : Nat :=
  a.classOf ((a.step? (a.classes.1.firstMembers.getD k 0) c).getD 0)

theorem classStep_eq {k : Nat} (h : a.FirstMember k s) (hq : a.step? s c = some q) :
    a.classStep k c = a.classOf q := by
  have e : a.classes.1.firstMembers[k]? = some s := h
  rw [classStep, List.getD_eq_getElem?_getD, e, Option.getD_some, hq, Option.getD_some]

theorem stateAt_minimized {k : Nat} (h : a.FirstMember k s) : a.minimized.stateAt k =
    ⟨a.isFinalAt s, a.alphabet.toList.filterMap fun c =>
      (a.step? s c).map fun target => ⟨a.classOf target, .char c⟩⟩ := by
  have e : a.classes.1.firstMembers[k]? = some s := h
  rw [stateAt, List.getD_eq_getElem?_getD, minimized, List.getElem?_map, e, Option.map_some,
    Option.getD_some, table_stateAt, table_step?]
  rfl

theorem tabular_minimized (ha : a.WellFormed) (hc : a.isComplete) :
    a.minimized.Tabular a.classStep where
  epsilon_not_mem := ha.epsilon_not_mem
  lt_size := by
    intro k hk c hcm
    obtain ⟨s, hs⟩ := exists_firstMember_of_lt hk
    obtain ⟨q, hq⟩ := exists_step? hc (hs.lt_size ha hc) hcm
    rw [classStep_eq hs hq]
    exact classOf_lt_size ha hc (step?_lt_size ha hq)
  transitions_eq := by
    intro k hk
    obtain ⟨s, hs⟩ := exists_firstMember_of_lt hk
    rw [stateAt_minimized hs, ← List.filterMap_eq_map]
    apply List.filterMap_congr
    intro c hcm
    obtain ⟨q, hq⟩ := exists_step? hc (hs.lt_size ha hc) hcm
    rw [hq, Function.comp_apply, classStep_eq hs hq]
    rfl

/-- A class has the words of its members. -/
theorem languageFrom_minimized (ha : a.WellFormed) (hc : a.isComplete) (hs : s < a.size) :
    a.minimized.languageFrom (a.classOf s) = a.stepLanguage s := by
  have htab := tabular_minimized ha hc
  ext w
  induction w generalizing s with
  | nil =>
    obtain ⟨r, hr⟩ := exists_firstMember ha hc hs
    have hl := (classOf_eq_iff ha hc (hr.lt_size ha hc) hs).mp (hr.classOf_eq ha hc)
    rw [htab.nil_mem_languageFrom_iff, isFinalAt, stateAt_minimized hr, ← hl]
    rfl
  | cons c w ih =>
    obtain ⟨r, hr⟩ := exists_firstMember ha hc hs
    have hrlt := hr.lt_size ha hc
    have hl := (classOf_eq_iff ha hc hrlt hs).mp (hr.classOf_eq ha hc)
    rw [htab.cons_mem_languageFrom_iff (classOf_lt_size ha hc hs), ← hl, cons_mem_stepLanguage]
    apply and_congr_right
    intro hcm
    obtain ⟨q, hq⟩ := exists_step? hc hrlt hcm
    rw [classStep_eq hr hq, ih (step?_lt_size ha hq), hq]
    simp

theorem language_minimized (ha : a.WellFormed) (hc : a.isComplete) (hpos : 0 < a.size) :
    a.minimized.language = a.stepLanguage a.start :=
  languageFrom_minimized ha hc (ha.start_lt_of_pos hpos)

/-- Different states of the result have different words. -/
theorem languageFrom_minimized_inj (ha : a.WellFormed) (hc : a.isComplete) {j k : Nat}
    (hj : j < a.minimized.size) (hk : k < a.minimized.size)
    (h : a.minimized.languageFrom j = a.minimized.languageFrom k) : j = k := by
  obtain ⟨s, hs⟩ := exists_firstMember_of_lt hj
  obtain ⟨t, ht⟩ := exists_firstMember_of_lt hk
  rw [← hs.classOf_eq ha hc, ← ht.classOf_eq ha hc] at h ⊢
  rw [languageFrom_minimized ha hc (hs.lt_size ha hc),
    languageFrom_minimized ha hc (ht.lt_size ha hc)] at h
  exact (classOf_eq_iff ha hc (hs.lt_size ha hc) (ht.lt_size ha hc)).mpr h

end RegularLang.Automaton
