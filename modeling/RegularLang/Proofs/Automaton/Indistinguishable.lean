/-
  RegularLang.Proofs.Automaton.Indistinguishable — refining finds exactly the states that no
  word tells apart (`classify_exact`), where a word leads along the first transitions on
  its letters: others, also those on ε, do not matter.

  Without ε-transitions and with one transition on each letter these are the states that
  accept the same words, and minimization is the quotient by them. Where no two states do,
  each class is numbered as its only member (`classOf_eq_self`). So minimization does not
  change its own result (`minimize_exact`), which it would do if the numbers of the classes
  were in any other order than that of the first members.
-/

import RegularLang.Proofs.Automaton.Canonical
import RegularLang.Proofs.Automaton.Dfa

namespace RegularLang.Automaton

variable {a : Automaton} {δ : Nat → Char → Nat} {s t : Nat} {c : Char}

/-! ## Words that tell states apart -/

/-- After every word over the alphabet, the walks from both are in states that are both
    final or both not. -/
def Indistinguishable (a : Automaton) (s t : Nat) : Prop := ∀ w ∈ wordsOver a.letters,
  ∃ p q, a.walk? s w = some p ∧ a.walk? t w = some q ∧ a.isFinalAt p = a.isFinalAt q

theorem Indistinguishable.symm (h : a.Indistinguishable s t) : a.Indistinguishable t s := by
  intro w hw
  obtain ⟨p, q, hp, hq, hf⟩ := h w hw
  exact ⟨q, p, hq, hp, hf.symm⟩

theorem Indistinguishable.stepLanguage_le (h : a.Indistinguishable s t) :
    a.stepLanguage s ≤ a.stepLanguage t := by
  intro w hw
  obtain ⟨hover, p, hp, hf⟩ := mem_stepLanguage_iff.mp hw
  obtain ⟨p', q, hp', hq, e⟩ := h w hover
  obtain rfl := Option.some.inj (hp.symm.trans hp')
  exact mem_stepLanguage_iff.mpr ⟨hover, q, hq, e ▸ hf⟩

theorem indistinguishable_iff (ha : a.WellFormed) (hc : a.isComplete) (hs : s < a.size)
    (ht : t < a.size) : a.Indistinguishable s t ↔ a.stepLanguage s = a.stepLanguage t := by
  constructor
  · intro h
    exact le_antisymm h.stepLanguage_le h.symm.stepLanguage_le
  · intro h w hw
    obtain ⟨p, -, hp⟩ := exists_walk? ha hc hs hw
    obtain ⟨q, -, hq⟩ := exists_walk? ha hc ht hw
    refine ⟨p, q, hp, hq, Bool.eq_iff_iff.mpr ?_⟩
    have hmem : w ∈ a.stepLanguage s ↔ w ∈ a.stepLanguage t := by rw [h]
    simpa [mem_stepLanguage_iff, hw, hp, hq] using hmem

/-! ## The classes -/

theorem firstMissing?_eq_none (hc : a.isComplete) : a.firstMissing? = none := by
  rw [firstMissing?, List.findSome?_eq_none_iff]
  intro x hx
  obtain ⟨st, s⟩ := x
  have hst := List.mem_zipIdx_iff_getElem?.mp hx
  have hs : s < a.size := (List.getElem?_eq_some_iff.mp hst).1
  rw [Option.map_eq_none_iff, List.find?_eq_none]
  intro c hcm hnone
  obtain ⟨q, hq⟩ := exists_step? hc hs hcm
  rw [step?, stateAt, List.getD_eq_getElem?_getD, hst, Option.getD_some] at hq
  rw [hq] at hnone
  cases hnone

theorem inOrder_classes (ha : a.WellFormed) (hc : a.isComplete) :
    a.classes.1.InOrder a.classes.2 where
  lt_count_iff := by
    have hfirsts := firsts_classes ha hc
    intro k
    rw [← length_firstMembers ha hc]
    simp only [← Array.getElem?_toList]
    constructor
    · intro hk
      exact ⟨_, (hfirsts.eq_some (List.getElem?_eq_getElem hk)).1⟩
    · intro hx
      obtain ⟨s, hs⟩ := hx
      exact hfirsts.lt_length hs
  lt_iff := fun _ _ _ _ => Partition.Ordered.lt_iff (ordered_classes ha hc)

/-- Rounds of refining end in classes that are numbered in the order of their first
    members, and two states are in the same class exactly when no word tells them apart. -/
theorem classify_exact (ha : a.WellFormed) (hc : a.isComplete) : ∃ p count,
    a.classify = .ok (p, count) ∧ Partition.Settles a.moves a.finality 0 (p, count) ∧
      p.size = a.size ∧ p.InOrder count ∧
      ∀ s < a.size, ∀ t < a.size, p[s]? = p[t]? ↔ a.Indistinguishable s t := by
  refine ⟨a.classes.1, a.classes.2, ?_, settles_classes a, size_classes ha hc,
    inOrder_classes ha hc, ?_⟩
  · rw [classify, firstMissing?_eq_none hc]
  · intro s hs t ht
    rw [getElem?_classes ha hc hs, getElem?_classes ha hc ht, Option.some_inj,
      classOf_eq_iff ha hc hs ht, indistinguishable_iff ha hc hs ht]

/-- State 2, which nothing leads to, is not told apart from state 0: the second transition
    on `a` from there and the one on ε do not matter. -/
def strayTwin : Automaton :=
  ⟨[⟨false, [⟨1, .char 'a'⟩, ⟨0, .char 'a'⟩, ⟨1, .eps⟩]⟩, ⟨true, [⟨1, .char 'a'⟩]⟩,
    ⟨false, [⟨1, .char 'a'⟩]⟩], 0, .ofList ['a']⟩

theorem wellFormed_strayTwin : strayTwin.WellFormed :=
  ⟨by decide, by decide, by decide, by simp [strayTwin, Regex.eps, epsilon]⟩

theorem classify_exact_strayTwin : strayTwin.WellFormed ∧ strayTwin.isComplete ∧ ∃ p count,
    strayTwin.classify = .ok (p, count) ∧
      Partition.Settles strayTwin.moves strayTwin.finality 0 (p, count) ∧
      p.size = strayTwin.size ∧ p.InOrder count ∧
      ∀ s < strayTwin.size, ∀ t < strayTwin.size, p[s]? = p[t]? ↔ strayTwin.Indistinguishable s t :=
  have hc : strayTwin.isComplete := by decide +kernel
  ⟨wellFormed_strayTwin, hc, classify_exact wellFormed_strayTwin hc⟩

/-! ## The quotient -/

/-- `f` maps the states of `a` onto those of `b` and keeps what is final, the start and
    where letters lead. -/
structure Quotient (a b : Automaton) (f : Nat → Nat) : Prop where
  alphabet_eq : b.alphabet = a.alphabet
  start_eq : b.start = f a.start
  lt_size : ∀ s < a.size, f s < b.size
  surjective : ∀ k < b.size, ∃ s < a.size, f s = k
  isFinalAt_eq : ∀ s < a.size, b.isFinalAt (f s) = a.isFinalAt s
  step?_eq : ∀ s < a.size, ∀ c ∈ a.alphabet, b.step? (f s) c = (a.step? s c).map f

theorem isFinalAt_minimized (ha : a.WellFormed) (hc : a.isComplete) (hs : s < a.size) :
    a.minimized.isFinalAt (a.classOf s) = a.isFinalAt s := by
  rw [Bool.eq_iff_iff, ← (tabular_minimized ha hc).nil_mem_languageFrom_iff,
    languageFrom_minimized ha hc hs, nil_mem_stepLanguage]

theorem step?_minimized (ha : a.WellFormed) (hc : a.isComplete) (hs : s < a.size)
    (hcm : c ∈ a.alphabet) : a.minimized.step? (a.classOf s) c = (a.step? s c).map a.classOf := by
  obtain ⟨r, hr⟩ := exists_firstMember ha hc hs
  obtain ⟨p, hp⟩ := exists_step? hc (hr.lt_size ha hc) hcm
  obtain ⟨q, hq⟩ := exists_step? hc hs hcm
  rw [(tabular_minimized ha hc).step?_eq (classOf_lt_size ha hc hs) hcm, classStep_eq hr hp, hq,
    classOf_step_eq ha hc (hr.classOf_eq ha hc) hp hq hcm, Option.map_some]

theorem quotient_minimized (ha : a.WellFormed) (hc : a.isComplete) :
    a.Quotient a.minimized a.classOf where
  alphabet_eq := rfl
  start_eq := rfl
  lt_size := fun _ hs => classOf_lt_size ha hc hs
  surjective := by
    intro k hk
    obtain ⟨s, hs⟩ := exists_firstMember_of_lt hk
    exact ⟨s, hs.lt_size ha hc, hs.classOf_eq ha hc⟩
  isFinalAt_eq := fun _ hs => isFinalAt_minimized ha hc hs
  step?_eq := fun _ hs _ hcm => step?_minimized ha hc hs hcm

/-! ## Nothing left to put together -/

/-- A class with one member has its number. -/
theorem classOf_eq_self (ha : a.WellFormed) (hc : a.isComplete)
    (hred : ∀ p < a.size, ∀ q < a.size, a.stepLanguage p = a.stepLanguage q → p = q)
    (hs : s < a.size) : a.classOf s = s := by
  induction s using Nat.strong_induction_on with
  | h s ih =>
    rcases Nat.lt_trichotomy (a.classOf s) s with hlt | e | hlt
    · -- The state with this number is in the same class.
      have hk := hlt.trans hs
      exact hred _ hk s hs ((classOf_eq_iff ha hc hk hs).mp (ih _ hlt hk))
    · exact e
    · -- The class with the number `s` has a member before, which has its own number.
      obtain ⟨r, hr, hclass⟩ := ordered_classes ha hc (getElem?_classes ha hc hs) s hlt
      have hrlt := hr.trans hs
      rw [getElem?_classes ha hc hrlt, ih r hr hrlt, Option.some_inj] at hclass
      omega

theorem Tabular.minimized_eq_self (h : a.Tabular δ) (hred : a.Reduced) (hstart : a.start < a.size) :
    a.minimized = a := by
  have hd := h.dfa hstart
  have ha := hd.wellFormed
  have hc := hd.isComplete
  have hself : ∀ s < a.size, a.classOf s = s := by
    intro s hs
    refine classOf_eq_self ha hc ?_ hs
    simp only [stepLanguage_eq ha hd.isDeterministic hd.hasEpsilon]
    exact hred
  have hquot := quotient_minimized ha hc
  have hlt : ∀ k, k < a.minimized.size ↔ k < a.size := by
    intro k
    constructor
    · intro hk
      obtain ⟨s, hs, rfl⟩ := hquot.surjective k hk
      rwa [hself s hs]
    · intro hk
      rw [← hself k hk]
      exact hquot.lt_size k hk
  have hsize : a.minimized.size = a.size := eq_of_forall_lt_iff hlt
  refine (tabular_minimized ha hc).eq_of h hsize (hself a.start hstart) rfl ?_ ?_
  · intro k hk
    have hk := (hlt k).mp hk
    have hfinal := hquot.isFinalAt_eq k hk
    rwa [hself k hk] at hfinal
  · intro k hk c hcm
    have hstep := (tabular_minimized ha hc).step?_eq hk hcm
    have hk := (hlt k).mp hk
    have hmoved := hquot.step?_eq k hk c hcm
    rw [hself k hk, hstep, h.step?_eq hk hcm, Option.map_some, Option.some_inj] at hmoved
    rw [hmoved, hself _ (h.lt_size k hk c hcm)]

/-! ## Minimization -/

/-- Minimization leads to the quotient with one state for each set of words that a state
    accepts, and leaves its result as it is. -/
theorem minimize_exact (ha : a.WellFormed) (he : a.hasEpsilon = false) (hd : a.isDeterministic)
    (hc : a.isComplete) (hpos : 0 < a.size) : ∃ b, a.minimize = .ok b ∧ b.Dfa ∧
      (∀ w, b.accepts w = a.accepts w) ∧ b.Reduced ∧ (∃ f, a.Quotient b f) ∧
      b.minimize = .ok b := by
  have hdfa := dfa_minimized ha hc hpos
  have hred := reduced_minimized ha hc
  refine ⟨_, minimize_eq_ok hd hc hpos, hdfa, ?_, hred, ⟨_, quotient_minimized ha hc⟩, ?_⟩
  · intro w
    rw [Bool.eq_iff_iff, accepts_iff_mem hdfa.wellFormed, accepts_iff_mem ha,
      language_minimized ha hc hpos, stepLanguage_eq ha hd he, ← language_eq_languageFrom]
  · rw [minimize_eq_ok hdfa.isDeterministic hdfa.isComplete hdfa.size_pos,
      (tabular_minimized ha hc).minimized_eq_self hred hdfa.start_lt]

/-- Words of even length, from the last of three states; the first, which nothing leads
    to, accepts the same words as the start. -/
def strayEven : Automaton :=
  ⟨[⟨true, [⟨1, .char 'a'⟩]⟩, ⟨false, [⟨2, .char 'a'⟩]⟩, ⟨true, [⟨1, .char 'a'⟩]⟩], 2,
    .ofList ['a']⟩

theorem wellFormed_strayEven : strayEven.WellFormed :=
  ⟨by decide, by decide, by decide, by simp [strayEven]⟩

theorem minimize_exact_strayEven :
    (strayEven.WellFormed ∧ strayEven.hasEpsilon = false ∧ strayEven.isDeterministic ∧
      strayEven.isComplete ∧ 0 < strayEven.size) ∧
    ∃ b, strayEven.minimize = .ok b ∧ b.Dfa ∧ (∀ w, b.accepts w = strayEven.accepts w) ∧
      b.Reduced ∧ (∃ f, strayEven.Quotient b f) ∧ b.minimize = .ok b := by
  have he : strayEven.hasEpsilon = false := by decide +kernel
  have hd : strayEven.isDeterministic := by decide +kernel
  have hc : strayEven.isComplete := by decide +kernel
  have hpos : 0 < strayEven.size := by decide
  exact ⟨⟨wellFormed_strayEven, he, hd, hc, hpos⟩,
    minimize_exact wellFormed_strayEven he hd hc hpos⟩

end RegularLang.Automaton
