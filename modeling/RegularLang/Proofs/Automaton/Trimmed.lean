/-
  RegularLang.Proofs.Automaton.Trimmed — dropping transitions labelled ∅ and the
  states that cannot be reached keeps the language, and is never refused
  (`trim_eq_ok`).

  The states to be removed are found once, and removed from the last to the first, so that
  none of them has moved when its turn comes; the start is not among them. What is left is
  the part of the automaton that the start reaches by transitions not labelled ∅
  (`ReachablePart`), of which nothing goes a second time (`trim_exact`).
-/

import RegularLang.Automaton.Deterministic
import RegularLang.Proofs.Automaton.Restricted
import RegularLang.Proofs.Exploration

namespace RegularLang

namespace Automaton

variable {a : Automaton}

/-! ## Transitions labelled ∅ -/

theorem stateAt_dropZeros (a : Automaton) (p : Nat) : a.dropZeros.stateAt p =
    { a.stateAt p with
      transitions := (a.stateAt p).transitions.filter fun t => !t.label.isZero } :=
  stateAt_mapStates_of_dead rfl p

theorem mem_dropZeros {p : Nat} {t : Transition} (ht : t ∈ (a.dropZeros.stateAt p).transitions) :
    t ∈ (a.stateAt p).transitions := by
  rw [stateAt_dropZeros] at ht
  exact (List.mem_filter.mp ht).1

theorem wellFormed_dropZeros (ha : a.WellFormed) : a.dropZeros.WellFormed := by
  apply ha.mapStates
  intro p t ht
  have ht := (List.mem_filter.mp ht).1
  exact ⟨ha.target_lt_of_mem ht, fun c => ha.letters_mem_of_mem ht⟩

theorem languageFrom_dropZeros (a : Automaton) : a.dropZeros.languageFrom = a.languageFrom := by
  refine languageFrom_congr fun p X => eq_of_forall_ge_iff ?_
  intro l
  rw [stateAt_dropZeros, State.reads_le_iff, State.reads_le_iff]
  refine and_congr_right fun _ => ⟨?_, fun h t ht => h t (List.mem_filter.mp ht).1⟩
  intro h t ht
  by_cases hz : t.label.isZero
  · rw [Regex.eq_zero_of_isZero hz, Regex.language_zero, zero_mul]
    exact zero_le
  · exact h t (List.mem_filter.mpr ⟨ht, by simp [hz]⟩)

/-! ## States that cannot be reached -/

/-- A path of transitions, whatever they are labelled. -/
def Leads (a : Automaton) : Nat → Nat → Prop :=
  Relation.ReflTransGen fun p q => q ∈ (a.stateAt p).targets

theorem target_lt (ha : a.WellFormed) {p q : Nat} (hq : q ∈ (a.stateAt p).targets) : q < a.size := by
  obtain ⟨t, ht, rfl⟩ := List.mem_map.mp hq
  exact ha.target_lt_of_mem ht

theorem mem_reachableFrom_iff (ha : a.WellFormed) {p q : Nat} (hp : p < a.size) :
    q ∈ a.reachableFrom p ↔ a.Leads p q := by
  rw [IndexedSet.mem_def, reachableFrom, table_stateAt]
  refine (mem_explore_iff (P := (· < a.size)) (by simpa) (fun _ _ _ => target_lt ha)
    length_le_of_nodup_lt).trans ?_
  simp [Leads]

/-- The states that the start does not lead to are removed, and never the start itself. -/
theorem exists_dropUnreachable (ha : a.WellFormed) :
    ∃ b gone f, a.dropUnreachable = .ok b ∧ a.Restricts b gone f ∧
      ∀ s < a.size, s ∈ gone ↔ ¬a.Leads a.start s := by
  let gone := ((List.range a.size).filter fun s => s ∉ a.reachableFrom a.start).reverse
  have hdesc : gone.Pairwise (· > ·) :=
    List.pairwise_reverse.mpr (List.pairwise_lt_range.sublist List.filter_sublist)
  have hmem {s} : s ∈ gone ↔ s < a.size ∧ s ∉ a.reachableFrom a.start := by simp [gone]
  have hgone (s) (hs : s < a.size) : s ∈ gone ↔ ¬a.Leads a.start s := by
    rw [hmem, mem_reachableFrom_iff ha (ha.start_lt_of_lt hs), and_iff_right hs]
  have hlt (s) (hs : s ∈ gone) : s < a.size := (hmem.mp hs).1
  have hstart : a.start ∉ gone := fun h => (hgone _ (hlt _ h)).mp h .refl
  obtain ⟨b, f, hb, hf, -⟩ := removeStates_eq_ok hdesc hlt hstart
  exact ⟨b, gone, f, hb, hf, hgone⟩

/-- No transition leads from a state that is left to one that is gone. -/
theorem Restricts.target_not_mem {b : Automaton} {gone : List Nat} {f : Nat → Nat}
    (hf : a.Restricts b gone f) (ha : a.WellFormed)
    (hgone : ∀ s < a.size, s ∈ gone ↔ ¬a.Leads a.start s) {p : Nat} {t : Transition}
    (ht : t ∈ (a.stateAt (f p)).transitions) : t.target ∉ gone := by
  have hp : a.Leads a.start (f p) := by
    by_contra hp
    exact hf.not_mem_gone p ((hgone _ (lt_size_of_mem ht)).mpr hp)
  intro h
  exact (hgone _ (ha.target_lt_of_mem ht)).mp h (hp.tail (List.mem_map_of_mem ht))

theorem dropUnreachable_eq_ok (ha : a.WellFormed) :
    ∃ b gone f, a.dropUnreachable = .ok b ∧ a.Restricts b gone f ∧ b.language = a.language ∧
      ∀ s < a.size, s ∈ gone ↔ ¬a.Leads a.start s := by
  obtain ⟨b, gone, f, hb, hf, hunreached⟩ := exists_dropUnreachable ha
  refine ⟨b, gone, f, hb, hf, ?_, hunreached⟩
  let Y := Function.extend f b.languageFrom a.languageFrom
  have hY (p) : Y (f p) = b.languageFrom p := hf.strictMono.injective.extend_apply ..
  have hgone {s} (hs : s ∈ gone) : Y s = a.languageFrom s :=
    Function.extend_apply' _ _ _ fun ⟨p, hp⟩ => hf.not_mem_gone p (hp ▸ hs)
  have hle (s) : Y s ≤ a.languageFrom s := by
    by_cases hs : s ∈ gone
    · exact (hgone hs).le
    · obtain ⟨p, rfl⟩ := hf.not_mem_gone_iff.mp hs
      exact (hY p).trans_le (hf.languageFrom_le p)
  rw [language_eq_languageFrom, language_eq_languageFrom, ← hf.start_eq]
  refine le_antisymm (hf.languageFrom_le _) (hf.le_languageFrom hY ?_ ?_ _)
  · intro s hs
    rw [hgone hs]
    exact (State.reads_mono fun t _ => hle t.target).trans (a.reads_languageFrom_le s)
  · exact fun p t ht h => absurd h (hf.target_not_mem ha hunreached ht)

/-- Where the start leads everywhere, nothing is removed. -/
theorem dropUnreachable_eq_self (ha : a.WellFormed) (h : ∀ s < a.size, a.Leads a.start s) :
    a.dropUnreachable = .ok a := by
  have hnone : (List.range a.size).filter (fun s => s ∉ a.reachableFrom a.start) = [] := by
    refine List.filter_eq_nil_iff.mpr ?_
    intro s hs
    have hs := List.mem_range.mp hs
    simpa using (mem_reachableFrom_iff ha (ha.start_lt_of_lt hs)).mpr (h s hs)
  show a.removeStates ((List.range a.size).filter fun s => s ∉ a.reachableFrom a.start).reverse = _
  rw [hnone]
  rfl

/-! ## Both -/

theorem trim_eq_ok (ha : a.WellFormed) :
    ∃ b gone f, a.trim = .ok b ∧ a.dropZeros.Restricts b gone f ∧ b.language = a.language ∧
      ∀ s < a.dropZeros.size, s ∈ gone ↔ ¬a.dropZeros.Leads a.start s := by
  obtain ⟨b, gone, f, hb, hf, hl, hgone⟩ := dropUnreachable_eq_ok (wellFormed_dropZeros ha)
  refine ⟨b, gone, f, hb, hf, hl.trans ?_, hgone⟩
  rw [language_eq_languageFrom, languageFrom_dropZeros]
  rfl

/-! ## What is left -/

/-- A path of transitions that are not labelled ∅. -/
def Reaches (a : Automaton) : Nat → Nat → Prop :=
  Relation.ReflTransGen fun p q => ∃ t ∈ (a.stateAt p).transitions, t.label ≠ .zero ∧ t.target = q

/-- State `p` of `b` is state `f p` of `a`. The states that the start reaches are left, in the
    order they had, and of each the transitions that are not labelled ∅. -/
structure ReachablePart (a b : Automaton) (f : Nat → Nat) : Prop where
  strictMono : StrictMono f
  exists_eq_iff : ∀ s < a.size, (∃ p < b.size, f p = s) ↔ a.Reaches a.start s
  start_eq : f b.start = a.start
  lt_size : ∀ p < b.size, f p < a.size
  isFinalAt_eq : ∀ p < b.size, b.isFinalAt p = a.isFinalAt (f p)
  transitions_eq : ∀ p < b.size, (b.stateAt p).transitions.map (.mapTarget f) =
    (a.stateAt (f p)).transitions.filter (·.label ≠ .zero)

theorem leads_dropZeros (a : Automaton) : a.dropZeros.Leads = a.Reaches := by
  refine congrArg Relation.ReflTransGen ?_
  funext p q
  rw [stateAt_dropZeros]
  simp [State.targets, Regex.isZero_eq_false_iff, and_assoc]

theorem dropZeros_eq_self (h : ∀ p, ∀ t ∈ (a.stateAt p).transitions, t.label ≠ .zero) :
    a.dropZeros = a := by
  refine eq_of_stateAt (size_mapStates ..) rfl rfl fun p _ => ?_
  have hall : ∀ t ∈ (a.stateAt p).transitions, !t.label.isZero := fun t ht => by
    simpa [Regex.isZero_eq_false_iff] using h p t ht
  rw [stateAt_dropZeros, List.filter_eq_self.mpr hall]

theorem Restricts.reachablePart {b : Automaton} {gone : List Nat} {f : Nat → Nat}
    (hf : a.dropZeros.Restricts b gone f) (ha : a.WellFormed)
    (hgone : ∀ s < a.dropZeros.size, s ∈ gone ↔ ¬a.dropZeros.Leads a.start s) :
    a.ReachablePart b f where
  strictMono := hf.strictMono
  exists_eq_iff := by
    intro s hs
    have hs : s < a.dropZeros.size := by rwa [dropZeros, size_mapStates]
    rw [← leads_dropZeros, ← not_iff_not, ← hgone s hs, ← not_iff_not, not_not, hf.not_mem_gone_iff]
    constructor
    · intro hx
      obtain ⟨p, -, hp⟩ := hx
      exact ⟨p, hp⟩
    · intro hx
      obtain ⟨p, rfl⟩ := hx
      exact ⟨p, hf.lt_size_iff.mpr hs, rfl⟩
  start_eq := hf.start_eq
  lt_size := fun p hp => by simpa [dropZeros] using hf.lt_size_iff.mp hp
  isFinalAt_eq := by
    intro p _
    rw [hf.isFinalAt_eq, isFinalAt, stateAt_dropZeros]
    rfl
  transitions_eq := by
    intro p _
    rw [hf.transitions_eq, List.filter_eq_self.mpr, stateAt_dropZeros]
    · refine List.filter_congr fun t _ => ?_
      rw [Bool.eq_iff_iff]
      simp [Regex.isZero_eq_false_iff]
    · intro t ht
      exact decide_eq_true (hf.target_not_mem (wellFormed_dropZeros ha) hgone ht)

namespace ReachablePart

variable {b : Automaton} {f : Nat → Nat} (h : a.ReachablePart b f)

include h

theorem label_ne_zero {p : Nat} {t : Transition} (ht : t ∈ (b.stateAt p).transitions) :
    t.label ≠ .zero := by
  have hm := List.mem_map_of_mem (f := Transition.mapTarget f) ht
  rw [h.transitions_eq p (lt_size_of_mem ht)] at hm
  exact of_decide_eq_true (List.mem_filter.mp hm).2

/-- What the start reaches in `a`, it reaches in `b`. -/
theorem exists_leads {s : Nat} (hs : a.Reaches a.start s) : ∃ p, f p = s ∧ b.Leads b.start p := by
  induction hs with
  | refl => exact ⟨b.start, h.start_eq, .refl⟩
  | tail hreach hstep ih =>
    obtain ⟨p, rfl, hp⟩ := ih
    obtain ⟨t, ht, hzero, rfl⟩ := hstep
    -- The state that the step leaves is one of `b`: the start reaches it.
    obtain ⟨p', hlt, hp'⟩ := (h.exists_eq_iff _ (lt_size_of_mem ht)).mpr hreach
    obtain rfl := h.strictMono.injective hp'
    have hm : t ∈ (a.stateAt (f p')).transitions.filter (·.label ≠ .zero) :=
      List.mem_filter.mpr ⟨ht, decide_eq_true hzero⟩
    rw [← h.transitions_eq p' hlt] at hm
    obtain ⟨u, hu, rfl⟩ := List.mem_map.mp hm
    exact ⟨u.target, rfl, hp.tail (List.mem_map_of_mem hu)⟩

theorem leads {p : Nat} (hp : p < b.size) : b.Leads b.start p := by
  obtain ⟨q, hq, hlead⟩ := h.exists_leads ((h.exists_eq_iff _ (h.lt_size p hp)).mp ⟨p, hp, rfl⟩)
  rwa [← h.strictMono.injective hq]

/-- Trimming what is left changes nothing. -/
theorem trim_eq_self (hb : b.WellFormed) : b.trim = .ok b := by
  rw [trim, dropZeros_eq_self fun _ _ => h.label_ne_zero]
  exact dropUnreachable_eq_self hb fun _ => h.leads

end ReachablePart

/-- Trimming leaves just the states that the start reaches by transitions not labelled ∅, in
    their order and with these transitions, and all words and letters. It is never refused,
    and a second time it changes nothing. -/
theorem trim_exact (ha : a.WellFormed) :
    ∃ b f, a.trim = .ok b ∧ a.ReachablePart b f ∧ b.language = a.language ∧
      b.alphabet = a.alphabet ∧ (∀ p, ∀ t ∈ (b.stateAt p).transitions, t.label ≠ .zero) ∧
      b.trim = .ok b := by
  obtain ⟨b, gone, f, hb, hf, hl, hgone⟩ := trim_eq_ok ha
  have h := hf.reachablePart ha hgone
  exact ⟨b, f, hb, h, hl, hf.alphabet_eq, fun _ _ => h.label_ne_zero,
    h.trim_eq_self (hf.wellFormed (wellFormed_dropZeros ha))⟩

/-- Starts at 2. Nothing leads to state 0, and to state 3 only a transition labelled ∅. -/
def detached : Automaton where
  states := [⟨true, [⟨2, .char 'a'⟩]⟩,
    ⟨true, [⟨1, .star (.char 'b')⟩, ⟨4, .char 'a'⟩]⟩,
    ⟨false, [⟨3, .zero⟩, ⟨1, .concat [.char 'a', .zero]⟩, ⟨1, .char 'a'⟩]⟩,
    ⟨true, [⟨4, .char 'b'⟩]⟩,
    ⟨false, [⟨4, .zero⟩, ⟨2, .eps⟩]⟩]
  start := 2
  alphabet := .ofList ['a', 'b', 'c']

/-- The states 1, 2 and 4 of `detached`. -/
def attached : Automaton where
  states := [⟨true, [⟨0, .star (.char 'b')⟩, ⟨2, .char 'a'⟩]⟩,
    ⟨false, [⟨0, .concat [.char 'a', .zero]⟩, ⟨0, .char 'a'⟩]⟩,
    ⟨false, [⟨1, .eps⟩]⟩]
  start := 1
  alphabet := .ofList ['a', 'b', 'c']

theorem trim_exact_detached :
    detached.WellFormed ∧ detached.trim = .ok attached ∧ (∃ f, detached.ReachablePart attached f) ∧
      attached.language = detached.language ∧ attached.trim = .ok attached := by
  have ha : detached.WellFormed :=
    ⟨by decide, by decide, by decide, by simp [detached, Regex.eps, Regex.zero, epsilon]⟩
  have htrim : detached.trim = .ok attached := by cbv
  obtain ⟨b, f, hb, hpart, hl, -, -, hagain⟩ := trim_exact ha
  cases hb.symm.trans htrim
  exact ⟨ha, htrim, ⟨f, hpart⟩, hl, hagain⟩

end Automaton

end RegularLang
