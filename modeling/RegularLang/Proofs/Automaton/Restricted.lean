/-
  RegularLang.Proofs.Automaton.Restricted — an automaton without some of its states.

  `Restricts a b gone f`: state `p` of `b` is state `f p` of `a`, the states `gone` and
  the transitions into them are left out, and nothing else is changed. Removing
  states one after the other gives such an automaton (`removeStates_eq_ok`). Its words
  are words of `a`, and all of them if the states that are left can do without the
  others (`Restricts.le_languageFrom`).
-/

import Mathlib.Order.Monotone.Basic
import RegularLang.Proofs.Automaton.LanguageFrom
import RegularLang.Proofs.Automaton.States

namespace RegularLang

/-- The same transition with its target renumbered. -/
def Transition.mapTarget (f : Nat → Nat) (t : Transition) : Transition :=
  { t with target := f t.target }

namespace Automaton

variable {a b c : Automaton} {gone : List Nat} {f : Nat → Nat}

structure Restricts (a b : Automaton) (gone : List Nat) (f : Nat → Nat) : Prop where
  strictMono : StrictMono f
  not_mem_gone_iff : ∀ {p}, p ∉ gone ↔ ∃ q, f q = p
  lt_size_iff : ∀ {p}, p < b.size ↔ f p < a.size
  start_eq : f b.start = a.start
  alphabet_eq : b.alphabet = a.alphabet
  isFinalAt_eq : ∀ p, b.isFinalAt p = a.isFinalAt (f p)
  transitions_eq : ∀ p, (b.stateAt p).transitions.map (.mapTarget f) =
    (a.stateAt (f p)).transitions.filter (·.target ∉ gone)

namespace Restricts

theorem refl (a : Automaton) : a.Restricts a [] id where
  strictMono := strictMono_id
  not_mem_gone_iff := by simp
  lt_size_iff := Iff.rfl
  start_eq := rfl
  alphabet_eq := rfl
  isFinalAt_eq := fun _ => rfl
  transitions_eq := fun p => by
    rw [show (Transition.mapTarget id : Transition → Transition) = id from rfl]
    simp

theorem trans {gone' : List Nat} {g : Nat → Nat} (h : a.Restricts b gone f)
    (h' : b.Restricts c gone' g) : a.Restricts c (gone ++ gone'.map f) (f ∘ g) where
  strictMono := h.strictMono.comp h'.strictMono
  not_mem_gone_iff := by
    intro p
    rw [List.mem_append, not_or, h.not_mem_gone_iff, List.mem_map]
    constructor
    · intro hx
      obtain ⟨⟨q, rfl⟩, hq⟩ := hx
      obtain ⟨r, rfl⟩ := h'.not_mem_gone_iff.mp fun hm => hq ⟨q, hm, rfl⟩
      exact ⟨r, rfl⟩
    · intro hx
      obtain ⟨r, rfl⟩ := hx
      refine ⟨⟨g r, rfl⟩, ?_⟩
      intro hx
      obtain ⟨s, hs, e⟩ := hx
      rw [h.strictMono.injective e] at hs
      exact h'.not_mem_gone_iff.mpr ⟨r, rfl⟩ hs
  lt_size_iff := h'.lt_size_iff.trans h.lt_size_iff
  start_eq := by rw [Function.comp_apply, h'.start_eq, h.start_eq]
  alphabet_eq := h'.alphabet_eq.trans h.alphabet_eq
  isFinalAt_eq := fun p => (h'.isFinalAt_eq p).trans (h.isFinalAt_eq (g p))
  transitions_eq := by
    intro p
    have hne (t : Transition) : f t.target ∈ gone'.map f ↔ t.target ∈ gone' :=
      List.mem_map_of_injective h.strictMono.injective
    calc (c.stateAt p).transitions.map (.mapTarget (f ∘ g))
        = ((c.stateAt p).transitions.map (.mapTarget g)).map (.mapTarget f) := by
          rw [List.map_map]
          rfl
      _ = ((b.stateAt (g p)).transitions.map (.mapTarget f)).filter (·.target ∉ gone'.map f) := by
          rw [h'.transitions_eq, List.filter_map]
          congr 2
          funext t
          simp only [Function.comp_apply, Transition.mapTarget, hne]
      _ = (a.stateAt (f (g p))).transitions.filter (·.target ∉ gone ++ gone'.map f) := by
          rw [h.transitions_eq, List.filter_filter]
          congr 1
          funext t
          simp [Bool.and_comm]

theorem not_mem_gone (h : a.Restricts b gone f) (p : Nat) : f p ∉ gone :=
  h.not_mem_gone_iff.mpr ⟨p, rfl⟩

theorem mem_transitions_iff (h : a.Restricts b gone f) {p : Nat} {t : Transition} :
    t ∈ (b.stateAt p).transitions ↔ t.mapTarget f ∈ (a.stateAt (f p)).transitions := by
  have e : t.mapTarget f ∈ (b.stateAt p).transitions.map (.mapTarget f) ↔
      t.mapTarget f ∈ (a.stateAt (f p)).transitions := by
    rw [h.transitions_eq, List.mem_filter]
    simp [Transition.mapTarget, h.not_mem_gone]
  rw [← e, List.mem_map]
  constructor
  · exact fun ht => ⟨t, ht, rfl⟩
  · intro hx
    obtain ⟨t', ht, e⟩ := hx
    obtain ⟨htarget, hlabel⟩ := Transition.mk.inj e
    rwa [show t = t' from congrArg₂ Transition.mk (h.strictMono.injective htarget).symm hlabel.symm]

/-! ## Words -/

theorem languageFrom_le (h : a.Restricts b gone f) (p : Nat) :
    b.languageFrom p ≤ a.languageFrom (f p) := by
  refine Automaton.languageFrom_le (X := fun p => a.languageFrom (f p)) ?_ p
  intro q
  refine State.reads_le_iff.mpr ⟨?_, ?_⟩
  · intro hf
    exact one_le_languageFrom (h.isFinalAt_eq q ▸ hf)
  · intro t ht
    exact mul_le_languageFrom (h.mem_transitions_iff.mp ht)

/-- The states that are left lose no words if some languages `Y` for all states of `a`
    agree with theirs and are kept by every transition from or to a state that is
    gone. -/
theorem le_languageFrom (h : a.Restricts b gone f) {Y : Nat → Language Char}
    (hY : ∀ p, Y (f p) = b.languageFrom p) (hfrom : ∀ s ∈ gone, (a.stateAt s).reads Y ≤ Y s)
    (hto : ∀ p, ∀ t ∈ (a.stateAt (f p)).transitions, t.target ∈ gone →
      t.label.language * Y t.target ≤ Y (f p)) (p : Nat) :
    a.languageFrom (f p) ≤ b.languageFrom p := by
  rw [← hY]
  refine Automaton.languageFrom_le ?_ (f p)
  intro s
  by_cases hs : s ∈ gone
  · exact hfrom s hs
  · obtain ⟨q, rfl⟩ := h.not_mem_gone_iff.mp hs
    refine State.reads_le_iff.mpr ⟨?_, ?_⟩
    · intro hf
      rw [hY]
      apply one_le_languageFrom
      rwa [h.isFinalAt_eq]
    · intro t ht
      by_cases htarget : t.target ∈ gone
      · exact hto q t ht htarget
      · obtain ⟨r, hr⟩ := h.not_mem_gone_iff.mp htarget
        rw [← hr, hY, hY]
        refine mul_le_languageFrom (t := ⟨r, t.label⟩) (h.mem_transitions_iff.mpr ?_)
        rwa [Transition.mapTarget, hr]

/-! ## What is kept -/

theorem wellFormed (h : a.Restricts b gone f) (ha : a.WellFormed) : b.WellFormed := by
  refine .of_stateAt ?_ (h.alphabet_eq ▸ ha.epsilon_not_mem) ?_
  · rcases ha.start_lt with hs | ⟨hs, hstart⟩
    · exact .inl (h.lt_size_iff.mpr (h.start_eq ▸ hs))
    · refine .inr ⟨?_, ?_⟩
      · refine List.length_eq_zero_iff.mp (Nat.eq_zero_of_not_pos ?_)
        intro hp
        have := h.lt_size_iff.mp hp
        simp [size, hs] at this
      · have := h.strictMono.id_le b.start
        simp only [id_eq, h.start_eq, hstart] at this
        omega
  · intro p hp t ht
    have ht := h.mem_transitions_iff.mp ht
    rw [h.alphabet_eq]
    exact ⟨h.lt_size_iff.mpr (ha.target_lt_of_mem ht), fun c hc => ha.letters_mem_of_mem ht hc⟩

theorem isSimple (h : a.Restricts b gone f) (hs : a.isSimple) : b.isSimple :=
  isSimple_iff.mpr fun p t ht =>
    isSimple_iff.mp hs (f p) (t.mapTarget f) (h.mem_transitions_iff.mp ht)

theorem hasEpsilon (h : a.Restricts b gone f) (he : a.hasEpsilon = false) : b.hasEpsilon = false :=
  hasEpsilon_eq_false_iff.mpr fun p t ht =>
    hasEpsilon_eq_false_iff.mp he (f p) (t.mapTarget f) (h.mem_transitions_iff.mp ht)

end Restricts

/-! ## Removing one state -/

/-- The number that state `p` had while state `s` was there. -/
def raise (s p : Nat) : Nat := if p < s then p else p + 1

theorem raise_lower {s t : Nat} (h : t ≠ s) : raise s (lower s t) = t := by
  unfold raise lower
  split_ifs <;> omega

theorem size_without {s : Nat} (hs : s < a.size) : (a.without s).size + 1 = a.size := by
  simp only [without, size, List.length_eraseIdx, List.length_map] at hs ⊢
  rw [if_pos hs]
  omega

theorem stateAt_without (a : Automaton) (s p : Nat) :
    (a.without s).stateAt p = (a.stateAt (raise s p)).without s := by
  have hdead : (State.dead).without s = .dead := rfl
  simp only [stateAt, without, raise, List.getD_eq_getElem?_getD, List.getElem?_eraseIdx,
    List.getElem?_map]
  split_ifs with h
  · cases a.states[p]? <;> simp [hdead]
  · cases a.states[p + 1]? <;> simp [hdead]

theorem restricts_without {s : Nat} (hs : s < a.size) (hstart : s ≠ a.start) :
    a.Restricts (a.without s) [s] (raise s) where
  strictMono := by
    intro p q hpq
    unfold raise
    split_ifs <;> omega
  not_mem_gone_iff := by
    intro p
    rw [List.mem_singleton]
    constructor
    · exact fun h => ⟨_, raise_lower h⟩
    · intro hx
      obtain ⟨q, rfl⟩ := hx
      unfold raise
      split_ifs <;> omega
  lt_size_iff := by
    intro p
    have := size_without hs
    unfold raise
    split_ifs <;> omega
  start_eq := raise_lower hstart.symm
  alphabet_eq := rfl
  isFinalAt_eq := by
    intro p
    rw [isFinalAt, stateAt_without]
    rfl
  transitions_eq := by
    intro p
    rw [stateAt_without, State.without, List.map_map]
    simp only [List.mem_singleton]
    refine (List.map_congr_left ?_).trans (List.map_id _)
    intro t ht
    have hne : t.target ≠ s := by simpa using (List.mem_filter.mp ht).2
    simp only [Function.comp_apply, Transition.mapTarget, raise_lower hne, id_eq]

/-! ## Removing several -/

theorem removeState_eq_ok {s : Nat} (hs : s < a.size) (hstart : s ≠ a.start) :
    a.removeState s = .ok (a.without s) := by
  rw [removeState, if_neg hstart, if_pos hs]

/-- Removing states does not look at what they can do. -/
theorem removeStates_congr {group : List Nat} (hdesc : group.Pairwise (· > ·))
    (hsize : a.size = b.size) (hstart : a.start = b.start) (hal : a.alphabet = b.alphabet)
    (h : ∀ p, p ∉ group → a.stateAt p = b.stateAt p) :
    a.removeStates group = b.removeStates group := by
  induction group generalizing a b with
  | nil => rw [eq_of_stateAt hsize hstart hal fun p _ => h p List.not_mem_nil]
  | cons s group ih =>
    obtain ⟨hgt, hdesc⟩ := List.pairwise_cons.mp hdesc
    have hrest (hs : s < b.size) :
        (a.without s).removeStates group = (b.without s).removeStates group := by
      refine ih hdesc ?_ (congrArg (lower s) hstart) hal ?_
      · have := size_without hs
        have := size_without (a := a) (hsize ▸ hs)
        omega
      · intro p hp
        rw [stateAt_without, stateAt_without, h]
        rw [List.mem_cons, not_or]
        unfold raise
        split_ifs with hps
        · exact ⟨by omega, hp⟩
        · exact ⟨by omega, fun hm => by have := hgt _ hm; omega⟩
    rw [removeStates, removeStates, List.foldlM_cons, List.foldlM_cons, removeState, removeState,
      hstart, hsize]
    split_ifs with he hs
    · rfl
    · exact hrest hs
    · rfl

theorem removeStates_eq_ok {group : List Nat} (hdesc : group.Pairwise (· > ·))
    (hlt : ∀ s ∈ group, s < a.size) (hstart : a.start ∉ group) :
    ∃ b f, a.removeStates group = .ok b ∧ a.Restricts b group f ∧ b.size + group.length = a.size := by
  induction group generalizing a with
  | nil => exact ⟨a, id, rfl, .refl a, rfl⟩
  | cons s group ih =>
    obtain ⟨hgt, hdesc⟩ := List.pairwise_cons.mp hdesc
    obtain ⟨hs, hlt⟩ := List.forall_mem_cons.mp hlt
    obtain ⟨hne, hmem⟩ := not_or.mp (List.mem_cons.not.mp hstart)
    have hsize := size_without hs
    have hlower : (a.without s).start ∉ group := by
      intro h
      have := hgt _ h
      simp only [without, lower] at h this
      split_ifs at h this
      · omega
      · exact hmem h
    obtain ⟨b, f, hb, hf, hlen⟩ := ih hdesc
      (fun t ht => by have := hgt t ht; omega) hlower
    have hraise : group.map (raise s) = group := by
      refine (List.map_congr_left ?_).trans (List.map_id _)
      intro t ht
      exact if_pos (hgt t ht)
    have h := (restricts_without hs (Ne.symm hne)).trans hf
    rw [hraise, List.singleton_append] at h
    refine ⟨b, _, ?_, h, by rw [List.length_cons]; omega⟩
    rw [removeStates, List.foldlM_cons, removeState_eq_ok hs (Ne.symm hne)]
    exact hb

end Automaton

end RegularLang
