/-
  RegularLang.Proofs.Automaton.Routes — what an automaton accepts, said by its routes:
  a word is accepted exactly when it splits into words of the labels along a route
  from the start to a final state (`accepts_iff_exists_route`).

  A route is a list of transitions and knows nothing of words. Any graph is allowed:
  loops, ε-cycles, parallel transitions, states that nothing reaches, none at all.

  An automaton without some of its states reads just the words that the whole one reads
  without visiting them (`Restricts.mem_language_iff`), so that removing a state takes the
  induced subgraph (`removeState_exact`).
-/

import RegularLang.Proofs.Automaton.Restricted
import RegularLang.Proofs.Automaton.Simulated

namespace RegularLang.Automaton

section

/-- `Route a p ts q`: the transitions `ts` follow each other from `p` to `q`. -/
inductive Route (a : Automaton) : Nat → List Transition → Nat → Prop
  | nil (p : Nat) : Route a p [] p
  | cons {p q : Nat} {t : Transition} {ts : List Transition} : t ∈ (a.stateAt p).transitions →
      Route a t.target ts q → Route a p (t :: ts) q

/-- `w` consists of words of the labels, one after the other. -/
def Splits (ts : List Transition) (w : List Char) : Prop :=
  ∃ ws, List.Forall₂ (fun t v => v ∈ t.label.language) ts ws ∧ ws.flatten = w

variable {a : Automaton} {p q : Nat} {w : List Char}

theorem splits_nil_iff : Splits [] w ↔ w = [] := by
  constructor
  · rintro ⟨ws, h, rfl⟩
    cases h
    rfl
  · rintro rfl
    exact ⟨[], .nil, rfl⟩

theorem splits_cons_iff {t : Transition} {ts : List Transition} :
    Splits (t :: ts) w ↔ ∃ v u, v ∈ t.label.language ∧ Splits ts u ∧ v ++ u = w := by
  constructor
  · rintro ⟨ws, h, rfl⟩
    cases h with
    | cons hv h => exact ⟨_, _, hv, ⟨_, h, rfl⟩, rfl⟩
  · rintro ⟨v, u, hv, ⟨ws, h, rfl⟩, rfl⟩
    exact ⟨v :: ws, .cons hv h, rfl⟩

theorem path_iff_exists_route : a.Path p w q ↔ ∃ ts, a.Route p ts q ∧ Splits ts w := by
  constructor
  · intro h
    induction h with
    | nil p => exact ⟨[], .nil p, splits_nil_iff.mpr rfl⟩
    | cons ht hv _ ih =>
      obtain ⟨ts, hr, hs⟩ := ih
      exact ⟨_, .cons ht hr, splits_cons_iff.mpr ⟨_, _, hv, hs, rfl⟩⟩
  · rintro ⟨ts, hr, hs⟩
    induction hr generalizing w with
    | nil p =>
      rw [splits_nil_iff.mp hs]
      exact .nil p
    | cons ht _ ih =>
      obtain ⟨v, u, hv, hu, rfl⟩ := splits_cons_iff.mp hs
      exact .cons ht hv (ih hu)

/-- A word is accepted exactly when it splits along a route from the start to a final
    state. -/
theorem accepts_iff_exists_route (ha : a.WellFormed) (w : List Char) :
    a.accepts w ↔ ∃ q ts, a.Route a.start ts q ∧ a.isFinalAt q ∧ Splits ts w := by
  rw [accepts_iff_mem ha]
  apply exists_congr
  intro q
  rw [path_iff_exists_route, ← exists_and_left]
  exact exists_congr fun ts => and_left_comm

/-- Starts at 1. The states 1 and 2 form an ε-cycle with a composite label beside it, and
    nothing reaches the state 3. -/
def tangled : Automaton where
  states := [⟨true, []⟩,
    ⟨false, [⟨2, .star (.char 'a')⟩, ⟨2, .eps⟩, ⟨1, .char 'b'⟩]⟩,
    ⟨false, [⟨1, .eps⟩, ⟨0, .concat [.char 'b', .sum [.char 'a', .concat []]]⟩]⟩,
    ⟨true, [⟨3, .eps⟩, ⟨0, .char 'a'⟩]⟩]
  start := 1
  alphabet := .ofList ['a', 'b']

theorem accepts_iff_exists_route_tangled :
    tangled.WellFormed ∧ tangled.accepts ['b', 'a', 'a', 'b'] ∧
      ∃ q ts, tangled.Route tangled.start ts q ∧ tangled.isFinalAt q ∧
        Splits ts ['b', 'a', 'a', 'b'] := by
  have ha : tangled.WellFormed :=
    ⟨by decide, by decide, by decide, by simp [tangled, Regex.eps, epsilon]⟩
  have h : tangled.accepts ['b', 'a', 'a', 'b'] := by decide +kernel
  exact ⟨ha, h, (accepts_iff_exists_route ha _).mp h⟩

end

/-! ## Without some of the states

A route among the states that are left is one of the whole automaton, renumbered, and every
route that keeps to them is such a one. -/

section

variable {a b : Automaton} {gone : List Nat} {f : Nat → Nat} {p q s : Nat} {ts : List Transition}
  {w : List Char}

/-- Where a transition leads does not matter to the words along it. -/
theorem splits_map_mapTarget (f : Nat → Nat) :
    Splits (ts.map (.mapTarget f)) w ↔ Splits ts w := by
  induction ts generalizing w with
  | nil => rfl
  | cons t ts ih =>
    rw [List.map_cons, splits_cons_iff, splits_cons_iff]
    simp only [ih]
    rfl

namespace Restricts

variable (h : a.Restricts b gone f)

include h

theorem route (hr : b.Route p ts q) : a.Route (f p) (ts.map (.mapTarget f)) (f q) := by
  induction hr with
  | nil p => exact .nil (f p)
  | cons ht _ ih => exact .cons (h.mem_transitions_iff.mp ht) ih

/-- A route that does not visit the states that are gone is left. -/
theorem exists_route {r : Nat} (hr : a.Route (f p) ts r) (hgone : ∀ t ∈ ts, t.target ∉ gone) :
    ∃ us q, b.Route p us q ∧ us.map (.mapTarget f) = ts ∧ f q = r := by
  induction ts generalizing p with
  | nil =>
    cases hr
    exact ⟨[], p, .nil p, rfl, rfl⟩
  | cons t ts ih =>
    obtain ⟨htarget, hgone⟩ := List.forall_mem_cons.mp hgone
    obtain ⟨p', hp'⟩ := h.not_mem_gone_iff.mp htarget
    cases hr with
    | cons ht hr =>
      obtain ⟨us, q, hus, rfl, hq⟩ := ih (hp' ▸ hr) hgone
      have ht' : Transition.mapTarget f ⟨p', t.label⟩ = t := by rw [Transition.mapTarget, hp']
      exact ⟨⟨p', t.label⟩ :: us, q, .cons (h.mem_transitions_iff.mpr (ht' ▸ ht)) hus,
        by rw [List.map_cons, ht'], hq⟩

/-- The words of the routes that keep to the states that are left. -/
theorem mem_language_iff : w ∈ b.language ↔
    ∃ q ts, a.Route a.start ts q ∧ a.isFinalAt q ∧ (∀ p ∈ a.start :: ts.map (·.target), p ∉ gone) ∧
      Splits ts w := by
  have hstart : a.start ∉ gone := h.start_eq ▸ h.not_mem_gone b.start
  constructor
  · rintro ⟨q, hq, hpath⟩
    obtain ⟨ts, hr, hs⟩ := path_iff_exists_route.mp hpath
    refine ⟨f q, ts.map (.mapTarget f), h.start_eq ▸ h.route hr, h.isFinalAt_eq q ▸ hq, ?_,
      (splits_map_mapTarget f).mpr hs⟩
    rw [List.map_map, List.forall_mem_cons, List.forall_mem_map]
    exact ⟨hstart, fun t _ => h.not_mem_gone t.target⟩
  · rintro ⟨r, ts, hr, hfinal, hgone, hs⟩
    rw [List.forall_mem_cons, List.forall_mem_map] at hgone
    obtain ⟨us, q, hus, rfl, rfl⟩ := h.exists_route (h.start_eq.symm ▸ hr) hgone.2
    exact ⟨q, (h.isFinalAt_eq q).trans hfinal,
      path_iff_exists_route.mpr ⟨us, hus, (splits_map_mapTarget f).mp hs⟩⟩

end Restricts

/-- Removing a state other than the start gives what the automaton induces on the others: they
    keep their order, are renumbered throughout, and have all their transitions but those to
    the state that is gone. So just the words are left that can be read without visiting it. -/
theorem removeState_exact (ha : a.WellFormed) (hs : s < a.size) (hstart : s ≠ a.start) :
    ∃ b, a.removeState s = .ok b ∧ b.WellFormed ∧ b.size + 1 = a.size ∧
      a.Restricts b [s] (raise s) ∧ ∀ w, w ∈ b.language ↔
        ∃ q ts, a.Route a.start ts q ∧ a.isFinalAt q ∧ s ∉ a.start :: ts.map (·.target) ∧
          Splits ts w := by
  have h := restricts_without hs hstart
  refine ⟨a.without s, removeState_eq_ok hs hstart, h.wellFormed ha, size_without hs, h, fun w => ?_⟩
  have hvisits (ts : List Transition) : (∀ p ∈ a.start :: ts.map (·.target), p ∉ [s]) ↔
      s ∉ a.start :: ts.map (·.target) := by
    simp only [List.mem_singleton]
    exact List.forall_mem_ne'
  simp only [h.mem_language_iff, hvisits]

/-- Starts at 2. State 1 has a loop, is final and lies on one of two ways to state 3. -/
def crossing : Automaton where
  states := [⟨false, [⟨3, .char 'b'⟩, ⟨1, .char 'a'⟩, ⟨3, .char 'a'⟩]⟩,
    ⟨true, [⟨1, .char 'b'⟩, ⟨3, .eps⟩]⟩,
    ⟨false, [⟨1, .star (.char 'a')⟩, ⟨0, .eps⟩, ⟨2, .char 'c'⟩]⟩,
    ⟨true, [⟨0, .char 'c'⟩, ⟨1, .char 'c'⟩]⟩]
  start := 2
  alphabet := .ofList ['a', 'b', 'c', 'd']

/-- The states 0, 2 and 3 of `crossing`. -/
def bypassed : Automaton where
  states := [⟨false, [⟨2, .char 'b'⟩, ⟨2, .char 'a'⟩]⟩,
    ⟨false, [⟨0, .eps⟩, ⟨1, .char 'c'⟩]⟩,
    ⟨true, [⟨0, .char 'c'⟩]⟩]
  start := 1
  alphabet := .ofList ['a', 'b', 'c', 'd']

theorem removeState_exact_crossing :
    crossing.WellFormed ∧ crossing.removeState 1 = .ok bypassed ∧
      crossing.Restricts bypassed [1] (raise 1) ∧ ∀ w, w ∈ bypassed.language ↔
        ∃ q ts, crossing.Route 2 ts q ∧ crossing.isFinalAt q ∧ 1 ∉ 2 :: ts.map (·.target) ∧
          Splits ts w := by
  have ha : crossing.WellFormed :=
    ⟨by decide, by decide, by decide, by simp [crossing, Regex.eps, epsilon]⟩
  have hremoved : crossing.removeState 1 = .ok bypassed := by decide
  obtain ⟨b, hb, -, -, hinduced, hwords⟩ := removeState_exact (s := 1) ha (by decide) (by decide)
  cases hb.symm.trans hremoved
  exact ⟨ha, hremoved, hinduced, hwords⟩

end

end RegularLang.Automaton
