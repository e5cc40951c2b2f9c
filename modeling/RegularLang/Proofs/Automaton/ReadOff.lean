/-
  RegularLang.Proofs.Automaton.ReadOff — the regex of a deterministic automaton matches
  its language, and there always is one (`toRegex_eq_ok`).

  The words between two states of an automaton of any size, along the routes that visit no
  third state, are those of the regex that `regexBetween` puts together
  (`regexBetween_exact`).
-/

import RegularLang.Automaton.Eliminated
import RegularLang.Proofs.Automaton.Eliminated
import RegularLang.Proofs.Automaton.Routes

namespace RegularLang.Automaton

open Computability

variable {a : Automaton} {p q r s : Nat}

/-! ## Between two states

For a fixed end `q` these words are the least languages of `p` and of `q` that hold the empty
word at `q` and that the labels among the two states keep (`wordsBetween_le`). A state without
transitions to the other has the label ∅ there, and what is multiplied by it is ∅ as well. -/

theorem language_label_mul_le_iff {m l : Language Char} : (a.label p q).language * m ≤ l ↔
    ∀ t ∈ (a.stateAt p).transitions, t.target = q → t.label.language * m ≤ l :=
  State.labelTo_mul_le_iff

/-- The words of the routes from `r` to `q` whose transitions lead to `p` and `q` only. -/
def wordsBetween (a : Automaton) (p q r : Nat) : Language Char :=
  {w | ∃ ts, a.Route r ts q ∧ (∀ t ∈ ts, t.target = p ∨ t.target = q) ∧ Splits ts w}

theorem one_le_wordsBetween (a : Automaton) (p q : Nat) : 1 ≤ a.wordsBetween p q q := by
  intro w hw
  rw [(Language.mem_one w).mp hw]
  exact ⟨[], .nil q, List.forall_mem_nil _, splits_nil_iff.mpr rfl⟩

theorem label_mul_wordsBetween_le (hs : s = p ∨ s = q) :
    (a.label r s).language * a.wordsBetween p q s ≤ a.wordsBetween p q r := by
  refine language_label_mul_le_iff.mpr ?_
  intro t ht htarget w hw
  subst htarget
  obtain ⟨v, hv, u, ⟨ts, hroute, hstay, hsplits⟩, rfl⟩ := hw
  exact ⟨t :: ts, .cons ht hroute, List.forall_mem_cons.mpr ⟨hs, hstay⟩,
    splits_cons_iff.mpr ⟨v, u, hv, hsplits, rfl⟩⟩

/-- Languages that the labels among `p` and `q` keep contain the words of the routes. -/
theorem wordsBetween_le {X : Nat → Language Char} (hend : 1 ≤ X q)
    (hstep : ∀ r s, (r = p ∨ r = q) → (s = p ∨ s = q) → (a.label r s).language * X s ≤ X r)
    (hr : r = p ∨ r = q) : a.wordsBetween p q r ≤ X r := by
  intro w hw
  obtain ⟨ts, hroute, hstay, hsplits⟩ := hw
  induction hroute generalizing w with
  | nil q =>
    rw [splits_nil_iff.mp hsplits]
    exact hend Language.nil_mem_one
  | @cons r q t ts ht _ ih =>
    obtain ⟨v, u, hv, hu, rfl⟩ := splits_cons_iff.mp hsplits
    obtain ⟨htarget, hstay⟩ := List.forall_mem_cons.mp hstay
    exact language_label_mul_le_iff.mp (hstep r t.target hr htarget) t ht rfl
      (Language.append_mem_mul hv (ih hend hstep htarget hstay hu))

theorem language_betweenTwo (a : Automaton) (p q : Nat) :
    (a.betweenTwo p q).language =
      (a.label p p).language∗ * (a.label p q).language *
        ((a.label q q).language +
          (a.label q p).language * (a.label p p).language∗ * (a.label p q).language)∗ := by
  simp only [betweenTwo, Regex.language_mul, Regex.language_closure, Regex.language_add]

theorem wordsBetween_le_betweenTwo (hne : p ≠ q) :
    a.wordsBetween p q p ≤ (a.betweenTwo p q).language := by
  rw [language_betweenTwo]
  set loop := (a.label p p).language with hloop
  set forward := (a.label p q).language with hforward
  set stay := (a.label q q).language with hstay
  set back := (a.label q p).language with hback
  set around := (stay + back * loop∗ * forward)∗
  have haround : (stay + back * loop∗ * forward) * around ≤ around := mul_kstar_le_kstar
  rw [add_mul, add_le_iff] at haround
  let X r := if r = p then loop∗ * forward * around else around
  have hXp : X p = loop∗ * forward * around := if_pos rfl
  have hXq : X q = around := if_neg hne.symm
  refine (wordsBetween_le (X := X) (hXq ▸ one_le_kstar) ?_ (.inl rfl)).trans_eq hXp
  intro r s hr hs
  rcases hr with rfl | rfl
  · rcases hs with rfl | rfl
    · rw [hXp, ← hloop, ← mul_assoc, ← mul_assoc]
      exact mul_le_mul_left (mul_le_mul_left mul_kstar_le_kstar _) _
    · rw [hXp, hXq, ← hforward]
      refine mul_le_mul_left ?_ _
      simpa using mul_le_mul_left (one_le_kstar (a := loop)) forward
  · rcases hs with rfl | rfl
    · rw [hXp, hXq, ← hback, ← mul_assoc, ← mul_assoc]
      exact haround.2
    · rw [hXq, ← hstay]
      exact haround.1

theorem betweenTwo_le_wordsBetween (a : Automaton) (p q : Nat) :
    (a.betweenTwo p q).language ≤ a.wordsBetween p q p := by
  rw [language_betweenTwo]
  set loop := (a.label p p).language
  set forward := (a.label p q).language
  set stay := (a.label q q).language
  set back := (a.label q p).language
  let W := a.wordsBetween p q
  have hloop : loop∗ * W p ≤ W p := kstar_mul_le_self (label_mul_wordsBetween_le (.inl rfl))
  have hforward : loop∗ * forward * W q ≤ W p := by
    rw [mul_assoc]
    exact (mul_le_mul_right (label_mul_wordsBetween_le (.inr rfl)) _).trans hloop
  have hback : (stay + back * loop∗ * forward) * W q ≤ W q := by
    rw [add_mul, add_le_iff]
    refine ⟨label_mul_wordsBetween_le (.inr rfl), ?_⟩
    calc back * loop∗ * forward * W q
        = back * (loop∗ * forward * W q) := by simp only [mul_assoc]
      _ ≤ back * W p := mul_le_mul_right hforward _
      _ ≤ W q := label_mul_wordsBetween_le (.inl rfl)
  have haround : (stay + back * loop∗ * forward)∗ ≤ W q := by
    calc (stay + back * loop∗ * forward)∗
        = (stay + back * loop∗ * forward)∗ * 1 := (mul_one _).symm
      _ ≤ (stay + back * loop∗ * forward)∗ * W q := mul_le_mul_right (one_le_wordsBetween a p q) _
      _ ≤ W q := kstar_mul_le_self hback
  exact (mul_le_mul_right haround _).trans hforward

/-- Loops on `p`, on to `q`, and from there around `q` or back through `p`. -/
theorem language_betweenTwo_eq (hne : p ≠ q) :
    (a.betweenTwo p q).language = a.wordsBetween p q p :=
  le_antisymm (betweenTwo_le_wordsBetween a p q) (wordsBetween_le_betweenTwo hne)

/-- The regex between two states reads just the words along the routes from the one to the
    other that visit only these two. -/
theorem regexBetween_exact (hp : p < a.size) (hq : q < a.size) (hne : p ≠ q) :
    ∃ r, a.regexBetween p q = .ok r ∧ ∀ w, w ∈ r.language ↔
      ∃ ts, a.Route p ts q ∧ (∀ t ∈ ts, t.target = p ∨ t.target = q) ∧ Splits ts w := by
  refine ⟨a.betweenTwo p q, ?_, ?_⟩
  · rw [regexBetween, state_eq_ok hp, state_eq_ok hq]
    rfl
  · intro w
    rw [language_betweenTwo_eq hne]
    rfl

/-- From state 2 to state 0 there are two transitions, and one more route by way of state 1. -/
def triangle : Automaton where
  states := [⟨false, [⟨0, .char 'b'⟩, ⟨1, .char 'a'⟩, ⟨2, .char 'd'⟩]⟩,
    ⟨true, [⟨0, .char 'a'⟩]⟩,
    ⟨false, [⟨0, .char 'a'⟩, ⟨1, .char 'e'⟩, ⟨0, .concat []⟩, ⟨2, .char 'f'⟩]⟩]
  start := 1
  alphabet := .ofList ['a', 'b', 'd', 'e', 'f']

/-- There and back again and there, but not by way of the third state. -/
theorem regexBetween_exact_triangle :
    triangle.regexBetween 2 0 = .ok (triangle.betweenTwo 2 0) ∧
      (∃ ts, triangle.Route 2 ts 0 ∧ (∀ t ∈ ts, t.target = 2 ∨ t.target = 0) ∧
        Splits ts ['f', 'a', 'b', 'd', 'f', 'b']) ∧
      ¬∃ ts, triangle.Route 2 ts 0 ∧ (∀ t ∈ ts, t.target = 2 ∨ t.target = 0) ∧
        Splits ts ['e', 'a'] := by
  have hval : triangle.regexBetween 2 0 = .ok (triangle.betweenTwo 2 0) := rfl
  have htwice : (triangle.betweenTwo 2 0).accepts ['f', 'a', 'b', 'd', 'f', 'b'] := by decide
  have hround : ¬(triangle.betweenTwo 2 0).accepts ['e', 'a'] := by decide
  obtain ⟨r, hr, hw⟩ := regexBetween_exact (a := triangle) (p := 2) (q := 0) (by decide) (by decide)
    (by decide)
  cases hr.symm.trans hval
  rw [Regex.accepts_iff_mem, hw] at htwice hround
  exact ⟨hval, htwice, hround⟩

/-! ## One state -/

theorem label_mul_le (a : Automaton) (p q : Nat) :
    (a.label p q).language * a.languageFrom q ≤ a.languageFrom p :=
  language_label_mul_le_iff.mpr fun _ ht htq => htq ▸ mul_le_languageFrom ht

/-- A final state that is alone reads its loops. -/
theorem languageFrom_eq_of_alone (hf : a.isFinalAt p) (halone : ∀ q, q ≠ p → a.size ≤ q) :
    a.languageFrom p = (a.label p p).closure.language := by
  rw [Regex.language_closure]
  refine le_antisymm ?_ ?_
  · let X q := if q = p then (a.label p p).language∗ else 0
    have hXp : X p = (a.label p p).language∗ := if_pos rfl
    refine (languageFrom_le (X := X) ?_ p).trans_eq hXp
    intro q
    by_cases hq : q = p
    · subst hq
      refine State.reads_le_iff.mpr ⟨fun _ => hXp ▸ one_le_kstar, ?_⟩
      intro t ht
      by_cases htarget : t.target = q
      · have hloop : (a.label q q).language * X q ≤ X q := hXp ▸ mul_kstar_le_kstar
        rw [htarget]
        exact language_label_mul_le_iff.mp hloop t ht htarget
      · rw [show X t.target = 0 from if_neg htarget, mul_zero]
        exact zero_le
    · rw [stateAt_of_size_le (halone q hq), State.reads_dead]
      exact zero_le
  · calc (a.label p p).language∗ = (a.label p p).language∗ * 1 := (mul_one _).symm
      _ ≤ (a.label p p).language∗ * a.languageFrom p := mul_le_mul_right (one_le_languageFrom hf) _
      _ ≤ a.languageFrom p := kstar_mul_le_self (label_mul_le a p p)

/-! ## Two states -/

/-- A route that ends in a state that exists visits no other. -/
theorem Route.target_lt {ts : List Transition} (h : a.Route p ts q) (hq : q < a.size) :
    ∀ t ∈ ts, t.target < a.size := by
  induction h with
  | nil => exact List.forall_mem_nil _
  | @cons p q t ts ht hrest ih =>
    refine List.forall_mem_cons.mpr ⟨?_, ih hq⟩
    cases hrest with
    | nil => exact hq
    | cons ht' _ => exact lt_size_of_mem ht'

/-- Where `p` and `q` are all states and `q` alone is final, the words of `p` are those between
    the two. -/
theorem languageFrom_eq_betweenTwo (hp : a.isFinalAt p = false) (hq : a.isFinalAt q)
    (hothers : ∀ r, r ≠ p → r ≠ q → a.size ≤ r) :
    a.languageFrom p = (a.betweenTwo p q).language := by
  have hne : p ≠ q := by
    intro e
    subst e
    rw [hp] at hq
    cases hq
  have hboth {r : Nat} (hr : r < a.size) : r = p ∨ r = q := by
    by_contra hr'
    obtain ⟨hrp, hrq⟩ := not_or.mp hr'
    exact absurd hr (Nat.not_lt.mpr (hothers r hrp hrq))
  rw [language_betweenTwo_eq hne]
  ext w
  constructor
  · intro hw
    obtain ⟨r, hr, hpath⟩ := hw
    obtain ⟨ts, hroute, hsplits⟩ := path_iff_exists_route.mp hpath
    obtain rfl | rfl := hboth (lt_size_of_isFinalAt hr)
    · exact absurd (hp.symm.trans hr) nofun
    · exact ⟨ts, hroute, fun t ht => hboth (hroute.target_lt (lt_size_of_isFinalAt hq) t ht), hsplits⟩
  · intro hw
    obtain ⟨ts, hroute, -, hsplits⟩ := hw
    exact ⟨q, hq, path_iff_exists_route.mpr ⟨ts, hroute, hsplits⟩⟩

/-! ## The regex -/

theorem languageFrom_eq_zero (h : ∀ q, a.isFinalAt q = false) : a.languageFrom p = 0 := by
  refine le_antisymm (languageFrom_le (X := 0) ?_ p) zero_le
  intro q
  refine State.reads_le_iff.mpr ⟨fun hf => absurd ((h q).symm.trans hf) nofun, ?_⟩
  intro t _
  simp

theorem isFinalAt_of_firstInner?_eq_none (h : a.firstInner? = none) {s : Nat} (hs : s < a.size)
    (hne : s ≠ a.start) : a.isFinalAt s := by
  have := List.find?_eq_none.mp h s (List.mem_range.mpr hs)
  simpa [hne] using this

/-- Two states that are not the start would both be final. -/
theorem size_le_two (hone : a.OneFinal) (hnone : a.firstInner? = none) : a.size ≤ 2 := by
  by_contra hlt
  obtain ⟨p, q, hp, hq, hne⟩ :
      ∃ p q, (p < a.size ∧ p ≠ a.start) ∧ (q < a.size ∧ q ≠ a.start) ∧ p ≠ q := by
    rcases Nat.lt_trichotomy a.start 1 with h | h | h
    · exact ⟨1, 2, by omega, by omega, by omega⟩
    · exact ⟨0, 2, by omega, by omega, by omega⟩
    · exact ⟨0, 1, by omega, by omega, by omega⟩
  exact hne (hone p q (isFinalAt_of_firstInner?_eq_none hnone hp.1 hp.2)
    (isFinalAt_of_firstInner?_eq_none hnone hq.1 hq.2))

/-- The start and at most one final state can be read off. -/
theorem readOff_eq_ok (ha : a.WellFormed) (hpos : 0 < a.size) (hone : a.OneFinal)
    (hnone : a.firstInner? = none) : ∃ r, a.readOff = .ok r ∧ r.language = a.language := by
  have hstart := ha.start_lt_of_pos hpos
  have htwo := size_le_two hone hnone
  rw [language_eq_languageFrom]
  rcases hst : a.states with _ | ⟨st, _ | ⟨st', _ | ⟨st'', sts⟩⟩⟩
  · rw [size, hst] at hpos
    cases hpos
  · have hsize : a.size = 1 := congrArg List.length hst
    have h0 : a.start = 0 := by omega
    have hat : a.stateAt 0 = st := by rw [stateAt, hst]; rfl
    rw [h0, readOff, hst]
    dsimp only
    split_ifs with hf
    · have hf0 : a.isFinalAt 0 := by rw [isFinalAt, hat, hf]
      refine ⟨_, rfl, ?_⟩
      rw [languageFrom_eq_of_alone hf0 fun q hq => by omega, label, hat]
    · refine ⟨_, rfl, (languageFrom_eq_zero ?_).symm⟩
      intro q
      by_cases hq : q = 0
      · rw [hq, isFinalAt, hat]
        exact Bool.not_eq_true _ ▸ hf
      · rw [isFinalAt, stateAt_of_size_le (by omega)]
        rfl
  · have hsize : a.size = 2 := congrArg List.length hst
    have hstop : a.isFinalAt (1 - a.start) :=
      isFinalAt_of_firstInner?_eq_none hnone (by omega) (by omega)
    have hnot : a.isFinalAt a.start = false := by
      rw [← Bool.not_eq_true]
      intro hf
      have := hone _ _ hf hstop
      omega
    rw [readOff, hst]
    dsimp only
    rw [hnot, hstop, Bool.not_false, Bool.and_self, if_pos rfl]
    exact ⟨_, rfl, (languageFrom_eq_betweenTwo hnot hstop fun r h h' => by omega).symm⟩
  · have := congrArg List.length hst
    simp only [List.length_cons] at this
    rw [size] at htwo
    omega

theorem toRegex_eq_ok (ha : a.WellFormed) (hpos : 0 < a.size) (hd : a.isDeterministic) :
    ∃ r, a.toRegex = .ok r ∧ r.language = a.language := by
  obtain ⟨b, hb, hc, hnone⟩ := eliminated_eq_ok ha hd
  obtain ⟨r, hr, hl⟩ := readOff_eq_ok hc.wellFormed (hc.size_pos hpos) hc.oneFinal hnone
  refine ⟨r, ?_, hl.trans hc.language_eq⟩
  rw [toRegex, hb]
  exact hr

/-! ## Other letters -/

theorem eliminateN_relettered {n : Nat} (a : Automaton) (letters : Alphabet) :
    eliminateN n { a with alphabet := letters } =
      (eliminateN n a).map ({ · with alphabet := letters }) := by
  induction n generalizing a with
  | zero => rfl
  | succ n ih =>
    have hsame : firstInner? { a with alphabet := letters } = a.firstInner? := rfl
    cases h : a.firstInner? with
    | none =>
      rw [eliminateN, eliminateN, hsame, h]
      rfl
    | some s =>
      rw [eliminateN_of_firstInner h, eliminateN_of_firstInner (hsame.trans h)]
      exact ih ((a.detour s).without s)

theorem singleFinal_relettered (a : Automaton) (letters : Alphabet) :
    singleFinal { a with alphabet := letters } = { a.singleFinal with alphabet := letters } := by
  have hcount : finalCount { a with alphabet := letters } = a.finalCount := rfl
  by_cases h : a.finalCount ≤ 1
  · rw [singleFinal, singleFinal, if_pos h, if_pos (hcount ▸ h)]
  · rw [singleFinal, singleFinal, if_neg h, if_neg (hcount ▸ h)]
    rfl

/-- The letters that deterministic automata know play no part. -/
theorem toRegex_congr {b : Automaton} (hstates : a.states = b.states) (hstart : a.start = b.start)
    (ha : a.isDeterministic) (hb : b.isDeterministic) : a.toRegex = b.toRegex := by
  obtain ⟨states, start, letters⟩ := b
  obtain rfl : a.states = states := hstates
  obtain rfl : a.start = start := hstart
  let c := a.singleFinal.mapStates (·.mergeEdges)
  have hrun : toRegex ⟨a.states, a.start, letters⟩ =
      eliminateN c.size { c with alphabet := letters } >>= readOff := by
    rw [toRegex, eliminated, if_pos hb, singleFinal_relettered a letters]
    rfl
  rw [hrun, eliminateN_relettered, toRegex, eliminated, if_pos ha]
  show eliminateN c.size c >>= readOff = _
  cases eliminateN c.size c <;> rfl

end RegularLang.Automaton
