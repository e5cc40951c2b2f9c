/-
  RegularLang.Proofs.Suffix — words that end in a letter repeated. The shortest is found
  if its length is a 64-bit number (`shortestWithSuffix_exact`), whatever other letters
  the automaton is to know.

  A word that ends in the repeated letter is, backwards, one that begins with it. So the
  automaton of the reversed words is walked along the repeated letter, which leads to one
  state at most, and the words of that state are as long as its routes to a final state.
  Instead of taking many steps the walk leaps, and ends in the same state (`leap_eq_walk?`).

  Whether there is such a word is decided by asking for a shortest one. A word that is too
  long to be answered counts as none (`hasWithSuffix_iff`, `not_hasWithSuffix_iff`).
-/

import RegularLang.Proofs.Automaton.Distance
import RegularLang.Proofs.Construction
import RegularLang.Proofs.Regex.Reversed

namespace RegularLang

open Computability

/-! ## Leaps

The leap keeps the trail of the states before the one it is in. As soon as that state is on
the trail the walk has gone round, and whole rounds of what is left change nothing. -/

namespace Automaton

variable {a : Automaton} {c : Char} {s p : Nat}

theorem walk?_replicate_succ (a : Automaton) (p : Nat) (c : Char) (k : Nat) :
    a.walk? p (.replicate (k + 1) c) = (a.walk? p (.replicate k c)).bind (a.step? · c) := by
  rw [List.replicate_succ', walk?_snoc]

theorem stepTimes_eq_walk? (a : Automaton) (c : Char) (k s : Nat) :
    a.table.stepTimes c k s = a.walk? s (.replicate k c) := by
  induction k generalizing s with
  | zero => rfl
  | succ k ih =>
    rw [StateTable.stepTimes, table_step?, List.replicate_succ, walk?_cons]
    exact congrArg (Option.bind _) (funext ih)

/-- Whole rounds change nothing. -/
theorem walk?_replicate_mod {round : Nat} (h : a.walk? s (.replicate round c) = some s) (k : Nat) :
    a.walk? s (.replicate (k % round) c) = a.walk? s (.replicate k c) := by
  have hrounds (m : Nat) : a.walk? s (.replicate (round * m) c) = some s := by
    induction m with
    | zero => rfl
    | succ m ih => rw [Nat.mul_succ, ← List.replicate_append_replicate, walk?_append, ih, Option.bind_some, h]
  conv_rhs => rw [← Nat.div_add_mod k round]
  rw [← List.replicate_append_replicate, walk?_append, hrounds, Option.bind_some]

/-- The state `s` comes next after the states `trail`: from each of these, as many copies
    of the letter as there are states from it on lead to `s`. -/
def Trail (a : Automaton) (c : Char) (trail : List Nat) (s : Nat) : Prop :=
  ∀ i p, trail[i]? = some p → a.walk? p (.replicate (trail.length - i) c) = some s

theorem Trail.snoc {trail : List Nat} (h : a.Trail c trail s) (hp : a.step? s c = some p) :
    a.Trail c (trail ++ [s]) p := by
  intro i q hq
  rcases Nat.lt_trichotomy i trail.length with hi | rfl | hi
  · rw [List.getElem?_append_left hi] at hq
    rw [List.length_append, List.length_singleton, Nat.sub_add_comm hi.le, walk?_replicate_succ,
      h i q hq, Option.bind_some, hp]
  · rw [List.getElem?_concat_length] at hq
    obtain rfl := Option.some.inj hq
    rw [List.length_append, Nat.add_sub_cancel_left]
    exact (walk?_replicate_succ a s c 0).trans hp
  · have hi : (trail ++ [s]).length ≤ i := by simpa using Nat.succ_le_of_lt hi
    rw [List.getElem?_eq_none hi] at hq
    cases hq

theorem leapFrom_eq_walk? {trail : IndexedSet Nat} (h : a.Trail c trail.toList s) (k : Nat) :
    a.table.leapFrom c trail s k = a.walk? s (.replicate k c) := by
  induction k generalizing trail s with
  | zero => rfl
  | succ k ih =>
    rw [StateTable.leapFrom]
    split
    · next i hi =>
      have hround := h i s (IndexedSet.idx?_eq_some.mp hi)
      rw [stepTimes_eq_walk?, ← IndexedSet.length_toList, walk?_replicate_mod hround]
    · next hi =>
      rw [table_step?, List.replicate_succ, walk?_cons]
      cases hp : a.step? s c with
      | none => rfl
      | some p =>
        have hs : s ∉ trail := IndexedSet.idx?_eq_none.mp hi
        exact ih (IndexedSet.toList_insert_of_not_mem hs ▸ h.snoc hp)

/-- Leaping along the copies of a letter is walking along them. -/
theorem leap_eq_walk? (a : Automaton) (c : Char) (k : Nat) :
    a.leap c k = a.walk? a.start (.replicate k c) := by
  apply leapFrom_eq_walk?
  intro i p hp
  cases hp

/-! ## One step after the other -/

/-- `Steps a c p k q`: from `p`, `k` single steps on the letter `c` lead to `q`. -/
inductive Steps (a : Automaton) (c : Char) (p : Nat) : Nat → Nat → Prop
  | zero : Steps a c p 0 p
  | succ {k q r : Nat} : Steps a c p k q → a.step? q c = some r → Steps a c p (k + 1) r

theorem walk?_replicate_eq_some_iff {k q : Nat} :
    a.walk? p (.replicate k c) = some q ↔ a.Steps c p k q := by
  constructor
  · intro h
    induction k generalizing q with
    | zero =>
      cases h
      exact .zero
    | succ k ih =>
      rw [walk?_replicate_succ, Option.bind_eq_some_iff] at h
      obtain ⟨r, hr, hq⟩ := h
      exact .succ (ih hr) hq
  · intro h
    induction h with
    | zero => rfl
    | succ _ hr ih => rw [walk?_replicate_succ, ih, Option.bind_some, hr]

theorem Steps.unique {k q r : Nat} (hq : a.Steps c p k q) (hr : a.Steps c p k r) : q = r :=
  Option.some.inj ((walk?_replicate_eq_some_iff.mpr hq).symm.trans
    (walk?_replicate_eq_some_iff.mpr hr))

/-- A walk fails exactly when one of its steps cannot be taken. -/
theorem walk?_replicate_eq_none_iff {k : Nat} :
    a.walk? p (.replicate k c) = none ↔ ∃ i < k, ∃ q, a.Steps c p i q ∧ a.step? q c = none := by
  induction k with
  | zero => exact iff_of_false nofun fun ⟨_, hi, _⟩ => absurd hi (Nat.not_lt_zero _)
  | succ k ih =>
    rw [walk?_replicate_succ, Option.bind_eq_none_iff]
    constructor
    · intro h
      cases hk : a.walk? p (.replicate k c) with
      | none =>
        obtain ⟨i, hi, hstuck⟩ := ih.mp hk
        exact ⟨i, Nat.lt_succ_of_lt hi, hstuck⟩
      | some q => exact ⟨k, Nat.lt_succ_self k, q, walk?_replicate_eq_some_iff.mp hk, h q hk⟩
    · rintro ⟨i, hi, q, hsteps, hstuck⟩ r hr
      rcases Nat.lt_succ_iff_lt_or_eq.mp hi with hi | rfl
      · rw [ih.mpr ⟨i, hi, q, hsteps, hstuck⟩] at hr
        cases hr
      · rwa [(walk?_replicate_eq_some_iff.mp hr).unique hsteps]

end Automaton

/-! ## Distances in a deterministic automaton -/

namespace Automaton.Dfa

variable {a : Automaton} {p q d : Nat} {c : Char} {u w : List Char}
  {ts : List Transition} (h : a.Dfa)

include h

theorem exists_route (hw : a.Path p w q) : ∃ ts, a.Route p ts q ∧ ts.length = w.length := by
  induction hw with
  | nil p => exact ⟨[], .nil p, rfl⟩
  | cons ht hv _ ih =>
    obtain ⟨ts, hr, hlen⟩ := ih
    obtain ⟨c, hc⟩ := h.exists_letter ht
    rw [Regex.language_of_letter? hc] at hv
    obtain rfl := hv
    exact ⟨_, .cons ht hr, by rw [List.length_cons, hlen]; rfl⟩

theorem exists_path (hr : a.Route p ts q) : ∃ w, a.Path p w q ∧ w.length = ts.length := by
  induction hr with
  | nil p => exact ⟨[], .nil p, rfl⟩
  | cons ht _ ih =>
    obtain ⟨w, hw, hlen⟩ := ih
    obtain ⟨c, hc⟩ := h.exists_letter ht
    refine ⟨[c] ++ w, .cons ht ?_ hw, by rw [List.length_cons, ← hlen]; rfl⟩
    rw [Regex.language_of_letter? hc]
    rfl

theorem routeLengths_eq (p : Nat) :
    a.routeLengths p = {n | ∃ w ∈ a.languageFrom p, w.length = n} := by
  ext n
  constructor
  · rintro ⟨q, ts, hr, hq, rfl⟩
    obtain ⟨w, hw, hlen⟩ := h.exists_path hr
    exact ⟨w, ⟨q, hq, hw⟩, hlen⟩
  · rintro ⟨w, ⟨q, hq, hw⟩, rfl⟩
    obtain ⟨ts, hr, hlen⟩ := h.exists_route hw
    exact ⟨q, ts, hr, hq, hlen⟩

/-- The distance from where a word leads is what a shortest word has after it. -/
theorem walk?_bind_distance?_eq_some_iff : (a.walk? a.start u).bind a.distance? = some d ↔
    IsLeast {n | ∃ w, u ++ w ∈ a.language ∧ w.length = n} d := by
  simp only [language_eq_languageFrom, h.append_mem_languageFrom_iff]
  cases hu : a.walk? a.start u with
  | none =>
    refine iff_of_false nofun ?_
    rintro ⟨⟨w, ⟨-, q, hq, -⟩, -⟩, -⟩
    cases hq
  | some p =>
    have hover := h.mem_wordsOver_of_walk? hu
    rw [Option.bind_some, distance?_eq_some_iff, h.routeLengths_eq]
    simp [hover]

end Automaton.Dfa

/-! ## The shortest word -/

namespace Regex

variable {r : Regex} {c : Char} {k n : Nat}

/-- The lengths of the words that end in `k` times `c`. -/
def lengthsWithSuffix (r : Regex) (c : Char) (k : Nat) : Set Nat :=
  {n | ∃ w ∈ r.language, List.replicate k c <:+ w ∧ w.length = n}

theorem mem_lengthsWithSuffix_iff : n ∈ r.lengthsWithSuffix c k ↔
    ∃ v, List.replicate k c ++ v ∈ r.reversed.language ∧ v.length + k = n := by
  have hreversed (v : List Char) : List.replicate k c ++ v ∈ r.reversed.language ↔
      v.reverse ++ List.replicate k c ∈ r.language := by
    rw [← append_mem_reversed_iff, List.reverse_replicate]
  constructor
  · rintro ⟨w, hw, ⟨v, rfl⟩, rfl⟩
    refine ⟨v.reverse, (hreversed _).mpr (by rwa [List.reverse_reverse]), ?_⟩
    rw [List.length_append, List.length_reverse, List.length_replicate]
  · rintro ⟨v, hv, rfl⟩
    refine ⟨_, (hreversed v).mp hv, List.suffix_append .., ?_⟩
    rw [List.length_append, List.length_reverse, List.length_replicate]

theorem isLeast_lengthsWithSuffix_iff : IsLeast (r.lengthsWithSuffix c k) n ↔
    ∃ d, IsLeast {m | ∃ v, List.replicate k c ++ v ∈ r.reversed.language ∧ v.length = m} d ∧
      d + k = n := by
  constructor
  · rintro ⟨hn, hmin⟩
    obtain ⟨v, hv, rfl⟩ := mem_lengthsWithSuffix_iff.mp hn
    refine ⟨v.length, ⟨⟨v, hv, rfl⟩, ?_⟩, rfl⟩
    rintro m ⟨u, hu, rfl⟩
    exact Nat.le_of_add_le_add_right (hmin (mem_lengthsWithSuffix_iff.mpr ⟨u, hu, rfl⟩))
  · rintro ⟨d, ⟨⟨v, hv, rfl⟩, hmin⟩, rfl⟩
    refine ⟨mem_lengthsWithSuffix_iff.mpr ⟨v, hv, rfl⟩, ?_⟩
    intro m hm
    obtain ⟨u, hu, rfl⟩ := mem_lengthsWithSuffix_iff.mp hm
    exact Nat.add_le_add_right (hmin ⟨u, hu, rfl⟩) k

theorem shortestWithSuffix_eq_ok (r : Regex) (c : Char) (k : Nat) (letters : Alphabet) :
    ∃ answer, r.shortestWithSuffix c k letters = .ok answer ∧
      ∀ n, answer = some n ↔ IsLeast (r.lengthsWithSuffix c k) n ∧ n < lengthBound := by
  obtain ⟨b, hb, hdet, -, hl⟩ := dfa_eq_ok r.reversed (letters.insert c)
  have hdfa := hdet.dfa_determinized
  have hshortest (d : Nat) :
      (b.determinized.leap c k).bind b.determinized.distance? = some d ↔
        IsLeast {m | ∃ v, List.replicate k c ++ v ∈ r.reversed.language ∧ v.length = m} d := by
    rw [Automaton.leap_eq_walk?, hdfa.walk?_bind_distance?_eq_some_iff, hdet.language_eq, hl]
  refine ⟨_, by rw [shortestWithSuffix, hb]; rfl, fun n => ?_⟩
  rw [isLeast_lengthsWithSuffix_iff]
  simp only [← hshortest, Option.bind_eq_bind, Option.bind_eq_some_iff,
    Option.ite_none_right_eq_some, Option.some.injEq]
  constructor
  · rintro ⟨s, hs, d, hd, hlt, rfl⟩
    exact ⟨⟨d, ⟨s, hs, hd⟩, rfl⟩, hlt⟩
  · rintro ⟨⟨d, ⟨s, hs, hd⟩, rfl⟩, hlt⟩
    exact ⟨s, hs, d, hd, hlt, rfl⟩

/-- The query finds the length of the shortest words that end in `k` times `c` if it is a
    64-bit number, and none otherwise. The other letters do not matter. -/
theorem shortestWithSuffix_exact (r : Regex) (c : Char) (k : Nat) (letters : Alphabet) :
    ∃ answer, r.shortestWithSuffix c k letters = .ok answer ∧
      (∀ n, answer = some n ↔ IsLeast (r.lengthsWithSuffix c k) n ∧ n < lengthBound) ∧
      ∀ others, r.shortestWithSuffix c k others = .ok answer := by
  obtain ⟨answer, h, hanswer⟩ := r.shortestWithSuffix_eq_ok c k letters
  refine ⟨answer, h, hanswer, fun others => ?_⟩
  obtain ⟨answer', h', hanswer'⟩ := r.shortestWithSuffix_eq_ok c k others
  have : answer' = answer := Option.ext fun n => (hanswer' n).trans (hanswer n).symm
  rw [h', this]

/-! ## Whether there is one -/

theorem hasWithSuffix_eq_ok (r : Regex) (c : Char) (k : Nat) (letters : Alphabet) :
    ∃ b, r.hasWithSuffix c k letters = .ok b ∧
      (b ↔ ∃ n ∈ r.lengthsWithSuffix c k, n < lengthBound) := by
  obtain ⟨answer, h, hanswer⟩ := r.shortestWithSuffix_eq_ok c k letters
  refine ⟨answer.isSome, by rw [hasWithSuffix, h]; rfl, ?_⟩
  rw [Option.isSome_iff_exists]
  simp only [hanswer]
  constructor
  · rintro ⟨n, hn, hlt⟩
    exact ⟨n, hn.1, hlt⟩
  · rintro ⟨m, hm, hlt⟩
    obtain ⟨n, hn, hmin⟩ := wellFounded_lt.has_min _ ⟨m, hm⟩
    have hmin : n ∈ lowerBounds (r.lengthsWithSuffix c k) := fun l hl => Nat.le_of_not_lt (hmin l hl)
    exact ⟨n, ⟨hn, hmin⟩, (hmin hm).trans_lt hlt⟩

/-- A word counts only if its length is a 64-bit number. -/
theorem hasWithSuffix_iff (r : Regex) (c : Char) (k : Nat) (letters : Alphabet) :
    ∃ b, r.hasWithSuffix c k letters = .ok b ∧
      (b ↔ ∃ w ∈ r.language, List.replicate k c <:+ w ∧ w.length < lengthBound) := by
  obtain ⟨b, h, hb⟩ := r.hasWithSuffix_eq_ok c k letters
  refine ⟨b, h, hb.trans ?_⟩
  constructor
  · rintro ⟨n, ⟨w, hw, hs, rfl⟩, hlt⟩
    exact ⟨w, hw, hs, hlt⟩
  · rintro ⟨w, hw, hs, hlt⟩
    exact ⟨w.length, ⟨w, hw, hs, rfl⟩, hlt⟩

/-- The shortest word of `ba*` that ends in `k` times `a`. -/
theorem isLeast_lengthsWithSuffix_ba (k : Nat) :
    IsLeast ((concat [.char 'b', .star (.char 'a')]).lengthsWithSuffix 'a' k) (k + 1) := by
  have hl : (concat [.char 'b', .star (.char 'a')]).language = {['b']} * ({['a']} : Language Char)∗ := by
    simp [epsilon]
  constructor
  · refine ⟨['b'] ++ List.replicate k 'a', ?_, List.suffix_append .., by simp⟩
    rw [hl, ← List.flatten_replicate_singleton]
    refine Language.append_mem_mul rfl (Language.join_mem_kstar ?_)
    intro v hv
    exact List.eq_of_mem_replicate hv
  · rintro n ⟨w, hw, hs, rfl⟩
    rw [hl] at hw
    obtain ⟨u, rfl, v, -, rfl⟩ := hw
    -- The suffix is not the whole word, which begins with another letter.
    refine Nat.lt_of_le_of_ne (by simpa using hs.length_le) fun hlen => ?_
    have := hs.eq_of_length (by simpa using hlen)
    cases k with
    | zero => cases this
    | succ k => cases this

/-- There are words in `ba*` that end in any number of `a`s, but the `b` makes them longer
    than a length can be. -/
theorem not_hasWithSuffix_iff : ¬∀ (r : Regex) (c : Char) (k : Nat) (letters : Alphabet),
    k < lengthBound → ∃ b, r.hasWithSuffix c k letters = .ok b ∧
      (b ↔ ∃ w ∈ r.language, List.replicate k c <:+ w) := by
  intro hall
  obtain ⟨k, hk⟩ : ∃ k, lengthBound = k + 1 := ⟨_, rfl⟩
  obtain ⟨⟨w, hw, hs, -⟩, hmin⟩ := isLeast_lengthsWithSuffix_ba k
  obtain ⟨b, h, hb⟩ := hall (concat [.char 'b', .star (.char 'a')]) 'a' k .empty
    (hk ▸ Nat.lt_succ_self k)
  obtain ⟨b', h', hb'⟩ :=
    (concat [.char 'b', .star (.char 'a')]).hasWithSuffix_eq_ok 'a' k .empty
  obtain rfl := Except.ok.inj (h.symm.trans h')
  obtain ⟨n, hn, hlt⟩ := hb'.mp (hb.mpr ⟨w, hw, hs⟩)
  exact absurd (hmin hn) (Nat.not_le.mpr (hk ▸ hlt))

end Regex

end RegularLang
