/-
  RegularLang.Proofs.Automaton.Residuals — the theorem of Myhill and Nerode: the states
  of a complete deterministic automaton that reaches all its states and has no two
  with the same words are as many as the residuals of its language
  (`Dfa.encard_residuals_eq`), and no automaton has fewer (`Dfa.encard_residuals_le`,
  `encard_residuals_le_card`).

  A residual is what may follow a word: in an automaton, the words of the state that
  the word leads to. Of the words that lead to a state one is the least, and a search from
  the start that takes the states in turn and for each the letters, ascending, numbers the
  states in the order of these words (`Discovered.lt_iff_shortlex`).
-/

import Mathlib.Computability.MyhillNerode
import Mathlib.Data.List.Shortlex
import Mathlib.Data.Set.Card
import RegularLang.Proofs.Automaton.Canonical
import RegularLang.Proofs.Automaton.Dfa

namespace RegularLang

section

variable {S : Set Char} {l : Language Char} {u w : List Char}

/-- The words over `S` that may follow `u`. -/
def residual (S : Set Char) (l : Language Char) (u : List Char) : Language Char :=
  {v | v ∈ wordsOver S ∧ u ++ v ∈ l}

def residuals (S : Set Char) (l : Language Char) : Set (Language Char) :=
  {m | ∃ u ∈ wordsOver S, residual S l u = m}

theorem mem_residual : w ∈ residual S l u ↔ w ∈ wordsOver S ∧ u ++ w ∈ l := Iff.rfl

/-- Where every residual belongs to a state there are no more of them than states. -/
theorem encard_residuals_le_of {α : Type*} {states : Set α} (f : α → Language Char)
    (h : ∀ u ∈ wordsOver S, ∃ s ∈ states, residual S l u = f s) :
    (residuals S l).encard ≤ states.encard := by
  refine (Set.encard_le_encard ?_).trans (Set.encard_image_le f states)
  rintro m ⟨u, hu, rfl⟩
  obtain ⟨s, hs, e⟩ := h u hu
  exact ⟨s, hs, e.symm⟩

/-! ## Automata with any states -/

theorem mem_wordsOver_iff_exists_map : w ∈ wordsOver S ↔ ∃ v : List S, v.map Subtype.val = w :=
  (Set.ext_iff.mp (Set.range_list_map_coe S) w).symm

theorem residual_eq_acceptsFrom {σ : Type*} (M : DFA S σ)
    (hM : ∀ v, v ∈ M.accepts ↔ v.map Subtype.val ∈ l) (u : List S) :
    residual S l (u.map Subtype.val) = (M.acceptsFrom (M.eval u)).map Subtype.val := by
  rw [← Language.leftQuotient_accepts_apply]
  ext w
  rw [mem_residual, mem_wordsOver_iff_exists_map]
  constructor
  · rintro ⟨⟨v, rfl⟩, hv⟩
    rw [← List.map_append, ← hM] at hv
    exact ⟨v, hv, rfl⟩
  · rintro ⟨v, hv, rfl⟩
    refine ⟨⟨v, rfl⟩, ?_⟩
    rw [← List.map_append, ← hM]
    exact hv

theorem encard_residuals_le_card {σ : Type*} [Fintype σ] (M : DFA S σ)
    (hM : ∀ v, v ∈ M.accepts ↔ v.map Subtype.val ∈ l) :
    (residuals S l).encard ≤ Fintype.card σ := by
  rw [← ENat.card_eq_coe_fintype_card, ← Set.encard_univ]
  apply encard_residuals_le_of fun s => (M.acceptsFrom s).map Subtype.val
  intro u hu
  obtain ⟨u, rfl⟩ := mem_wordsOver_iff_exists_map.mp hu
  exact ⟨_, Set.mem_univ _, residual_eq_acceptsFrom M hM u⟩

/-! ## Complete deterministic automata -/

namespace Automaton

variable {a : Automaton} {p q : Nat}

theorem Dfa.residual_eq (h : a.Dfa) (hu : u ∈ wordsOver a.letters)
    (hq : a.walk? a.start u = some q) : residual a.letters a.language u = a.languageFrom q := by
  ext w
  rw [mem_residual, language_eq_languageFrom, h.append_mem_languageFrom_iff, hq]
  constructor
  · rintro ⟨-, -, r, hr, hw⟩
    rwa [Option.some.inj hr]
  · intro hw
    exact ⟨h.languageFrom_le_wordsOver q hw, hu, q, rfl, hw⟩

theorem Dfa.encard_residuals_le (h : a.Dfa) :
    (residuals a.letters a.language).encard ≤ a.size := by
  rw [← Set.Nat.encard_range]
  apply encard_residuals_le_of a.languageFrom
  intro u hu
  obtain ⟨q, hq, hw⟩ := h.exists_walk? h.start_lt hu
  exact ⟨q, hq, h.residual_eq hu hw⟩

theorem Dfa.encard_residuals_eq (h : a.Dfa) (hred : a.Reduced)
    (hreach : ∀ q < a.size, ∃ u ∈ wordsOver a.letters, a.walk? a.start u = some q) :
    (residuals a.letters a.language).encard = a.size := by
  refine le_antisymm h.encard_residuals_le ?_
  have hinj : Set.InjOn a.languageFrom {p | p < a.size} := fun p hp q hq => hred p hp q hq
  rw [← Set.Nat.encard_range, ← hinj.encard_image]
  apply Set.encard_le_encard
  rintro m ⟨q, hq, rfl⟩
  obtain ⟨u, hu, hw⟩ := hreach q hq
  exact ⟨u, hu, h.residual_eq hu hw⟩

/-- Where every state is found from one before it, every state is reached by a word. -/
theorem Discovered.exists_walk? {δ : Nat → Char → Nat} (h : a.Discovered δ) (htab : a.Tabular δ)
    {q : Nat} (hq : q < a.size) : ∃ u ∈ wordsOver a.letters, a.walk? a.start u = some q := by
  induction q using Nat.strong_induction_on with
  | h q ih =>
    by_cases h0 : q = 0
    · subst h0
      exact ⟨[], nil_mem_wordsOver _, by rw [walk?_nil, h.start_eq]⟩
    · obtain ⟨p, hp, c, hc, rfl, -⟩ := h.found q hq (Nat.pos_of_ne_zero h0)
      obtain ⟨u, hu, hw⟩ := ih p hp (hp.trans hq)
      refine ⟨u ++ [c], append_mem_wordsOver.mpr ⟨hu, ?_⟩, ?_⟩
      · exact cons_mem_wordsOver.mpr ⟨hc, nil_mem_wordsOver _⟩
      · rw [walk?_append, hw, Option.bind_some, walk?_cons, htab.step?_eq (hp.trans hq) hc]
        rfl

end Automaton

end

/-! ## Words in order

Shorter words come first, and of words of the same length the one with the smaller letter
where they first differ. -/

section

variable {u v w : List Char}

abbrev Shortlex : List Char → List Char → Prop := List.Shortlex (number · < number ·)

theorem wellFounded_shortlex : WellFounded Shortlex := List.Shortlex.wf (measure number).wf

instance : Std.Asymm fun c d : Char => number c < number d := ⟨fun _ _ => Nat.lt_asymm⟩

instance : Std.Trichotomous fun c d : Char => number c < number d :=
  ⟨fun _ _ h h' => number_inj (Nat.le_antisymm (Nat.not_lt.mp h') (Nat.not_lt.mp h))⟩

theorem shortlex_iff : Shortlex u v ↔ u.length < v.length ∨
    u.length = v.length ∧ List.Lex (number · < number ·) u v := List.shortlex_def

theorem Shortlex.trans (h : Shortlex u v) (h' : Shortlex v w) : Shortlex u w := by
  rw [shortlex_iff] at h h' ⊢
  rcases h with hlen | ⟨hlen, hlex⟩
  · omega
  · rcases h' with hlen' | ⟨hlen', hlex'⟩
    · omega
    · exact .inr ⟨hlen.trans hlen', List.lex_trans Nat.lt_trans hlex hlex'⟩

theorem Shortlex.asymm (h : Shortlex u v) : ¬Shortlex v u := Std.Asymm.asymm u v h

theorem shortlex_trichotomy (u v : List Char) : Shortlex u v ∨ u = v ∨ Shortlex v u := by
  by_contra h
  push Not at h
  obtain ⟨huv, hne, hvu⟩ := h
  exact hne (Std.Trichotomous.trichotomous (r := Shortlex) u v huv hvu)

/-- Words that lead elsewhere already keep their order whatever follows. -/
theorem Shortlex.snoc (h : Shortlex u v) (c d : Char) : Shortlex (u ++ [c]) (v ++ [d]) := by
  rw [shortlex_iff] at h
  rcases h with hlen | ⟨hlen, hlex⟩
  · apply List.Shortlex.of_length_lt
    simpa using hlen
  · refine List.Shortlex.of_lex (by simp [hlen]) ?_
    induction hlex with
    | nil => simp at hlen
    | cons _ ih => exact .cons (ih (by simpa using hlen))
    | rel h => exact .rel h

end

namespace Automaton

variable {a : Automaton} {δ : Nat → Char → Nat} {q i j : Nat} {u v : List Char}

/-! ## Least words -/

/-- `u` is the least word that leads from the start to the state `q`. -/
def IsLeastWord (a : Automaton) (q : Nat) (u : List Char) : Prop :=
  a.walk? a.start u = some q ∧ ∀ v, a.walk? a.start v = some q → u = v ∨ Shortlex u v

theorem exists_isLeastWord (h : a.walk? a.start v = some q) : ∃ u, a.IsLeastWord q u := by
  obtain ⟨u, hu, hmin⟩ := wellFounded_shortlex.has_min {u | a.walk? a.start u = some q} ⟨v, h⟩
  refine ⟨u, hu, ?_⟩
  intro v hv
  have hv := hmin v hv
  rcases shortlex_trichotomy u v with h | h | h
  · exact .inr h
  · exact .inl h
  · exact absurd h hv

/-! ## The order of discovery -/

/-- To every state before the one that a word leads to, a smaller word leads. -/
theorem Discovered.exists_shortlex (h : a.Discovered δ) (htab : a.Tabular δ)
    (hv : a.walk? a.start v = some j) (hij : i < j) :
    ∃ u, a.walk? a.start u = some i ∧ Shortlex u v := by
  -- On the last letter of the word: a state found from one before it, or from the same
  -- one by a smaller letter.
  induction v using List.reverseRecOn generalizing i j with
  | nil =>
    rw [walk?_nil, h.start_eq] at hv
    obtain rfl := Option.some.inj hv
    omega
  | append_singleton v d ih =>
    rw [walk?_snoc, Option.bind_eq_some_iff] at hv
    obtain ⟨q, hv, hstep⟩ := hv
    obtain ⟨hq, hd, rfl⟩ := htab.step?_eq_some_iff.mp hstep
    by_cases hi0 : i = 0
    · subst hi0
      exact ⟨[], by rw [walk?_nil, h.start_eq], .of_length_lt (by simp)⟩
    · have hi : i < a.size := hij.trans (htab.lt_size q hq d hd)
      obtain ⟨p, hp, c, hc, rfl, hbefore⟩ := h.found i hi (Nat.pos_of_ne_zero hi0)
      have hfound := htab.step?_eq (hp.trans hi) hc
      have hnot : ¬Before q d p c := fun hb => Nat.lt_asymm hij (hbefore q d hd hb)
      unfold Before at hnot
      rcases Nat.lt_trichotomy p q with hlt | rfl | hlt
      · obtain ⟨u, hu, hshort⟩ := ih hv hlt
        refine ⟨u ++ [c], ?_, hshort.snoc c d⟩
        rw [walk?_snoc, hu]
        exact hfound
      · have hcd : number c < number d := by
          rcases Nat.lt_trichotomy (number c) (number d) with h | h | h
          · exact h
          · exact absurd hij (number_inj h ▸ Nat.lt_irrefl _)
          · exact absurd (.inr ⟨rfl, h⟩) hnot
        refine ⟨v ++ [c], ?_, List.Shortlex.append_left ?_ v⟩
        · rw [walk?_snoc, hv]
          exact hfound
        · exact (List.shortlex_singleton_iff c d).mpr hcd
      · exact absurd (.inl hlt) hnot

theorem Discovered.shortlex_of_lt (h : a.Discovered δ) (htab : a.Tabular δ)
    (hu : a.IsLeastWord i u) (hv : a.IsLeastWord j v) (hij : i < j) : Shortlex u v := by
  obtain ⟨u', hu', hshort⟩ := h.exists_shortlex htab hv.1 hij
  rcases hu.2 u' hu' with rfl | hless
  · exact hshort
  · exact hless.trans hshort

/-- States are numbered in the order of their least words. -/
theorem Discovered.lt_iff_shortlex (h : a.Discovered δ) (htab : a.Tabular δ)
    (hu : a.IsLeastWord i u) (hv : a.IsLeastWord j v) : i < j ↔ Shortlex u v := by
  refine ⟨h.shortlex_of_lt htab hu hv, ?_⟩
  intro hshort
  rcases Nat.lt_trichotomy i j with hij | rfl | hji
  · exact hij
  · rcases hv.2 u hu.1 with rfl | hless
    · exact absurd hshort hshort.asymm
    · exact absurd hless hshort.asymm
  · exact absurd (h.shortlex_of_lt htab hv hu hji) hshort.asymm

end Automaton

end RegularLang
