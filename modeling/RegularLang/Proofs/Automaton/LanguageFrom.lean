/-
  RegularLang.Proofs.Automaton.LanguageFrom — the words that each state can end in a
  final state. They are the least family of languages that the transitions keep:
  `languageFrom_eq` says that they keep it, `languageFrom_le` that it is the least.

  An inclusion between the languages of two automata is proved by naming a language
  for every state of the smaller one, so that no proof below inducts on paths.
-/

import Mathlib.Order.CompletePartialOrder
import RegularLang.Language

namespace RegularLang

/-! ## One state -/

/-- What a state reads when the words of `X t` can follow at each target `t`. -/
def State.reads (st : State) (X : Nat → Language Char) : Language Char :=
  {w | (st.isFinal ∧ w = []) ∨ ∃ t ∈ st.transitions, w ∈ t.label.language * X t.target}

namespace State

variable {st : State} {X Y : Nat → Language Char} {l : Language Char}

theorem reads_le_iff : st.reads X ≤ l ↔
    (st.isFinal → 1 ≤ l) ∧ ∀ t ∈ st.transitions, t.label.language * X t.target ≤ l := by
  constructor
  · intro h
    exact ⟨fun hf w hw => h (.inl ⟨hf, hw⟩), fun t ht w hw => h (.inr ⟨t, ht, hw⟩)⟩
  · intro h w hw
    rcases hw with ⟨hf, hw⟩ | ⟨t, ht, hw⟩
    · exact h.1 hf hw
    · exact h.2 t ht hw

theorem one_le_reads (h : st.isFinal) : 1 ≤ st.reads X := (reads_le_iff.mp le_rfl).1 h

theorem mul_le_reads {t : Transition} (h : t ∈ st.transitions) :
    t.label.language * X t.target ≤ st.reads X := (reads_le_iff.mp le_rfl).2 t h

theorem reads_mono (h : ∀ t ∈ st.transitions, X t.target ≤ Y t.target) : st.reads X ≤ st.reads Y :=
  reads_le_iff.mpr ⟨one_le_reads, fun t ht => (mul_le_mul_right (h t ht) _).trans (mul_le_reads ht)⟩

theorem reads_dead : dead.reads X = 0 :=
  le_antisymm (reads_le_iff.mpr ⟨nofun, nofun⟩) zero_le

end State

/-! ## All states -/

namespace Automaton

variable {a b : Automaton} {X : Nat → Language Char}

/-- The words of the paths from state `p` to a final state. -/
def languageFrom (a : Automaton) (p : Nat) : Language Char := {w | ∃ q, a.isFinalAt q ∧ a.Path p w q}

theorem language_eq_languageFrom (a : Automaton) : a.language = a.languageFrom a.start := rfl

theorem reads_languageFrom_le (a : Automaton) (p : Nat) :
    (a.stateAt p).reads a.languageFrom ≤ a.languageFrom p := by
  refine State.reads_le_iff.mpr ⟨?_, ?_⟩
  · intro hf w hw
    rw [(Language.mem_one w).mp hw]
    exact ⟨p, hf, .nil p⟩
  · intro t ht w hw
    obtain ⟨v, hv, u, ⟨q, hq, hu⟩, rfl⟩ := Language.mem_mul.mp hw
    exact ⟨q, hq, .cons ht hv hu⟩

/-- Whatever the transitions keep contains the words from each state. -/
theorem languageFrom_le (h : ∀ p, (a.stateAt p).reads X ≤ X p) (p : Nat) :
    a.languageFrom p ≤ X p := by
  intro w hx
  obtain ⟨q, hq, hw⟩ := hx
  induction hw with
  | nil p => exact h p (State.one_le_reads hq Language.nil_mem_one)
  | cons ht hv _ ih => exact h _ (State.mul_le_reads ht (Language.append_mem_mul hv (ih hq)))

theorem languageFrom_eq (a : Automaton) (p : Nat) :
    a.languageFrom p = (a.stateAt p).reads a.languageFrom := by
  refine le_antisymm (languageFrom_le (fun q => State.reads_mono ?_) p)
    (a.reads_languageFrom_le p)
  intro t _
  exact a.reads_languageFrom_le t.target

theorem one_le_languageFrom {p : Nat} (h : a.isFinalAt p) : 1 ≤ a.languageFrom p :=
  (State.one_le_reads h).trans (a.reads_languageFrom_le p)

theorem mul_le_languageFrom {p : Nat} {t : Transition} (h : t ∈ (a.stateAt p).transitions) :
    t.label.language * a.languageFrom t.target ≤ a.languageFrom p :=
  (State.mul_le_reads h).trans (a.reads_languageFrom_le p)

theorem languageFrom_of_size_le {p : Nat} (h : a.size ≤ p) : a.languageFrom p = 0 := by
  rw [languageFrom_eq, stateAt_of_size_le h, State.reads_dead]

/-- States that read the same whatever follows have the same words. -/
theorem languageFrom_congr (h : ∀ p X, (b.stateAt p).reads X = (a.stateAt p).reads X) :
    b.languageFrom = a.languageFrom := by
  funext p
  refine le_antisymm (languageFrom_le ?_ p) (languageFrom_le ?_ p)
  · intro q
    rw [h]
    exact a.reads_languageFrom_le q
  · intro q
    rw [← h]
    exact b.reads_languageFrom_le q

end Automaton

end RegularLang
