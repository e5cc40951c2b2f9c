/-
  RegularLang.Proofs.Automaton.Labels — a regex read off an automaton has every property
  that characters have and the simplifying constructors keep (`Stable.toRegex`).

  The automaton is one of single characters, and eliminating states only joins labels by
  these constructors.
-/

import RegularLang.Construction
import RegularLang.Proofs.Automaton.ReadOff
import RegularLang.Proofs.Regex.Joined

namespace RegularLang

open Regex (Stable)

variable {P : Regex → Prop}

/-! ## States -/

section

variable {t : Transition} {ts ms : List Transition} (hP : Stable P)

include hP

theorem labelled_mergeInto (ht : P t.label) (hms : ∀ m ∈ ms, P m.label) :
    ∀ m ∈ mergeInto t ms, P m.label := by
  induction ms with
  | nil => simpa [mergeInto] using ht
  | cons m ms ih =>
    obtain ⟨hm, hms⟩ := List.forall_mem_cons.mp hms
    rw [mergeInto]
    split_ifs
    · exact List.forall_mem_cons.mpr ⟨hP.add hm ht, hms⟩
    · exact List.forall_mem_cons.mpr ⟨hm, ih hms⟩

theorem labelled_mergeParallel (h : ∀ t ∈ ts, P t.label) :
    ∀ m ∈ mergeParallel ts, P m.label := by
  have run (ms : List Transition) (hms : ∀ m ∈ ms, P m.label) :
      ∀ m ∈ ts.foldl (fun ms t => mergeInto t ms) ms, P m.label := by
    induction ts generalizing ms with
    | nil => exact hms
    | cons t ts ih =>
      obtain ⟨ht, hts⟩ := List.forall_mem_cons.mp h
      exact ih hts _ (labelled_mergeInto hP ht hms)
  exact run [] nofun

end

namespace State

variable {st : State}

def Labelled (P : Regex → Prop) (st : State) : Prop := ∀ t ∈ st.transitions, P t.label

theorem Labelled.labelTo (h : st.Labelled P) (hP : Stable P) (target : Nat) :
    P (st.labelTo target) := by
  apply hP.unionOf
  intro e he
  obtain ⟨t, ht, rfl⟩ := List.mem_map.mp he
  exact h t (List.mem_filter.mp ht).1

theorem Labelled.mergeEdges (h : st.Labelled P) (hP : Stable P) : st.mergeEdges.Labelled P :=
  labelled_mergeParallel hP h

theorem Labelled.detour {loop : Regex} {out : List Transition} (h : st.Labelled P)
    (hP : Stable P) (hloop : P loop) (hout : ∀ o ∈ out, P o.label) (s : Nat) :
    (st.detour s loop out).Labelled P := by
  rw [State.detour]
  dsimp only
  split_ifs
  · exact h
  · refine labelled_mergeParallel hP (List.forall_mem_append.mpr ⟨h, ?_⟩)
    intro u hu
    obtain ⟨t, ht, hu⟩ := List.mem_flatMap.mp hu
    obtain ⟨o, ho, rfl⟩ := List.mem_map.mp hu
    exact hP.mul (hP.mul (h t (List.mem_filter.mp ht).1) hloop) (hout o ho)

theorem Labelled.divert (h : st.Labelled P) (hP : Stable P) (output : Nat) :
    (st.divert output).Labelled P := by
  intro t ht
  rcases Automaton.mem_divert ht with ht | ⟨-, rfl⟩
  · exact h t ht
  · exact hP.char epsilon

theorem Labelled.without (h : st.Labelled P) (s : Nat) : (st.without s).Labelled P := by
  intro t ht
  obtain ⟨u, hu, rfl⟩ := List.mem_map.mp ht
  exact h u (List.mem_filter.mp hu).1

end State

/-! ## Automata -/

namespace Automaton

variable {a b : Automaton} {s : Nat} {r : Regex}

def Labelled (P : Regex → Prop) (a : Automaton) : Prop := ∀ p, (a.stateAt p).Labelled P

theorem labelled_of_isSimple (hP : Stable P) (h : a.isSimple) : a.Labelled P := by
  intro p t ht
  have hchar := isSimple_iff.mp h p t ht
  cases hl : t.label with
  | char c => exact hP.char c
  | concat es | sum es | star e =>
    rw [hl] at hchar
    cases hchar

namespace Labelled

theorem mapStates {f : State → State} (h : a.Labelled P) (hdead : f .dead = .dead)
    (hf : ∀ {st : State}, st.Labelled P → (f st).Labelled P) : (a.mapStates f).Labelled P := by
  intro p
  rw [stateAt_mapStates_of_dead hdead]
  exact hf (h p)

variable (h : a.Labelled P) (hP : Stable P)

include h hP

theorem singleFinal : a.singleFinal.Labelled P := by
  by_cases hcount : a.finalCount ≤ 1
  · rwa [Automaton.singleFinal, if_pos hcount]
  · intro p
    rw [stateAt_singleFinal hcount]
    split_ifs
    · exact fun t ht => absurd ht List.not_mem_nil
    · exact (h p).divert hP a.size

theorem detour (s : Nat) : (a.detour s).Labelled P := by
  intro p
  rw [stateAt_detour]
  split_ifs
  · exact h p
  · refine (h p).detour hP (hP.closure ((h s).labelTo hP s)) ?_ s
    exact fun o ho => h s o (mem_leaving.mp ho).1

theorem eliminate (hb : a.eliminate s = .ok b) : b.Labelled P := by
  rw [Automaton.eliminate] at hb
  obtain ⟨st, -, hb⟩ := Checked.bind_eq_ok.mp hb
  rw [removeState] at hb
  split_ifs at hb
  cases hb
  intro p
  rw [stateAt_without]
  exact (h.detour hP s _).without s

theorem eliminateN {n : Nat} (hb : eliminateN n a = .ok b) : b.Labelled P := by
  induction n generalizing a with
  | zero =>
    cases hb
    exact h
  | succ n ih =>
    rw [Automaton.eliminateN] at hb
    split at hb
    · obtain ⟨a', ha', hb⟩ := Checked.bind_eq_ok.mp hb
      exact ih (h.eliminate hP ha') hb
    · cases hb
      exact h

theorem betweenTwo (p q : Nat) : P (a.betweenTwo p q) := by
  have hlabel (p q) : P (a.label p q) := (h p).labelTo hP q
  have hloop := hP.closure (hlabel p p)
  refine hP.mul (hP.mul hloop (hlabel p q)) (hP.closure ?_)
  exact hP.add (hlabel q q) (hP.mul (hP.mul (hlabel q p) hloop) (hlabel p q))

theorem readOff (hr : a.readOff = .ok r) : P r := by
  rw [Automaton.readOff] at hr
  split at hr
  · rename_i st hst
    cases hr
    have hat : a.stateAt 0 = st := by rw [stateAt, hst]; rfl
    split_ifs
    · exact hP.closure ((hat ▸ h 0).labelTo hP 0)
    · exact hP.zero
  · dsimp only at hr
    split_ifs at hr
    cases hr
    exact h.betweenTwo hP _ _
  · cases hr

end Labelled

theorem labelled_eliminated (hP : Stable P) (hb : a.eliminated = .ok b) : b.Labelled P := by
  rw [eliminated] at hb
  split_ifs at hb with hd
  have hsimple : a.isSimple := (Bool.and_eq_true_iff.mp hd).1
  have hsingle := (labelled_of_isSimple hP hsimple).singleFinal hP
  exact (hsingle.mapStates rfl fun hst => hst.mergeEdges hP).eliminateN hP hb

end Automaton

/-! ## What is read off -/

namespace Regex.Stable

variable {r n : Regex} {letters : Alphabet} (hP : Stable P)

include hP

theorem toRegex {a : Automaton} (h : a.toRegex = .ok r) : P r := by
  obtain ⟨b, hb, hr⟩ := Checked.bind_eq_ok.mp h
  exact (Automaton.labelled_eliminated hP hb).readOff hP hr

theorem normalForm (h : r.normalForm letters = .ok n) : P n := by
  obtain ⟨a, -, hn⟩ := Checked.bind_eq_ok.mp h
  exact hP.toRegex hn

theorem complement (h : r.complement letters = .ok n) : P n := by
  obtain ⟨a, -, hn⟩ := Checked.bind_eq_ok.mp h
  exact hP.toRegex hn

end Regex.Stable

end RegularLang
