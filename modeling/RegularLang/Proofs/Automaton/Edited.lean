/-
  RegularLang.Proofs.Automaton.Edited — what stages and edits keep, in any order.

  A stage that is refused is refused for what it asks of an automaton
  (`Stage.preconditions`). Every other stage but `invert` keeps the language, with one
  exception: `minify` does not ask for the absence of ε-transitions and looks past
  them. So a run keeps the language exactly when every automaton that it minimizes
  reads all its words along first transitions on letters (`runStages_spec`).

  Every edit, whatever its arguments are, and so every session (`edit_wellFormed`) leaves
  automata well-formed, and no edit brings in letters but `addTransition` and
  `extendAlphabet`. `KeepsForm` is what an edit without letters of its own leaves. Nothing
  is asked of such an edit but that it is not refused: a group to be merged may name a
  state twice, or one that is only just being made.
-/

import Mathlib.Data.List.Permutation
import RegularLang.Automaton.Edit
import RegularLang.Proofs.Automaton.Determinized
import RegularLang.Proofs.Automaton.Dfa
import RegularLang.Proofs.Automaton.EpsilonFree
import RegularLang.Proofs.Automaton.Minimized
import RegularLang.Proofs.Automaton.ReadOff
import RegularLang.Proofs.Automaton.Trimmed

namespace RegularLang

/-! ## The language after a run of stages -/

/-- Why a stage may be refused. -/
def Stage.preconditions : Stage → List Fault
  | initial | simplify | optimize | invert => []
  | removeEpsilon => [.epsilonRemovalNotSimple]
  | complete => [.completionNotSimple]
  | determine => [.determinizationEpsilon, .determinizationIncomplete, .determinizationNoStart]
  | minify => [.minimizationUnfit, .minimizationNoStart]
  | collapse => [.collapsingNondeterministic]

namespace Automaton

variable {a b : Automaton} {stages : List Stage} {w : List Char}

/-- The words that are left after a stage. -/
def languageAfter (a : Automaton) : Stage → Language Char
  | .minify => a.stepLanguage a.start
  | _ => a.language

theorem languageAfter_le (ha : a.WellFormed) (s : Stage) : a.languageAfter s ≤ a.language := by
  cases s with
  | minify => exact stepLanguage_le ha.epsilon_not_mem a.start
  | _ => exact le_rfl

/-- A stage is refused for what it asks, or leaves a well-formed automaton. -/
theorem apply_spec (ha : a.WellFormed) (s : Stage) (hs : s ≠ .invert) :
    (∃ f ∈ s.preconditions, s.apply a = .error f) ∨
      ∃ b, s.apply a = .ok b ∧ b.WellFormed ∧ b.language = a.languageAfter s := by
  cases s with
  | initial => exact .inr ⟨a, rfl, ha, rfl⟩
  | simplify => exact .inr ⟨_, rfl, (extends_simplified ha).wellFormed, language_simplified ha⟩
  | removeEpsilon =>
    by_cases h : a.isSimple
    · obtain ⟨b, hb, hm, -⟩ := epsilonFree_eq_ok ha h
      exact .inr ⟨b, hb, hm.wellFormed, hm.language_eq⟩
    · exact .inl ⟨_, List.mem_singleton_self _, if_neg h⟩
  | optimize =>
    obtain ⟨b, gone, f, hb, hf, hl, -⟩ := trim_eq_ok ha
    exact .inr ⟨b, hb, hf.wellFormed (wellFormed_dropZeros ha), hl⟩
  | complete =>
    by_cases h : a.isSimple
    · exact .inr ⟨_, if_pos h, wellFormed_completed ha, language_completed a⟩
    · exact .inl ⟨_, List.mem_singleton_self _, if_neg h⟩
  | determine =>
    simp only [Stage.apply, determine]
    split_ifs with he hc hsize
    · exact .inl ⟨_, by simp [Stage.preconditions], rfl⟩
    · exact .inl ⟨_, by simp [Stage.preconditions], rfl⟩
    · exact .inl ⟨_, by simp [Stage.preconditions], rfl⟩
    · have hpos := Nat.pos_of_ne_zero hsize
      have he : a.hasEpsilon = false := Bool.not_eq_true _ ▸ he
      have hsimple : a.isSimple := (isComplete_iff.mp (by simpa using hc)).1
      have hstart := lt_size_determinized (getElem?_subsets_zero ha hpos)
      exact .inr ⟨_, rfl, (tabular_determinized ha hpos).wellFormed hstart,
        language_determinized ha hpos hsimple he⟩
  | minify =>
    simp only [Stage.apply, minimize]
    split_ifs with h hsize
    · exact .inl ⟨_, by simp [Stage.preconditions], rfl⟩
    · exact .inl ⟨_, by simp [Stage.preconditions], rfl⟩
    · have hpos := Nat.pos_of_ne_zero hsize
      have hc : a.isComplete := by
        rw [Bool.not_eq_true', Bool.not_eq_false, Bool.and_eq_true] at h
        exact h.2
      exact .inr ⟨_, rfl, (tabular_minimized ha hc).wellFormed
        (classOf_lt_size ha hc (ha.start_lt_of_pos hpos)), language_minimized ha hc hpos⟩
  | invert => exact absurd rfl hs
  | collapse =>
    by_cases h : a.isDeterministic
    · obtain ⟨b, hb, hc, -⟩ := eliminated_eq_ok ha h
      exact .inr ⟨b, hb, hc.wellFormed, hc.language_eq⟩
    · exact .inl ⟨_, List.mem_singleton_self _, if_neg h⟩

theorem runStages_append (a : Automaton) (stages more : List Stage) :
    a.runStages (stages ++ more) = (a.runStages stages).bind fun b => b.runStages more := by
  induction stages generalizing a with
  | nil => rfl
  | cons s stages ih =>
    rw [List.cons_append, runStages_cons, runStages_cons]
    cases s.apply a with
    | error f => rfl
    | ok b => exact ih b

/-- The automata that a run minimizes. -/
def minimizedIn (a : Automaton) : List Stage → List Automaton
  | [] => []
  | s :: stages =>
    (if s = .minify then [a] else []) ++
      match s.apply a with
      | .ok b => b.minimizedIn stages
      | .error _ => []

/-- A run without `invert` is refused for what one of its stages asks, or ends in an
    automaton that reads no words but those of the first. It reads all of them exactly
    when minimization has looked past no ε-transition that is needed. -/
theorem runStages_spec (ha : a.WellFormed) (hs : .invert ∉ stages) :
    (∃ s ∈ stages, ∃ f ∈ s.preconditions, a.runStages stages = .error f) ∨
      ∃ b, a.runStages stages = .ok b ∧ b.WellFormed ∧ b.language ≤ a.language ∧
        (b.language = a.language ↔
          ∀ c ∈ a.minimizedIn stages, c.stepLanguage c.start = c.language) := by
  induction stages generalizing a with
  | nil => exact .inr ⟨a, rfl, ha, le_rfl, iff_of_true rfl nofun⟩
  | cons s stages ih =>
    obtain ⟨hne, hs⟩ := not_or.mp (List.mem_cons.not.mp hs)
    rw [runStages_cons]
    rcases apply_spec ha s (Ne.symm hne) with ⟨f, hf, e⟩ | ⟨b, hb, hbwf, hbl⟩
    · exact .inl ⟨s, List.mem_cons_self .., f, hf, by rw [e]; rfl⟩
    · have hstep : (∀ c ∈ (if s = .minify then [a] else []), c.stepLanguage c.start = c.language) ↔
          b.language = a.language := by
        rw [hbl]
        cases s <;> simp [languageAfter]
      have hle : b.language ≤ a.language := hbl.trans_le (languageAfter_le ha s)
      rcases ih hbwf hs with ⟨s', hs', f, hf, e⟩ | ⟨c, hc, hcwf, hcle, hciff⟩
      · exact .inl ⟨s', List.mem_cons_of_mem _ hs', f, hf, by rw [hb]; exact e⟩
      · refine .inr ⟨c, by rw [hb]; exact hc, hcwf, hcle.trans hle, ?_⟩
        rw [minimizedIn, hb, List.forall_mem_append, hstep, ← hciff]
        refine ⟨?_, fun ⟨e, e'⟩ => e'.trans e⟩
        intro e
        have hba : b.language = a.language := le_antisymm hle (e ▸ hcle)
        exact ⟨hba, e.trans hba.symm⟩

/-- A run without `invert` is refused for what one of its stages asks, or ends in an automaton
    that accepts no words but those that the first accepts. It accepts all of them exactly when
    every automaton that is minimized on the way reads its words without ε-transitions. -/
theorem runStages_accepts_iff (ha : a.WellFormed) (hs : .invert ∉ stages) :
    (∃ s ∈ stages, ∃ f ∈ s.preconditions, a.runStages stages = .error f) ∨
      ∃ b, a.runStages stages = .ok b ∧ (∀ w, b.accepts w → a.accepts w) ∧
        ((∀ w, b.accepts w = a.accepts w) ↔
          ∀ c ∈ a.minimizedIn stages, c.stepLanguage c.start = c.language) := by
  rcases runStages_spec ha hs with h | ⟨b, hb, hbwf, hle, hiff⟩
  · exact .inl h
  · refine .inr ⟨b, hb, ?_, ?_⟩
    · intro w hw
      rw [accepts_iff_mem hbwf] at hw
      exact (accepts_iff_mem ha).mpr (hle hw)
    · rw [← hiff]
      constructor
      · intro h
        ext w
        rw [← accepts_iff_mem hbwf, ← accepts_iff_mem ha, h]
      · intro h w
        rw [Bool.eq_iff_iff, accepts_iff_mem hbwf, accepts_iff_mem ha, h]

/-- The automaton of `a*` without its ε-transitions, minimized. -/
theorem runStages_accepts_iff_star :
    (ofRegex (.star (.char 'a'))).WellFormed ∧
    Stage.invert ∉ [.simplify, .removeEpsilon, .complete, .minify] ∧
    ((∃ s ∈ [Stage.simplify, .removeEpsilon, .complete, .minify], ∃ f ∈ s.preconditions,
        (ofRegex (.star (.char 'a'))).runStages [.simplify, .removeEpsilon, .complete, .minify] =
          .error f) ∨
      ∃ b, (ofRegex (.star (.char 'a'))).runStages
          [.simplify, .removeEpsilon, .complete, .minify] = .ok b ∧
        (∀ w, b.accepts w → (ofRegex (.star (.char 'a'))).accepts w) ∧
        ((∀ w, b.accepts w = (ofRegex (.star (.char 'a'))).accepts w) ↔
          ∀ c ∈ (ofRegex (.star (.char 'a'))).minimizedIn
              [.simplify, .removeEpsilon, .complete, .minify],
            c.stepLanguage c.start = c.language)) :=
  ⟨wellFormed_ofRegex _, by decide, runStages_accepts_iff (wellFormed_ofRegex _) (by decide)⟩

/-- Minimized before its ε-transitions are removed, the automaton of `a*` accepts
    nothing: no run can be trusted to keep the words unless it is refused. -/
theorem not_runStages_accepts : ¬∀ (a : Automaton) (stages : List Stage), a.WellFormed →
    .invert ∉ stages → (∃ f, a.runStages stages = .error f) ∨
      ∃ b, a.runStages stages = .ok b ∧ ∀ w, b.accepts w = a.accepts w := by
  intro h
  have hrun : (ofRegex (.star (.char 'a'))).runStages [.simplify, .complete, .minify] =
      .ok (ofRegex (.star (.char 'a'))).simplified.completed.minimized := by decide +kernel
  have hwords : (ofRegex (.star (.char 'a'))).simplified.completed.minimized.accepts ['a'] ≠
      (ofRegex (.star (.char 'a'))).accepts ['a'] := by decide +kernel
  rcases h _ [.simplify, .complete, .minify] (wellFormed_ofRegex (.star (.char 'a'))) (by decide)
    with ⟨f, hf⟩ | ⟨b, hb, hw⟩
  · exact nomatch hf.symm.trans hrun
  · rw [← Except.ok.inj (hrun.symm.trans hb)] at hw
    exact hwords (hw ['a'])

end Automaton

/-! ## Well-formed automata -/

/-- The letters that an edit brings in. -/
def Edit.letters : Edit → List Char
  | addTransition _ _ label => label.letters
  | extendAlphabet cs => cs
  | _ => []

namespace Automaton

variable {a b c : Automaton} {s : Nat} {group : List Nat}

/-- A well-formed automaton over the same letters. -/
structure KeepsForm (a b : Automaton) : Prop where
  wellFormed : b.WellFormed
  alphabet_eq : b.alphabet = a.alphabet

theorem KeepsForm.trans (h : a.KeepsForm b) (h' : b.KeepsForm c) : a.KeepsForm c :=
  ⟨h'.wellFormed, h'.alphabet_eq.trans h.alphabet_eq⟩

theorem Extends.keepsForm (h : a.Extends b) : a.KeepsForm b := ⟨h.wellFormed, h.alphabet_eq⟩

theorem Restricts.keepsForm {gone : List Nat} {f : Nat → Nat} (h : a.Restricts b gone f)
    (ha : a.WellFormed) : a.KeepsForm b := ⟨h.wellFormed ha, h.alphabet_eq⟩

/-! ## Removing and merging states -/

theorem keepsForm_removeState (ha : a.WellFormed) (h : a.removeState s = .ok b) :
    a.KeepsForm b := by
  rw [removeState] at h
  split_ifs at h with hstart hs
  cases h
  exact (restricts_without hs hstart).keepsForm ha

theorem keepsForm_removeStates (ha : a.WellFormed) (h : a.removeStates group = .ok b) :
    a.KeepsForm b := by
  refine Checked.foldlM_keeps (P := a.KeepsForm) ?_ ⟨ha, rfl⟩ h
  intro x s y hx hy
  exact hx.trans (keepsForm_removeState hx.wellFormed hy)

theorem keepsForm_mergeGroup (ha : a.WellFormed) (h : a.mergeGroup group = .ok b) :
    a.KeepsForm b := by
  rw [mergeGroup] at h
  obtain ⟨final, -, h⟩ := Checked.bind_eq_ok.mp h
  have hadded : a.KeepsForm (a.addMerged group final) := ⟨wellFormed_addMerged ha, rfl⟩
  exact hadded.trans (keepsForm_removeStates hadded.wellFormed h)

theorem keepsForm_eliminate (ha : a.WellFormed) (h : a.eliminate s = .ok b) : a.KeepsForm b := by
  rw [eliminate] at h
  obtain ⟨st, -, h⟩ := Checked.bind_eq_ok.mp h
  have hdetour : a.KeepsForm (a.detour s) := ⟨wellFormed_detour ha s, rfl⟩
  exact hdetour.trans (keepsForm_removeState hdetour.wellFormed h)

/-! ## One state or one transition -/

theorem eq_stateAt_of_state_eq_ok {st : State} (h : a.state s = .ok st) :
    s < a.size ∧ st = a.stateAt s := by
  rw [state] at h
  split at h
  · rename_i st' hst
    refine ⟨(List.getElem?_eq_some_iff.mp hst).1, ?_⟩
    rw [stateAt, List.getD_eq_getElem?_getD, hst, Option.getD_some, Except.ok.inj h]
  · cases h

theorem keepsForm_removeTransition (ha : a.WellFormed) {i : Nat} {t : Transition}
    (h : a.removeTransition s i = .ok (t, b)) : a.KeepsForm b := by
  obtain ⟨u, -, e⟩ := Checked.map_eq_ok.mp h
  cases e
  exact ⟨ha.unlink s i, rfl⟩

theorem keepsForm_expandTransition (ha : a.WellFormed) {i : Nat}
    (h : a.expandTransition s i = .ok b) : a.KeepsForm b := by
  rw [expandTransition] at h
  obtain ⟨t, -, h⟩ := Checked.bind_eq_ok.mp h
  split at h
  · cases h
  · cases h
    exact (extends_expand ha s i).keepsForm

theorem keepsForm_absorbTarget (ha : a.WellFormed) {i : Nat} (h : a.absorbTarget s i = .ok b) :
    a.KeepsForm b := by
  obtain ⟨t, ht, rfl⟩ := Checked.map_eq_ok.mp h
  exact ⟨wellFormed_absorb ha (transition_eq_ok_iff.mp ht), alphabet_absorb a s i⟩

theorem keepsForm_setFinal (ha : a.WellFormed) {f : Bool} (h : a.setFinal s f = .ok b) :
    a.KeepsForm b := by
  obtain ⟨st, hst, rfl⟩ := Checked.map_eq_ok.mp h
  obtain ⟨hs, rfl⟩ := eq_stateAt_of_state_eq_ok hst
  rw [set_eq_modifyState hs fun st => { st with isFinal := f }]
  refine ⟨ha.modifyState ?_, rfl⟩
  intro t ht
  exact ⟨ha.target_lt_of_mem ht, fun c => ha.letters_mem_of_mem ht⟩

theorem keepsForm_setStart (ha : a.WellFormed) (h : a.setStart s = .ok b) : a.KeepsForm b := by
  rw [setStart] at h
  split_ifs at h with hs
  cases h
  exact ⟨⟨ha.target_lt, .inl hs, ha.epsilon_not_mem, ha.letters_mem⟩, rfl⟩

theorem keepsForm_mergeEdges (ha : a.WellFormed) {merged : Bool}
    (h : a.mergeEdges s = .ok (merged, b)) : a.KeepsForm b := by
  obtain ⟨st, -, e⟩ := Checked.map_eq_ok.mp h
  cases e
  refine ⟨ha.modifyState ?_, rfl⟩
  refine (forall_mem_mergeParallel_iff (State.fits_add_iff a.size a.alphabet)).mpr ?_
  intro t ht
  exact ⟨ha.target_lt_of_mem ht, fun c => ha.letters_mem_of_mem ht⟩

/-! ## Stages -/

theorem alphabet_apply (ha : a.WellFormed) {stage : Stage} (h : stage.apply a = .ok b) :
    b.alphabet = a.alphabet := by
  cases stage with
  | initial =>
    cases h
    rfl
  | simplify =>
    cases h
    exact (extends_simplified ha).alphabet_eq
  | removeEpsilon =>
    by_cases hs : a.isSimple
    · obtain ⟨b', hb, hm, -⟩ := epsilonFree_eq_ok ha hs
      rw [← Except.ok.inj (hb.symm.trans h)]
      exact hm.alphabet_eq
    · rw [Stage.apply, epsilonFree, if_neg hs] at h
      cases h
  | optimize =>
    obtain ⟨b', gone, f, hb, hf, -⟩ := trim_eq_ok ha
    rw [← Except.ok.inj (hb.symm.trans h)]
    exact hf.alphabet_eq
  | complete =>
    simp only [Stage.apply, complete] at h
    split_ifs at h
    rw [← Except.ok.inj h]
    exact alphabet_completed a
  | determine =>
    simp only [Stage.apply, determine] at h
    split_ifs at h
    rw [← Except.ok.inj h, determinized]
  | minify =>
    simp only [Stage.apply, minimize] at h
    split_ifs at h
    rw [← Except.ok.inj h, minimized]
  | invert =>
    cases h
    exact alphabet_inverted a
  | collapse =>
    by_cases hd : a.isDeterministic
    · obtain ⟨b', hb, hc, -⟩ := eliminated_eq_ok ha hd
      rw [← Except.ok.inj (hb.symm.trans h)]
      exact hc.alphabet_eq
    · rw [Stage.apply, eliminated, if_neg hd] at h
      cases h

theorem keepsForm_stage (ha : a.WellFormed) {stage : Stage} (h : stage.apply a = .ok b) :
    a.KeepsForm b := by
  refine ⟨?_, alphabet_apply ha h⟩
  by_cases hinvert : stage = .invert
  · subst hinvert
    cases h
    exact wellFormed_inverted ha
  · rcases apply_spec ha stage hinvert with ⟨f, -, hf⟩ | ⟨b', hb, hwf, -⟩
    · exact absurd (hf.symm.trans h) nofun
    · rwa [← Except.ok.inj (hb.symm.trans h)]

/-! ## Edits -/

theorem addTransition_eq_ok {target : Nat} {label : Regex}
    (h : a.addTransition s target label = .ok b) :
    target < a.size ∧ b = (a.extendAlphabet label.letters).link s target label := by
  rw [addTransition] at h
  split_ifs at h with hlt
  exact ⟨hlt.2, (Except.ok.inj h).symm⟩

/-- One edit leaves a well-formed automaton over the letters from before and its own. -/
theorem keepsForm_edit (ha : a.WellFormed) {e : Edit} (h : e.apply a = .ok b) :
    (a.extendAlphabet e.letters).KeepsForm b := by
  cases e with
  | addState f =>
    cases h
    exact ⟨ha.addState f, rfl⟩
  | addTransition source target label =>
    obtain ⟨htarget, rfl⟩ := addTransition_eq_ok h
    refine ⟨(ha.extendAlphabet label.letters).link htarget ?_, rfl⟩
    intro c hc
    refine SortedSet.mem_insertAll.mpr (.inr (List.mem_filter.mpr ⟨hc, decide_eq_true ?_⟩))
    exact fun e => label.epsilon_not_mem_letters (e ▸ hc)
  | removeTransition s i =>
    obtain ⟨⟨t, b'⟩, hb, rfl⟩ := Checked.map_eq_ok.mp h
    exact keepsForm_removeTransition ha hb
  | removeState s => exact keepsForm_removeState ha h
  | setFinal s f => exact keepsForm_setFinal ha h
  | setStart s => exact keepsForm_setStart ha h
  | extendAlphabet cs =>
    cases h
    exact ⟨ha.extendAlphabet cs, rfl⟩
  | stage s => exact keepsForm_stage ha h
  | expandTransition s i => exact keepsForm_expandTransition ha h
  | mergeGroup group => exact keepsForm_mergeGroup ha h
  | absorbTarget s i => exact keepsForm_absorbTarget ha h
  | dropZeros =>
    cases h
    exact ⟨wellFormed_dropZeros ha, rfl⟩
  | dropUnreachable => exact keepsForm_removeStates ha h
  | singleFinal =>
    cases h
    exact (extends_singleFinal ha).keepsForm
  | mergeEdges s =>
    obtain ⟨⟨merged, b'⟩, hb, rfl⟩ := Checked.map_eq_ok.mp h
    exact keepsForm_mergeEdges ha hb
  | eliminate s => exact keepsForm_eliminate ha h

theorem wellFormed_edit (ha : a.WellFormed) {edits : List Edit} (h : a.edit edits = .ok b) :
    b.WellFormed :=
  Checked.foldlM_keeps (P := WellFormed) (fun hx hy => (keepsForm_edit hx hy).wellFormed) ha h

/-- Whatever a session that began with nothing or with a regex has come to is
    well-formed, and the next edit changes its alphabet by no letters but those that
    the edit brings in. -/
theorem edit_wellFormed {edits : List Edit} (ha : a = .empty ∨ ∃ r, a = ofRegex r)
    (h : a.edit edits = .ok b) : b.WellFormed ∧
      ∀ (e : Edit) c, e.apply b = .ok c →
        c.alphabet = b.alphabet.insertAll (e.letters.filter (· ≠ epsilon)) := by
  have hwf : a.WellFormed := by
    rcases ha with rfl | ⟨r, rfl⟩
    · exact wellFormed_empty
    · exact wellFormed_ofRegex r
  have hb := wellFormed_edit hwf h
  exact ⟨hb, fun e c hc => (keepsForm_edit hb hc).alphabet_eq⟩

/-- From state 0 by ε to state 1, from there by `a` to state 2, and from there by ε or
    by `b` back. -/
def backByB : Automaton :=
  ⟨[⟨false, [⟨1, .eps⟩]⟩, ⟨false, [⟨2, .char 'a'⟩]⟩, ⟨false, [⟨1, .eps⟩, ⟨0, .char 'b'⟩]⟩],
    0, .ofList ['a', 'b']⟩

/-- A group that names the state just being made, and then one that names a state twice,
    by which the state after it is lost as well. -/
theorem edit_wellFormed_odd_groups :
    (ofRegex (.star (.char 'a'))).edit
        [.stage .simplify, .mergeGroup [1, 4], .addTransition 2 0 (.char 'b')] = .ok backByB ∧
      (Edit.mergeGroup [1, 1]).apply backByB =
        .ok ⟨[⟨false, [⟨1, .eps⟩]⟩, ⟨false, []⟩], 0, .ofList ['a', 'b']⟩ ∧
      backByB.WellFormed ∧
      ∀ c, (Edit.mergeGroup [1, 1]).apply backByB = .ok c → c.alphabet = backByB.alphabet := by
  have h : (ofRegex (.star (.char 'a'))).edit
      [.stage .simplify, .mergeGroup [1, 4], .addTransition 2 0 (.char 'b')] = .ok backByB := by
    cbv
  obtain ⟨hwf, hal⟩ := edit_wellFormed (.inr ⟨_, rfl⟩) h
  exact ⟨h, by cbv, hwf, hal (.mergeGroup [1, 1])⟩

end Automaton

end RegularLang
