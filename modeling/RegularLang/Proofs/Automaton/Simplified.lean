/-
  RegularLang.Proofs.Automaton.Simplified — taking labels apart keeps the words of
  every state that was there (`extends_expand`), whichever label is taken apart, and
  `simplified` leaves single characters only (`isSimple_simplified`).

  Each way to take a label apart is compared with one transition that carries the
  whole label: the new states in between read what is left of it. What is left of its
  syntax tree is everything but the outermost node (`compositeNodes_expand_perm`), and that
  node alone says how many states come in (`size_expand`).
-/

import RegularLang.Proofs.Automaton.LanguageFrom
import RegularLang.Proofs.Automaton.States
import RegularLang.Regex.Order

namespace RegularLang

open Computability

/-! ## Reading along one more transition -/

namespace State

variable {st st' : State} {X : Nat → Language Char} {l : Language Char}

theorem reads_link_le_iff {target : Nat} {e : Regex} :
    (st.link target e).reads X ≤ l ↔ st.reads X ≤ l ∧ e.language * X target ≤ l := by
  simp only [reads_le_iff, link, List.mem_append, List.mem_singleton, or_imp, forall_and,
    forall_eq, and_assoc]

theorem reads_eq_of_perm (hf : st.isFinal = st'.isFinal)
    (ht : st.transitions.Perm st'.transitions) : st.reads X = st'.reads X := by
  simp only [reads, hf, ht.mem_iff]
  rfl

end State

namespace Automaton

variable {a b c : Automaton}

/-! ## Growing -/

/-- `b` has the states of `a`, with the same words, and perhaps more. -/
structure Extends (a b : Automaton) : Prop where
  wellFormed : b.WellFormed
  size_le : a.size ≤ b.size
  size_pos : 0 < b.size → 0 < a.size
  start_eq : b.start = a.start
  alphabet_eq : b.alphabet = a.alphabet
  languageFrom_eq : ∀ p < a.size, b.languageFrom p = a.languageFrom p

theorem Extends.refl (h : a.WellFormed) : a.Extends a := ⟨h, le_rfl, id, rfl, rfl, fun _ _ => rfl⟩

theorem Extends.trans (h : a.Extends b) (h' : b.Extends c) : a.Extends c where
  wellFormed := h'.wellFormed
  size_le := h.size_le.trans h'.size_le
  size_pos := h.size_pos ∘ h'.size_pos
  start_eq := h'.start_eq.trans h.start_eq
  alphabet_eq := h'.alphabet_eq.trans h.alphabet_eq
  languageFrom_eq := fun p hp =>
    (h'.languageFrom_eq p (hp.trans_le h.size_le)).trans (h.languageFrom_eq p hp)

theorem Extends.language_eq (h : a.Extends b) (ha : a.WellFormed) : b.language = a.language := by
  rw [language_eq_languageFrom, language_eq_languageFrom, h.start_eq]
  by_cases hs : 0 < a.size
  · exact h.languageFrom_eq _ (ha.start_lt_of_pos hs)
  · have hb : ¬0 < b.size := fun hb => hs (h.size_pos hb)
    rw [languageFrom_of_size_le (by omega), languageFrom_of_size_le (by omega)]

/-- An automaton whose states read what those of `a` read extends it. -/
theorem Extends.of_reads (hb : b.WellFormed) (hsize : b.size = a.size) (hstart : b.start = a.start)
    (hal : b.alphabet = a.alphabet) (h : ∀ p X, (b.stateAt p).reads X = (a.stateAt p).reads X) :
    a.Extends b :=
  ⟨hb, hsize.ge, fun hp => hsize ▸ hp, hstart, hal, fun _ _ => by rw [languageFrom_congr h]⟩

/-! ## What the words of each state contain, edit by edit -/

section

variable {s target p : Nat} {e f g : Regex} {X Y : Nat → Language Char} {l : Language Char}

theorem reads_stateAt_link_le_iff (hs : s < a.size) : ((a.link s target e).stateAt p).reads X ≤ l ↔
    (a.stateAt p).reads X ≤ l ∧ (p = s → e.language * X target ≤ l) := by
  rw [stateAt_link hs]
  split_ifs with h
  · subst h
    simp [State.reads_link_le_iff]
  · simp [h]

theorem reads_stateAt_addState_le_iff {final : Bool} :
    ((a.addState final).stateAt p).reads X ≤ l ↔
      (a.stateAt p).reads X ≤ l ∧ (p = a.size → final → 1 ≤ l) := by
  rw [stateAt_addState]
  split_ifs with h
  · subst h
    simp [stateAt_of_size_le le_rfl, State.reads_dead, State.reads_le_iff]
  · simp [h]

/-- Only the words of states that exist matter to a state of a well-formed automaton. -/
theorem WellFormed.reads_mono (h : a.WellFormed) (hX : ∀ q < a.size, X q ≤ Y q) :
    (a.stateAt p).reads X ≤ (a.stateAt p).reads Y :=
  State.reads_mono fun _ ht => hX _ (h.target_lt_of_mem ht)

/-! ## One label -/

/-- A label may be exchanged for one with the same words. -/
theorem extends_link_congr (ha : a.WellFormed) (hs : s < a.size) (ht : target < a.size)
    (hl : f.language = g.language) (hf : ∀ c ∈ f.letters, c ∈ a.alphabet) :
    (a.link s target g).Extends (a.link s target f) := by
  refine .of_reads (ha.link ht hf) (by simp) rfl rfl fun p X => eq_of_forall_ge_iff ?_
  intro l
  rw [reads_stateAt_link_le_iff hs, reads_stateAt_link_le_iff hs, hl]

/-- Two transitions in a row, with a new state between them, read what one transition
    on the product of their labels does. -/
theorem extends_link_via (ha : a.WellFormed) (hs : s < a.size) (ht : target < a.size)
    (hg : g.language = e.language * f.language) (he : ∀ c ∈ e.letters, c ∈ a.alphabet)
    (hf : ∀ c ∈ f.letters, c ∈ a.alphabet) :
    (a.link s target g).Extends
      (((a.addState false).link s a.size e).link a.size target f) := by
  have hs' : s < (a.addState false).size := by rw [size_addState]; omega
  have hn : a.size < ((a.addState false).link s a.size e).size := by simp
  have ht' : target < ((a.addState false).link s a.size e).size := by
    rw [size_link, size_addState]
    omega
  have reads_le {p X l} :
      ((((a.addState false).link s a.size e).link a.size target f).stateAt p).reads X ≤ l ↔
        (a.stateAt p).reads X ≤ l ∧ (p = s → e.language * X a.size ≤ l) ∧
          (p = a.size → f.language * X target ≤ l) := by
    rw [reads_stateAt_link_le_iff hn, reads_stateAt_link_le_iff hs', reads_stateAt_addState_le_iff]
    simp only [Bool.false_eq_true, false_imp_iff, imp_true_iff, and_true, and_assoc]
  refine ⟨((ha.addState false).link (by simp) he).link ht' hf, by simp,
    fun _ => Nat.zero_lt_of_lt (size_link a s target g ▸ hs), rfl, rfl,
    fun p hp => le_antisymm ?_ ?_⟩
  · let A := (a.link s target g).languageFrom
    let X q := if q < a.size then A q else f.language * A target
    have hX {q} (h : q < a.size) : X q = A q := if_pos h
    have hX' {q} (h : ¬q < a.size) : X q = f.language * A target := if_neg h
    rw [size_link] at hp
    refine (languageFrom_le (fun q => reads_le.mpr ?_) p).trans_eq (hX hp)
    have hA := (reads_stateAt_link_le_iff hs).mp ((a.link s target g).reads_languageFrom_le q)
    by_cases hq : q < a.size
    · have hold : (a.stateAt q).reads X ≤ A q := (ha.reads_mono fun r hr => (hX hr).le).trans hA.1
      rw [hX hq, hX' (lt_irrefl _), ← mul_assoc, ← hg]
      exact ⟨hold, hA.2, fun h => absurd h hq.ne⟩
    · rw [stateAt_of_size_le (not_lt.mp hq), State.reads_dead, hX' hq, hX ht]
      exact ⟨zero_le, fun h => absurd hs (h ▸ hq), fun _ => le_rfl⟩
  · refine languageFrom_le (fun q => (reads_stateAt_link_le_iff hs).mpr ?_) p
    have hB (r) := reads_le.mp (reads_languageFrom_le _ r)
    refine ⟨(hB q).1, ?_⟩
    intro h
    rw [hg, mul_assoc]
    exact (mul_le_mul_right ((hB _).2.2 rfl) _).trans ((hB q).2.1 h)

theorem size_linkLoop (a : Automaton) (s target : Nat) (e : Regex) :
    (a.linkLoop s target e).size = a.size + 2 := by
  simp only [linkLoop, size_link, size_addState]

theorem wellFormed_linkLoop (ha : a.WellFormed) (ht : target < a.size)
    (he : ∀ c ∈ e.letters, c ∈ a.alphabet) : (a.linkLoop s target e).WellFormed := by
  have hε : ∀ c ∈ Regex.eps.letters, c ∈ a.alphabet := nofun
  have hsize : ((a.addState false).addState false).size = a.size + 2 := by
    rw [size_addState, size_addState]
  have h := (ha.addState false).addState false
  have h₁ := h.link (s := a.size) (t := a.size + 1) (by omega) he
  have h₂ := h₁.link (s := s) (t := a.size) (by rw [size_link]; omega) hε
  have h₃ := h₂.link (s := a.size + 1) (t := a.size) (by simp only [size_link]; omega) hε
  exact h₃.link (by simp only [size_link]; omega) hε

theorem reads_stateAt_linkLoop_le_iff (hs : s < a.size) :
    ((a.linkLoop s target e).stateAt p).reads X ≤ l ↔
      (a.stateAt p).reads X ≤ l ∧ (p = s → X a.size ≤ l) ∧
        (p = a.size → e.language * X (a.size + 1) ≤ l ∧ X target ≤ l) ∧
        (p = a.size + 1 → X a.size ≤ l) := by
  have hsize : ((a.addState false).addState false).size = a.size + 2 := by
    rw [size_addState, size_addState]
  rw [linkLoop, reads_stateAt_link_le_iff (by simp only [size_link]; omega),
    reads_stateAt_link_le_iff (by simp only [size_link]; omega),
    reads_stateAt_link_le_iff (by simp only [size_link]; omega),
    reads_stateAt_link_le_iff (by omega), reads_stateAt_addState_le_iff,
    reads_stateAt_addState_le_iff, Regex.language_eps]
  simp only [one_mul, Bool.false_eq_true, false_imp_iff, imp_true_iff, and_true]
  tauto

/-- A loop between two new states reads what one transition on the closure does. -/
theorem extends_linkLoop (ha : a.WellFormed) (hs : s < a.size) (ht : target < a.size)
    (he : ∀ c ∈ e.letters, c ∈ a.alphabet) :
    (a.link s target (.star e)).Extends (a.linkLoop s target e) := by
  have hle : (a.link s target (.star e)).size ≤ (a.linkLoop s target e).size := by
    rw [size_link, size_linkLoop]
    omega
  refine ⟨wellFormed_linkLoop ha ht he, hle,
    fun _ => Nat.zero_lt_of_lt (size_link a s target _ ▸ hs), rfl, rfl,
    fun p hp => le_antisymm ?_ ?_⟩
  · let A := (a.link s target (.star e)).languageFrom
    let X q := if q < a.size then A q else e.language∗ * A target
    have hX {q} (h : q < a.size) : X q = A q := if_pos h
    have hX' {q} (h : ¬q < a.size) : X q = e.language∗ * A target := if_neg h
    rw [size_link] at hp
    refine (languageFrom_le (X := X) ?_ p).trans_eq (hX hp)
    intro q
    apply (reads_stateAt_linkLoop_le_iff hs).mpr
    have hA := (reads_stateAt_link_le_iff hs).mp ((a.link s target (.star e)).reads_languageFrom_le q)
    rw [hX' (q := a.size) (by omega), hX' (q := a.size + 1) (by omega), hX ht]
    by_cases hq : q < a.size
    · have hold : (a.stateAt q).reads X ≤ A q := (ha.reads_mono fun r hr => (hX hr).le).trans hA.1
      rw [hX hq]
      exact ⟨hold, hA.2, fun h => absurd h hq.ne, fun h => absurd h (by omega)⟩
    · rw [stateAt_of_size_le (not_lt.mp hq), State.reads_dead, hX' hq, ← mul_assoc]
      refine ⟨zero_le, fun _ => le_rfl, fun _ => ⟨?_, ?_⟩, fun _ => le_rfl⟩
      · exact mul_le_mul_left mul_kstar_le_kstar _
      · simpa using mul_le_mul_left (one_le_kstar (a := e.language)) (A target)
  · refine languageFrom_le ?_ p
    intro q
    apply (reads_stateAt_link_le_iff hs).mpr
    have hB (r) := (reads_stateAt_linkLoop_le_iff hs).mp
      (reads_languageFrom_le (a.linkLoop s target e) r)
    refine ⟨(hB q).1, ?_⟩
    intro h
    have hloop := (mul_le_mul_right ((hB _).2.2.2 rfl) e.language).trans ((hB _).2.2.1 rfl).1
    calc (Regex.star e).language * (a.linkLoop s target e).languageFrom target
        ≤ e.language∗ * (a.linkLoop s target e).languageFrom a.size :=
          mul_le_mul_right ((hB _).2.2.1 rfl).2 _
      _ ≤ (a.linkLoop s target e).languageFrom a.size := kstar_mul_le_self hloop
      _ ≤ (a.linkLoop s target e).languageFrom q := (hB q).2.1 h

/-- Parallel transitions read what one transition on the union of their labels does. -/
theorem extends_linkSum (ha : a.WellFormed) (hs : s < a.size) (ht : target < a.size) (es : List Regex)
    (he : ∀ c ∈ es.flatMap Regex.letters, c ∈ a.alphabet) :
    (a.link s target (.sum es)).Extends (es.foldl (fun a e => a.link s target e) a) := by
  induction es generalizing a with
  | nil =>
    refine .of_reads ha (by simp) rfl rfl fun p X => eq_of_forall_ge_iff ?_
    intro l
    rw [reads_stateAt_link_le_iff hs]
    simp
  | cons e es ih =>
    obtain ⟨he, hes⟩ := List.forall_mem_append.mp he
    have ha' : (a.link s target e).WellFormed := ha.link ht he
    have hes' : ∀ c ∈ (Regex.sum es).letters, c ∈ a.alphabet := by rwa [Regex.letters_sum]
    refine Extends.trans (.of_reads (ha'.link (by simpa) hes') (by simp) rfl rfl ?_)
      (ih ha' (by simpa) (by simpa) hes)
    intro p X
    apply eq_of_forall_ge_iff
    intro l
    rw [reads_stateAt_link_le_iff (by simpa), reads_stateAt_link_le_iff hs,
      reads_stateAt_link_le_iff hs]
    simp only [Regex.language_sum, List.map_cons, List.sum_cons, add_mul, add_le_iff]
    tauto

/-- A chain of transitions reads what one transition on the concatenation does. -/
theorem extends_linkChain (ha : a.WellFormed) (hs : s < a.size) (ht : target < a.size)
    (es : List Regex) (he : ∀ c ∈ es.flatMap Regex.letters, c ∈ a.alphabet) :
    (a.link s target (.concat es)).Extends (a.linkChain s target es) := by
  induction es generalizing a s with
  | nil => exact extends_link_congr ha hs ht (by simp) nofun
  | cons e es ih =>
    obtain ⟨hfirst, hes⟩ := List.forall_mem_append.mp he
    cases es with
    | nil => exact extends_link_congr ha hs ht (by simp) hfirst
    | cons f es =>
      have ha' : ((a.addState false).link s a.size e).WellFormed :=
        (ha.addState false).link (by simp) hfirst
      have hes' : ∀ c ∈ (Regex.concat (f :: es)).letters, c ∈ a.alphabet := by
        rwa [Regex.letters_concat]
      exact (extends_link_via ha hs ht (by simp) hfirst hes').trans
        (ih ha' (by simp) (by rw [size_link, size_addState]; omega) hes)

theorem extends_linkParts (ha : a.WellFormed) (hs : s < a.size) (ht : target < a.size)
    (he : ∀ c ∈ e.letters, c ∈ a.alphabet) :
    (a.link s target e).Extends (a.linkParts s target e) := by
  cases e with
  | char c => exact .refl (ha.link ht he)
  | concat es => exact extends_linkChain ha hs ht es (by rwa [← Regex.letters_concat])
  | sum es => exact extends_linkSum ha hs ht es (by rwa [← Regex.letters_sum])
  | star e => exact extends_linkLoop ha hs ht he

end

/-! ## Taking one label apart -/

theorem extends_expand (ha : a.WellFormed) (s i : Nat) : a.Extends (a.expand s i) := by
  rw [expand]
  split
  · rename_i t h
    have hs := lt_size_of_transition? h
    have ht := List.mem_of_getElem? h
    have hu := ha.unlink s i
    have htarget : t.target < (a.unlink s i).size := by simpa using ha.target_lt_of_mem ht
    have hl : ∀ c ∈ t.label.letters, c ∈ (a.unlink s i).alphabet := fun c => ha.letters_mem_of_mem ht
    refine Extends.trans (.of_reads (hu.link htarget hl) (by simp) rfl rfl ?_)
      (extends_linkParts hu (by simpa) htarget hl)
    intro p X
    rw [stateAt_link (by simpa), stateAt_unlink hs, stateAt_unlink hs, if_pos rfl]
    split_ifs with hp
    · subst hp
      exact State.reads_eq_of_perm rfl (eraseIdx_append_perm h)
    · rfl
  · exact .refl ha

/-! ## The first label to take apart -/

theorem firstTransitionFrom_eq_none {P : Transition → Bool} {sts : List State} {s : Nat}
    (h : firstTransitionFrom P s sts = none) : ∀ st ∈ sts, ∀ t ∈ st.transitions, P t = false := by
  induction sts generalizing s with
  | nil => nofun
  | cons st sts ih =>
    rw [firstTransitionFrom] at h
    split at h
    · cases h
    · rename_i hn
      exact List.forall_mem_cons.mpr ⟨fun t ht => List.findIdx?_eq_none_iff.mp hn t ht, ih h⟩

theorem firstTransitionFrom_eq_some {P : Transition → Bool} {sts : List State} {s p i : Nat}
    (h : firstTransitionFrom P s sts = some (p, i)) :
    ∃ q t, p = s + q ∧ (sts.getD q .dead).transitions[i]? = some t ∧ P t := by
  induction sts generalizing s with
  | nil => cases h
  | cons st sts ih =>
    rw [firstTransitionFrom] at h
    split at h
    · rename_i hi
      obtain ⟨hlt, hp, -⟩ := List.findIdx?_eq_some_iff_getElem.mp hi
      cases h
      exact ⟨0, _, rfl, List.getElem?_eq_getElem hlt, hp⟩
    · obtain ⟨q, t, hq, ht, hp⟩ := ih h
      exact ⟨q + 1, t, by omega, ht, hp⟩

theorem firstTransition?_eq_some {P : Transition → Bool} {s i : Nat}
    (h : a.firstTransition? P = some (s, i)) : ∃ t, a.transition? s i = some t ∧ P t := by
  obtain ⟨q, t, hq, ht, hp⟩ := firstTransitionFrom_eq_some h
  rw [Nat.zero_add] at hq
  subst hq
  exact ⟨t, ht, hp⟩

theorem isSimple_of_firstComposite?_eq_none (h : a.firstComposite? = none) : a.isSimple := by
  refine List.all_eq_true.mpr fun st hst => List.all_eq_true.mpr ?_
  intro t ht
  simpa using firstTransitionFrom_eq_none h st hst t ht

/-! ## The composite nodes of the labels -/

/-- The composite nodes of all labels, state by state. -/
def compositeNodes (a : Automaton) : List Regex := a.transitions.flatMap (·.label.compositeNodes)

theorem length_compositeNodes (a : Automaton) : a.compositeNodes.length = a.composites := by
  rw [compositeNodes, composites]
  induction a.transitions with
  | nil => rfl
  | cons t ts ih =>
    rw [List.flatMap_cons, List.length_append, Regex.length_compositeNodes, ih, List.map_cons,
      Regex.compositesAll_cons]

section

variable {s target : Nat} {e : Regex}

@[simp] theorem compositeNodes_addState (a : Automaton) (final : Bool) :
    (a.addState final).compositeNodes = a.compositeNodes := by
  rw [compositeNodes, transitions_addState, ← compositeNodes]

theorem compositeNodes_link_perm (hs : s < a.size) :
    (a.link s target e).compositeNodes.Perm (e.compositeNodes ++ a.compositeNodes) :=
  (transitions_link_perm hs target e).flatMap_right _

theorem compositeNodes_unlink_perm {i : Nat} {t : Transition} (h : a.transition? s i = some t) :
    (t.label.compositeNodes ++ (a.unlink s i).compositeNodes).Perm a.compositeNodes := by
  have hperm := (transitions_unlink_perm h).flatMap_right fun t => t.label.compositeNodes
  rwa [List.flatMap_cons] at hperm

theorem compositeNodes_linkChain_perm (hs : s < a.size) (es : List Regex) :
    (a.linkChain s target es).compositeNodes.Perm
      (es.flatMap Regex.compositeNodes ++ a.compositeNodes) := by
  induction es generalizing a s with
  | nil => exact compositeNodes_link_perm hs
  | cons e es ih =>
    rw [List.flatMap_cons]
    cases es with
    | nil =>
      rw [List.flatMap_nil, List.append_nil]
      exact compositeNodes_link_perm hs
    | cons f es =>
      have hs' : s < (a.addState false).size := by rw [size_addState]; omega
      have hfirst : ((a.addState false).link s a.size e).compositeNodes.Perm
          (e.compositeNodes ++ (a.addState false).compositeNodes) := compositeNodes_link_perm hs'
      rw [compositeNodes_addState] at hfirst
      rw [linkChain, List.append_assoc]
      · refine (ih (by simp)).trans ((hfirst.append_left _).trans ?_)
        exact List.perm_append_comm_assoc ..
      · simp

theorem compositeNodes_linkSum_perm (hs : s < a.size) (es : List Regex) :
    (es.foldl (fun a e => a.link s target e) a).compositeNodes.Perm
      (es.flatMap Regex.compositeNodes ++ a.compositeNodes) := by
  induction es generalizing a with
  | nil => exact .refl _
  | cons e es ih =>
    rw [List.foldl_cons, List.flatMap_cons, List.append_assoc]
    refine (ih (by simpa)).trans (((compositeNodes_link_perm hs).append_left _).trans ?_)
    exact List.perm_append_comm_assoc ..

theorem compositeNodes_linkLoop_perm (hs : s < a.size) :
    (a.linkLoop s target e).compositeNodes.Perm (e.compositeNodes ++ a.compositeNodes) := by
  have hsize : ((a.addState false).addState false).size = a.size + 2 := by
    rw [size_addState, size_addState]
  have htie {b : Automaton} {p q : Nat} (hp : p < b.size) :
      (b.link p q .eps).compositeNodes.Perm b.compositeNodes := compositeNodes_link_perm hp
  have hloop : (((a.addState false).addState false).link a.size (a.size + 1) e).compositeNodes.Perm
      (e.compositeNodes ++ ((a.addState false).addState false).compositeNodes) :=
    compositeNodes_link_perm (by omega)
  rw [compositeNodes_addState, compositeNodes_addState] at hloop
  rw [linkLoop]
  exact (htie (by simp only [size_link]; omega)).trans ((htie (by simp only [size_link]; omega)).trans
    ((htie (by simp only [size_link]; omega)).trans hloop))

/-- Taking a label apart removes its outermost node, and no other. -/
theorem compositeNodes_linkParts_perm (hs : s < a.size) (h : e.isChar = false) :
    (e :: (a.linkParts s target e).compositeNodes).Perm (e.compositeNodes ++ a.compositeNodes) := by
  cases e with
  | char c => cases h
  | concat es =>
    rw [Regex.compositeNodes_concat]
    exact (compositeNodes_linkChain_perm hs es).cons _
  | sum es =>
    rw [Regex.compositeNodes_sum]
    exact (compositeNodes_linkSum_perm hs es).cons _
  | star e => exact (compositeNodes_linkLoop_perm hs).cons _

theorem compositeNodes_expand_perm {i : Nat} {t : Transition} (h : a.transition? s i = some t)
    (ht : t.label.isChar = false) :
    (t.label :: (a.expand s i).compositeNodes).Perm a.compositeNodes := by
  have hs := lt_size_of_transition? h
  simp only [expand, h]
  exact (compositeNodes_linkParts_perm (by simpa) ht).trans (compositeNodes_unlink_perm h)

theorem composites_expand {i : Nat} {t : Transition} (h : a.transition? s i = some t)
    (ht : t.label.isChar = false) : (a.expand s i).composites + 1 = a.composites := by
  rw [← length_compositeNodes, ← length_compositeNodes, ← List.length_cons]
  exact (compositeNodes_expand_perm h ht).length_eq

/-! ## The states that come in -/

theorem size_linkChain (a : Automaton) (s target : Nat) (es : List Regex) :
    (a.linkChain s target es).size = a.size + (es.length - 1) := by
  induction es generalizing a s with
  | nil => exact size_link ..
  | cons e es ih =>
    cases es with
    | nil => exact size_link ..
    | cons f es =>
      rw [linkChain, ih, size_link, size_addState]
      · simp only [List.length_cons]
        omega
      · simp

theorem size_linkSum (a : Automaton) (s target : Nat) (es : List Regex) :
    (es.foldl (fun a e => a.link s target e) a).size = a.size := by
  induction es generalizing a with
  | nil => rfl
  | cons e es ih => rw [List.foldl_cons, ih, size_link]

theorem size_linkParts (a : Automaton) (s target : Nat) (e : Regex) :
    (a.linkParts s target e).size = a.size + e.innerStates := by
  cases e with
  | char c => exact size_link ..
  | concat es => exact size_linkChain a s target es
  | sum es => exact size_linkSum a s target es
  | star e => exact size_linkLoop a s target e

theorem size_expand {i : Nat} {t : Transition} (h : a.transition? s i = some t) :
    (a.expand s i).size = a.size + t.label.innerStates := by
  simp only [expand, h]
  rw [size_linkParts, size_unlink]

end

/-! ## All labels -/

theorem extends_expandN (ha : a.WellFormed) (n : Nat) : a.Extends (expandN n a) := by
  induction n generalizing a with
  | zero => exact .refl ha
  | succ n ih =>
    rw [expandN]
    split
    · rename_i s i _
      have h := extends_expand ha s i
      exact h.trans (ih h.wellFormed)
    · exact .refl ha

theorem firstComposite?_eq_some {s i : Nat} (h : a.firstComposite? = some (s, i)) :
    ∃ t, a.transition? s i = some t ∧ t.label.isChar = false := by
  obtain ⟨t, ht, hp⟩ := firstTransition?_eq_some h
  exact ⟨t, ht, by simpa using hp⟩

theorem isSimple_expandN {n : Nat} (h : a.composites ≤ n) : (expandN n a).isSimple := by
  induction n generalizing a with
  | zero =>
    cases hc : a.firstComposite? with
    | none => exact isSimple_of_firstComposite?_eq_none hc
    | some si =>
      obtain ⟨t, ht, hchar⟩ := firstComposite?_eq_some hc
      have := composites_expand ht hchar
      omega
  | succ n ih =>
    rw [expandN]
    split
    · rename_i s i hc
      obtain ⟨t, ht, hchar⟩ := firstComposite?_eq_some hc
      have := composites_expand ht hchar
      exact ih (by omega)
    · exact isSimple_of_firstComposite?_eq_none ‹_›

theorem isSimple_simplified (a : Automaton) : a.simplified.isSimple := isSimple_expandN le_rfl

theorem extends_simplified (ha : a.WellFormed) : a.Extends a.simplified := extends_expandN ha _

theorem language_simplified (ha : a.WellFormed) : a.simplified.language = a.language :=
  (extends_simplified ha).language_eq ha

end Automaton

end RegularLang
