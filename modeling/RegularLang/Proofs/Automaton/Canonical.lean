/-
  RegularLang.Proofs.Automaton.Canonical — the numbers of the states of a minimal
  automaton depend on its language and its alphabet only (`Discovered.eq_of_language`).

  `Discovered` says that states are numbered as a search from the start finds them that
  takes the states in turn and for each the letters, ascending. The subset
  construction numbers its states so (`discovered_determinized`), and numbering
  classes by their first members keeps it (`Discovered.minimized`).
-/

import RegularLang.Proofs.Automaton.Determinized
import RegularLang.Proofs.Automaton.Minimized

namespace RegularLang

/-- An element of a list made of pieces stands in one of the pieces. -/
theorem exists_split_flatMap {α β : Type} {f : α → List β} {l : List α} {ys zs : List β} {x : β}
    (h : l.flatMap f = ys ++ x :: zs) : ∃ l₁ y l₂ us vs, l = l₁ ++ y :: l₂ ∧ f y = us ++ x :: vs ∧
      ys = l₁.flatMap f ++ us := by
  induction l generalizing ys with
  | nil => simp at h
  | cons y l ih =>
    have later {bs : List β} (h : l.flatMap f = bs ++ x :: zs) : ∃ l₁ z l₂ us vs,
        y :: l = l₁ ++ z :: l₂ ∧ f z = us ++ x :: vs ∧ f y ++ bs = l₁.flatMap f ++ us := by
      obtain ⟨l₁, z, l₂, us, vs, rfl, hz, rfl⟩ := ih h
      exact ⟨y :: l₁, z, l₂, us, vs, rfl, hz, by simp⟩
    rw [List.flatMap_cons] at h
    rcases List.append_eq_append_iff.mp h with ⟨bs, rfl, hl⟩ | ⟨bs, hy, hl⟩
    · exact later hl
    · cases bs with
      | nil =>
        have := @later [] hl.symm
        rwa [hy, List.append_nil, List.append_nil] at this
      | cons b bs =>
        obtain ⟨rfl, -⟩ := List.cons.inj hl
        exact ⟨[], y, l, ys, bs, rfl, hy, rfl⟩

/-- In ascending order, whatever is smaller than an element stands before it. -/
theorem SortedSet.mem_of_number_lt {α : Type} [Numbered α] {s : SortedSet α} {l l' : List α}
    {x y : α} (h : s.toList = l ++ x :: l') (hy : y ∈ s) (hlt : number y < number x) : y ∈ l := by
  have hs := s.ascending
  rw [h] at hs
  have hx := (List.pairwise_cons.mp (List.pairwise_append.mp hs).2.1).1
  rw [mem_def, h] at hy
  rcases List.mem_append.mp hy with hy | hy
  · exact hy
  · rcases List.mem_cons.mp hy with rfl | hy
    · exact absurd hlt (Nat.lt_irrefl _)
    · exact absurd hlt (Nat.lt_asymm (hx y hy))

namespace Automaton

variable {a b : Automaton} {δ δ' : Nat → Char → Nat}

/-! ## Order of discovery -/

/-- The search looks at the letter `d` of state `q` before the letter `c` of state `p`. -/
def Before (q : Nat) (d : Char) (p : Nat) (c : Char) : Prop := q < p ∨ q = p ∧ number d < number c

/-- Every state but the start, which is 0, is found from a state before it, and whatever
    is looked at earlier leads to states before it. -/
structure Discovered (a : Automaton) (δ : Nat → Char → Nat) : Prop where
  start_eq : a.start = 0
  found : ∀ j < a.size, 0 < j → ∃ p < j, ∃ c ∈ a.alphabet, δ p c = j ∧
    ∀ q, ∀ d ∈ a.alphabet, Before q d p c → δ q d < j

/-! ### Sets of states -/

section

variable {j : Nat} {S : StateSet} {F₁ F₂ us : List StateSet}

/-- The place `j` is first reached by a move from a set, with all moves on smaller
    letters and from sets before it leading to places before `j`. -/
theorem exists_arriving_move (ha : a.WellFormed) (hpos : 0 < a.size)
    (hj : j < a.subsets.toList.length) (hj0 : 0 < j) :
    ∃ F₁ S F₂ A₁ c A₂, a.subsets.toList = F₁ ++ S :: F₂ ∧ a.alphabet.toList = A₁ ++ c :: A₂ ∧
      a.subsets.toList[j]? = some (a.table.successors S c) ∧
      a.subsets.toList.take j = insertAllNew [] (.singleton a.start ::
        (F₁.flatMap (a.table.moves a.alphabet) ++ A₁.map (a.table.successors S))) := by
  obtain ⟨T, hT⟩ : ∃ T, a.subsets.toList[j]? = some T := ⟨_, List.getElem?_eq_getElem hj⟩
  have he := subsets_eq ha hpos
  obtain ⟨ys, zs, hsplit, htake⟩ := exists_arrival (he ▸ hT)
  rw [he] at htake
  cases ys with
  | nil =>
    have := congrArg List.length htake
    rw [List.length_take, insertAllNew, List.foldl_nil, List.length_nil] at this
    omega
  | cons root ys =>
    obtain ⟨rfl, hflat⟩ := List.cons.inj hsplit
    obtain ⟨F₁, S, F₂, us, vs, hF, hS, rfl⟩ := exists_split_flatMap hflat
    obtain ⟨A₁, A₂', hA, rfl, hA₂⟩ := List.map_eq_append_iff.mp hS
    obtain ⟨c, A₂, rfl, rfl, -⟩ := List.map_eq_cons_iff.mp hA₂
    exact ⟨F₁, S, F₂, A₁, c, A₂, hF, hA, hT, htake.symm⟩

/-- What has arrived is numbered below `j`. -/
theorem idx_subsets_lt (hj : j < a.subsets.toList.length)
    (htake : a.subsets.toList.take j = insertAllNew [] (.singleton a.start :: us)) {U : StateSet}
    (hU : U ∈ us) : a.subsets.idx U < j := by
  have hm : U ∈ a.subsets.toList.take j := by
    rw [htake, mem_insertAllNew]
    exact .inr (List.mem_cons_of_mem _ hU)
  obtain ⟨i, hi, e⟩ := List.mem_take_iff_getElem.mp hm
  rw [IndexedSet.idx_eq (List.getElem?_eq_some_iff.mpr ⟨by omega, e⟩)]
  omega

/-- The sets before the place `j` lead to the set there or to one after it. -/
theorem length_lt_of_take (ha : a.WellFormed) (hpos : 0 < a.size)
    (hj : j < a.subsets.toList.length) (hF : a.subsets.toList = F₁ ++ S :: F₂)
    (htake : a.subsets.toList.take j = insertAllNew []
      (.singleton a.start :: (F₁.flatMap (a.table.moves a.alphabet) ++ us))) : F₁.length < j := by
  by_contra hle
  have hprefix : a.subsets.toList.take j <+: F₁ := by
    rw [hF, List.take_append_of_le_length (Nat.not_lt.mp hle)]
    exact List.take_prefix j F₁
  obtain ⟨F₃, rfl⟩ := hprefix
  have hlen := (explored_subsets ha hpos).lt_length j hj
  have hsub : ∀ U ∈ insertAllNew [] ([.singleton a.start] ++
      (a.subsets.toList.take j).flatMap (a.table.moves a.alphabet)),
      U ∈ a.subsets.toList.take j := by
    intro U hU
    rw [htake, mem_insertAllNew]
    apply (mem_insertAllNew.mp hU).imp_right
    intro hU
    rcases List.mem_cons.mp hU with rfl | hU
    · exact List.mem_cons_self ..
    · rw [List.flatMap_append]
      exact List.mem_cons_of_mem _ (List.mem_append_left _ (List.mem_append_left _ hU))
  have := ((nodup_insertAllNew _ List.nodup_nil).subperm hsub).length_le
  rw [List.length_take] at this
  omega

end

theorem discovered_determinized (ha : a.WellFormed) (hpos : 0 < a.size) :
    a.determinized.Discovered a.subsetStep where
  start_eq := rfl
  found := by
    intro j hj hj0
    rw [size_determinized] at hj
    obtain ⟨F₁, S, F₂, A₁, c, A₂, hF, hA, hT, htake⟩ := exists_arriving_move ha hpos hj hj0
    have hcm : c ∈ a.alphabet := by
      rw [SortedSet.mem_def, hA]
      exact List.mem_append_right _ (List.mem_cons_self ..)
    have hS : a.subsets.toList[F₁.length]? = some S := by
      rw [hF]
      simp
    refine ⟨F₁.length, length_lt_of_take ha hpos hj hF htake, c, hcm, ?_, ?_⟩
    · rw [subsetStep_eq hS]
      exact IndexedSet.idx_eq hT
    · intro q d hd hb
      rcases hb with hlt | ⟨rfl, hlt⟩
      · obtain ⟨T, hT⟩ : ∃ T, F₁[q]? = some T := ⟨_, List.getElem?_eq_getElem hlt⟩
        have hq : a.subsets.toList[q]? = some T := by
          rw [hF, List.getElem?_append_left hlt, hT]
        rw [subsetStep_eq hq]
        apply idx_subsets_lt hj htake
        apply List.mem_append_left
        exact List.mem_flatMap.mpr ⟨T, List.mem_of_getElem? hT, mem_moves.mpr ⟨d, hd, rfl⟩⟩
      · rw [subsetStep_eq hS]
        apply idx_subsets_lt hj htake
        apply List.mem_append_right
        exact List.mem_map_of_mem (SortedSet.mem_of_number_lt hA hd hlt)

/-! ## Classes -/

theorem classOf_start (ha : a.WellFormed) (hc : a.isComplete) (hpos : 0 < a.size) :
    a.classOf 0 = 0 := by
  by_contra h
  obtain ⟨r, hr, -⟩ := ordered_classes ha hc (getElem?_classes ha hc hpos) 0 (Nat.pos_of_ne_zero h)
  omega

/-- The states before the first member of a class are of earlier classes. -/
theorem FirstMember.classOf_lt (ha : a.WellFormed) (hc : a.isComplete) {k s r : Nat}
    (h : a.FirstMember k s) (hr : r < s) : a.classOf r < k := by
  have hfirst := ((firsts_classes ha hc).eq_some h).2
  have hrlt := hr.trans (h.lt_size ha hc)
  by_contra hle
  rcases Nat.lt_or_eq_of_le (Nat.not_lt.mp hle) with hlt | e
  · obtain ⟨t, ht, e⟩ := ordered_classes ha hc (getElem?_classes ha hc hrlt) k hlt
    exact hfirst t (ht.trans hr) (by rwa [Array.getElem?_toList])
  · exact hfirst r hr (by rw [Array.getElem?_toList, getElem?_classes ha hc hrlt, e])

/-- The first member of a class stands before its other members. -/
theorem FirstMember.le (ha : a.WellFormed) (hc : a.isComplete) {k s r : Nat} (h : a.FirstMember k s)
    (hr : a.classOf r = k) : s ≤ r := by
  by_contra hlt
  have := h.classOf_lt ha hc (Nat.not_le.mp hlt)
  omega

theorem Tabular.step?_eq (h : a.Tabular δ) {p : Nat} (hp : p < a.size) {c : Char}
    (hc : c ∈ a.alphabet) : a.step? p c = some (δ p c) := by
  obtain ⟨q, hq⟩ := exists_step? h.isComplete hp hc
  obtain ⟨d, -, e⟩ := h.mem_transitions (step?_eq_some hq)
  cases e
  exact hq

theorem Tabular.step?_eq_some_iff (h : a.Tabular δ) {p q : Nat} {c : Char} :
    a.step? p c = some q ↔ p < a.size ∧ c ∈ a.alphabet ∧ δ p c = q := by
  constructor
  · intro hq
    have ht := step?_eq_some hq
    obtain ⟨d, hd, e⟩ := h.mem_transitions ht
    cases e
    exact ⟨lt_size_of_mem ht, hd, rfl⟩
  · intro hx
    obtain ⟨hp, hc, rfl⟩ := hx
    exact h.step?_eq hp hc

theorem Discovered.minimized (h : a.Discovered δ) (htab : a.Tabular δ) (hpos : 0 < a.size) :
    a.minimized.Discovered a.classStep := by
  have ha : a.WellFormed := htab.wellFormed (h.start_eq ▸ hpos)
  have hc := htab.isComplete
  refine ⟨?_, ?_⟩
  · show a.classOf a.start = 0
    rw [h.start_eq, classOf_start ha hc hpos]
  · intro j hj hj0
    obtain ⟨s, hs⟩ := exists_firstMember_of_lt hj
    have hslt := hs.lt_size ha hc
    have hs0 : 0 < s := by
      apply Nat.pos_of_ne_zero
      intro e
      have := hs.classOf_eq ha hc
      rw [e, classOf_start ha hc hpos] at this
      omega
    obtain ⟨p, hp, c, hcm, hstep, hbefore⟩ := h.found s hslt hs0
    have hplt := hp.trans hslt
    obtain ⟨r, hr⟩ := exists_firstMember ha hc hplt
    have hrlt := hr.lt_size ha hc
    refine ⟨a.classOf p, hs.classOf_lt ha hc hp, c, hcm, ?_, ?_⟩
    · have hr' := htab.step?_eq hrlt hcm
      rw [classStep_eq hr hr', classOf_step_eq ha hc (hr.classOf_eq ha hc) hr'
        (htab.step?_eq hplt hcm) hcm, hstep, hs.classOf_eq ha hc]
    · intro q d hd hb
      -- The first member of the class `q` is looked at before the state `p`.
      obtain ⟨t, ht, htb⟩ : ∃ t, a.FirstMember q t ∧ Before t d p c := by
        rcases hb with hlt | ⟨rfl, hlt⟩
        · obtain ⟨t, ht⟩ := exists_firstMember_of_lt (hlt.trans (classOf_lt_size ha hc hplt))
          refine ⟨t, ht, .inl ?_⟩
          by_contra hle
          rcases Nat.lt_or_eq_of_le (Nat.not_lt.mp hle) with h | rfl
          · have := ht.classOf_lt ha hc h
            omega
          · have := ht.classOf_eq ha hc
            omega
        · refine ⟨r, hr, ?_⟩
          rcases Nat.lt_or_eq_of_le (hr.le ha hc rfl) with h | rfl
          · exact .inl h
          · exact .inr ⟨rfl, hlt⟩
      rw [classStep_eq ht (htab.step?_eq (ht.lt_size ha hc) hd)]
      exact hs.classOf_lt ha hc (hbefore t d hd htb)

/-! ## Uniqueness -/

/-- Different states have different words. -/
def Reduced (a : Automaton) : Prop :=
  ∀ p < a.size, ∀ q < a.size, a.languageFrom p = a.languageFrom q → p = q

theorem reduced_minimized (ha : a.WellFormed) (hc : a.isComplete) : a.minimized.Reduced :=
  fun _ hp _ hq => languageFrom_minimized_inj ha hc hp hq

theorem Tabular.languageFrom_step (h : a.Tabular δ) (h' : b.Tabular δ') {p q : Nat}
    (hp : p < a.size) (hq : q < b.size) (hl : a.languageFrom p = b.languageFrom q) {c : Char}
    (hc : c ∈ a.alphabet) (hc' : c ∈ b.alphabet) :
    a.languageFrom (δ p c) = b.languageFrom (δ' q c) := by
  ext w
  have hw : c :: w ∈ a.languageFrom p ↔ c :: w ∈ b.languageFrom q := by rw [hl]
  rwa [h.cons_mem_languageFrom_iff hp, h'.cons_mem_languageFrom_iff hq, and_iff_right hc,
    and_iff_right hc'] at hw

/-- A state that `b` has too if states before it have the same words in both. -/
theorem Discovered.agree (h : a.Discovered δ) (h' : b.Discovered δ') (htab : a.Tabular δ)
    (htab' : b.Tabular δ') (hred : a.Reduced) (hred' : b.Reduced)
    (hal : a.alphabet = b.alphabet) {j : Nat}
    (ih : ∀ i < j, i < a.size ∧ i < b.size ∧ a.languageFrom i = b.languageFrom i) (hj : j < a.size)
    (hj0 : 0 < j) : j < b.size ∧ a.languageFrom j = b.languageFrom j := by
  obtain ⟨p, hp, c, hc, rfl, hbefore⟩ := h.found j hj hj0
  obtain ⟨hpa, hpb, hpl⟩ := ih p hp
  have hl := htab.languageFrom_step htab' hpa hpb hpl hc (hal ▸ hc)
  have hlt := htab'.lt_size p hpb c (hal ▸ hc)
  suffices e : δ' p c = δ p c by
    rw [e] at hl hlt
    exact ⟨hlt, hl⟩
  rcases Nat.lt_trichotomy (δ' p c) (δ p c) with hless | e | hmore
  · -- A state before `δ p c` would have its words.
    obtain ⟨hia, -, hil⟩ := ih _ hless
    exact absurd (hred _ hia _ hj (hil.trans hl.symm)) hless.ne
  · exact e
  · -- Then `b` has found the state `δ p c` elsewhere, and cannot have looked there yet.
    obtain ⟨q, hq, d, hd, hstep, hbefore'⟩ := h'.found (δ p c) (hmore.trans hlt) hj0
    obtain ⟨hqa, hqb, hql⟩ := ih q hq
    have hd' := hd
    rw [← hal] at hd
    have hdl := htab.languageFrom_step htab' hqa hqb hql hd hd'
    rw [hstep] at hdl
    have not_before : ¬Before q d p c := by
      intro hb
      obtain ⟨-, hib, hil⟩ := ih _ (hbefore q d hd hb)
      have := hred' _ hib _ (hmore.trans hlt) (hil.symm.trans hdl)
      exact absurd (hbefore q d hd hb) this.not_lt
    rcases Nat.lt_trichotomy q p with hqp | rfl | hpq
    · exact absurd (.inl hqp) not_before
    · rcases Nat.lt_trichotomy (number d) (number c) with hdc | e | hcd
      · exact absurd (.inr ⟨rfl, hdc⟩) not_before
      · exact absurd hstep (number_inj e ▸ hmore.ne')
      · have := hbefore' q c (hal ▸ hc) (.inr ⟨rfl, hcd⟩)
        omega
    · have := hbefore' p c (hal ▸ hc) (.inl hpq)
      omega

/-- Two reduced automata whose states are numbered in the order of discovery are equal
    if they have the same language and the same alphabet. -/
theorem Discovered.eq_of_language (h : a.Discovered δ) (h' : b.Discovered δ') (htab : a.Tabular δ)
    (htab' : b.Tabular δ') (hred : a.Reduced) (hred' : b.Reduced) (hal : a.alphabet = b.alphabet)
    (hpos : 0 < a.size) (hpos' : 0 < b.size) (hl : a.language = b.language) : a = b := by
  have hall : ∀ j, j < a.size ∨ j < b.size →
      j < a.size ∧ j < b.size ∧ a.languageFrom j = b.languageFrom j := by
    intro j
    induction j using Nat.strong_induction_on with
    | h j ih =>
      intro hj
      by_cases hj0 : j = 0
      · subst hj0
        rw [language_eq_languageFrom, language_eq_languageFrom, h.start_eq, h'.start_eq] at hl
        exact ⟨hpos, hpos', hl⟩
      · have hj0 := Nat.pos_of_ne_zero hj0
        rcases hj with hj | hj
        · have ih' := fun i hi => ih i hi (.inl (hi.trans hj))
          obtain ⟨hb, e⟩ := h.agree h' htab htab' hred hred' hal ih' hj hj0
          exact ⟨hj, hb, e⟩
        · have ih' := fun i hi => ih i hi (.inr (hi.trans hj))
          obtain ⟨hb, e⟩ := h'.agree h htab' htab hred' hred hal.symm
            (fun i hi => ⟨(ih' i hi).2.1, (ih' i hi).1, (ih' i hi).2.2.symm⟩) hj hj0
          exact ⟨hb, hj, e.symm⟩
  have hsize : a.size = b.size := by
    rcases Nat.lt_trichotomy a.size b.size with hlt | e | hlt
    · exact absurd (hall _ (.inr hlt)).1 (Nat.lt_irrefl _)
    · exact e
    · exact absurd (hall _ (.inl hlt)).2.1 (Nat.lt_irrefl _)
  refine htab.eq_of htab' hsize (h.start_eq.trans h'.start_eq.symm) hal ?_ ?_
  · intro p hp
    obtain ⟨-, -, e⟩ := hall p (.inl hp)
    apply Bool.eq_iff_iff.mpr
    rw [← htab.nil_mem_languageFrom_iff, e, htab'.nil_mem_languageFrom_iff]
  · intro p hp c hc
    obtain ⟨-, hpb, e⟩ := hall p (.inl hp)
    have hstep := htab.languageFrom_step htab' hp hpb e hc (hal ▸ hc)
    have hlt := htab.lt_size p hp c hc
    have hlt' := htab'.lt_size p hpb c (hal ▸ hc)
    obtain ⟨-, -, e'⟩ := hall _ (.inl hlt)
    exact hred' _ (hsize ▸ hlt) _ hlt' (e'.symm.trans hstep)

end Automaton

end RegularLang
