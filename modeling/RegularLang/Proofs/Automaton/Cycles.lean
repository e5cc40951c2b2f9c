/-
  RegularLang.Proofs.Automaton.Cycles — the search for cycles of ε-transitions. What it
  reports is one, in the order of its transitions (`epsilonRing_of_eq_some`), so that its
  states lead to each other; when it finds nothing, the order in which it left the states
  puts every state behind those that lead to it (`exists_topological`).

  `Searched` is the invariant of the search. The states seen are those of the path,
  each with an ε-transition to the one in front of it, and those that have been left,
  in order.
-/

import Mathlib.Data.List.Cycle
import RegularLang.Automaton.EpsilonFree
import RegularLang.Proofs.Automaton.Simulated

namespace RegularLang.Automaton

variable {a : Automaton} {path finished : List Nat} {seen : IndexedSet Nat} {s : Nat}

/-- Two or more states that lead to each other. -/
structure EpsilonCycle (a : Automaton) (cycle : List Nat) : Prop where
  nodup : cycle.Nodup
  two_le : 2 ≤ cycle.length
  path : ∀ p ∈ cycle, ∀ q ∈ cycle, a.EpsilonPath p q

namespace EpsilonCycle

variable {cycle : List Nat}

theorem lt_size (h : a.EpsilonCycle cycle) : ∀ p ∈ cycle, p < a.size := by
  intro p hp
  have hlen := h.two_le
  obtain ⟨q, hq, hne⟩ : ∃ q ∈ cycle, q ≠ p :=
    ((h.nodup.ne_singleton_iff p).mp fun e => by simp [e] at hlen).resolve_left
      fun e => by simp [e] at hlen
  rcases Relation.ReflTransGen.cases_head (h.path p hp q hq) with e | ⟨r, hr, -⟩
  · exact absurd e.symm hne
  · obtain ⟨t, ht, -⟩ := State.mem_epsilonTargets.mp hr
    exact lt_size_of_mem ht

theorem languageFrom_eq (h : a.EpsilonCycle cycle) {p q : Nat} (hp : p ∈ cycle) (hq : q ∈ cycle) :
    a.languageFrom p = a.languageFrom q :=
  le_antisymm (h.path q hq p hp).languageFrom_le (h.path p hp q hq).languageFrom_le

end EpsilonCycle

/-- Two or more states, each with an ε-transition to the next and the last with one to
    the first. -/
structure EpsilonRing (a : Automaton) (cycle : List Nat) : Prop where
  nodup : cycle.Nodup
  two_le : 2 ≤ cycle.length
  closed : Cycle.Chain (fun p q => q ∈ (a.stateAt p).epsilonTargets) cycle

theorem EpsilonRing.epsilonCycle {cycle : List Nat} (h : a.EpsilonRing cycle) :
    a.EpsilonCycle cycle := by
  have hpaths : Cycle.Chain a.EpsilonPath cycle := h.closed.imp fun _ _ => .single
  have hall := (Cycle.chain_iff_pairwise (r := Relation.ReflTransGen _)).mp hpaths
  exact ⟨h.nodup, h.two_le, fun p hp q hq =>
    hall p (Cycle.mem_coe_iff.mpr hp) q (Cycle.mem_coe_iff.mpr hq)⟩

/-- An order of states in which ε-transitions to other states lead further on. -/
inductive Topological (a : Automaton) : List Nat → Prop
  | nil : Topological a []
  | cons {s : Nat} {l : List Nat} : s < a.size → s ∉ l →
      (∀ q ∈ (a.stateAt s).epsilonTargets, q ≠ s → q ∈ l) → Topological a l →
      Topological a (s :: l)

theorem Topological.nodup {l : List Nat} (h : a.Topological l) : l.Nodup := by
  induction h with
  | nil => exact List.nodup_nil
  | cons _ hs _ _ ih => exact List.nodup_cons.mpr ⟨hs, ih⟩

theorem Topological.lt_size {l : List Nat} (h : a.Topological l) : ∀ s ∈ l, s < a.size := by
  induction h with
  | nil => nofun
  | cons hlt _ _ _ ih => exact List.forall_mem_cons.mpr ⟨hlt, ih⟩

theorem Topological.mem_of_mem {l : List Nat} (h : a.Topological l) : ∀ s ∈ l,
    ∀ q ∈ (a.stateAt s).epsilonTargets, q ≠ s → q ∈ l := by
  induction h with
  | nil => nofun
  | cons _ _ hs _ ih =>
    exact List.forall_mem_cons.mpr ⟨fun q hq hne => List.mem_cons_of_mem _ (hs q hq hne),
      fun r hr q hq hne => List.mem_cons_of_mem _ (ih r hr q hq hne)⟩

/-- Below `path`, the last state first, with the states of `finished` left again. -/
structure Searched (a : Automaton) (path finished : List Nat) (seen : IndexedSet Nat) : Prop where
  mem_seen_iff : ∀ {s}, s ∈ seen ↔ s ∈ path ∨ s ∈ finished
  disjoint : ∀ s ∈ path, s ∉ finished
  nodup : path.Nodup
  lt_size : ∀ s ∈ path, s < a.size
  linked : path.IsChain fun q p => q ∈ (a.stateAt p).epsilonTargets
  topological : a.Topological finished

/-- What a search may end in that is to leave all states that satisfy `P`. -/
def Ends (a : Automaton) (path finished : List Nat) (P : Nat → Prop) :
    Except (List Nat) (IndexedSet Nat) → Prop
  | .error cycle => a.EpsilonRing cycle
  | .ok seen => ∃ finished', finished ⊆ finished' ∧ (∀ s, P s → s ∈ finished') ∧
      a.Searched path finished' seen

theorem Ends.imp {P Q : Nat → Prop} (h : ∀ s, Q s → P s)
    {result : Except (List Nat) (IndexedSet Nat)} (hr : a.Ends path finished P result) :
    a.Ends path finished Q result := by
  cases result with
  | error cycle => exact hr
  | ok seen =>
    obtain ⟨finished', hsub, hdone, h'⟩ := hr
    exact ⟨finished', hsub, fun s hs => hdone s (h s hs), h'⟩

/-- States visited one after the other. -/
theorem ends_foldlM {visit : IndexedSet Nat → Nat → Except (List Nat) (IndexedSet Nat)}
    {P : Nat → Prop} {l : List Nat}
    (hvisit : ∀ s ∈ l, ∀ {seen finished}, a.Searched path finished seen →
      a.Ends path finished (fun q => q = s ∧ P q) (visit seen s))
    (h : a.Searched path finished seen) :
    a.Ends path finished (fun q => q ∈ l ∧ P q) (l.foldlM visit seen) := by
  induction l generalizing seen finished with
  | nil => exact ⟨finished, List.Subset.refl _, nofun, h⟩
  | cons s l ih =>
    obtain ⟨hs, hl⟩ := List.forall_mem_cons.mp hvisit
    have hv := hs h
    rw [List.foldlM_cons]
    cases hr : visit seen s with
    | error cycle =>
      rw [hr] at hv
      exact hv
    | ok seen' =>
      rw [hr] at hv
      obtain ⟨finished', hsub, hdone, h'⟩ := hv
      have hrest := ih hl h'
      show a.Ends path finished _ (l.foldlM visit seen')
      cases hr' : l.foldlM visit seen' with
      | error cycle =>
        rw [hr'] at hrest
        exact hrest
      | ok seen'' =>
        rw [hr'] at hrest
        obtain ⟨finished'', hsub', hdone', h''⟩ := hrest
        refine ⟨finished'', List.Subset.trans hsub hsub', ?_, h''⟩
        intro q hx
        obtain ⟨hq, hP⟩ := hx
        rcases List.mem_cons.mp hq with rfl | hq
        · exact hsub' (hdone q ⟨rfl, hP⟩)
        · exact hdone' q ⟨hq, hP⟩

/-- Entering a state that has not been seen. -/
theorem Searched.enter (h : a.Searched path finished seen) (hs : s < a.size) (hnew : s ∉ seen)
    (hlink : ∀ p ∈ path.head?, s ∈ (a.stateAt p).epsilonTargets) :
    a.Searched (s :: path) finished (seen.insert s) where
  mem_seen_iff := by
    intro q
    rw [IndexedSet.mem_insert, h.mem_seen_iff, List.mem_cons]
    tauto
  disjoint := List.forall_mem_cons.mpr ⟨fun hm => hnew (h.mem_seen_iff.mpr (.inr hm)), h.disjoint⟩
  nodup := List.nodup_cons.mpr ⟨fun hm => hnew (h.mem_seen_iff.mpr (.inl hm)), h.nodup⟩
  lt_size := List.forall_mem_cons.mpr ⟨hs, h.lt_size⟩
  linked := List.isChain_cons.mpr ⟨hlink, h.linked⟩
  topological := h.topological

/-- Leaving a state whose ε-transitions have been followed. -/
theorem Searched.leave (h : a.Searched (s :: path) finished seen)
    (hs : ∀ q ∈ (a.stateAt s).epsilonTargets, q ≠ s → q ∈ finished) :
    a.Searched path (s :: finished) seen := by
  obtain ⟨hmem, hnodup⟩ := List.nodup_cons.mp h.nodup
  obtain ⟨hlt, hlts⟩ := List.forall_mem_cons.mp h.lt_size
  obtain ⟨hd, hds⟩ := List.forall_mem_cons.mp h.disjoint
  refine ⟨?_, ?_, hnodup, hlts, h.linked.tail, .cons hlt hd hs h.topological⟩
  · intro q
    rw [h.mem_seen_iff, List.mem_cons, List.mem_cons]
    tauto
  · intro q hq
    rw [List.mem_cons, not_or]
    exact ⟨fun e => hmem (e ▸ hq), hds q hq⟩

/-- An ε-transition back to a state of the path closes a cycle. -/
theorem Searched.epsilonRing (h : a.Searched (s :: path) finished seen) {q : Nat}
    (hq : q ∈ s :: path) (hne : q ≠ s) (hedge : q ∈ (a.stateAt s).epsilonTargets) :
    a.EpsilonRing (q :: ((s :: path).takeWhile (· ≠ q)).reverse) := by
  obtain ⟨pre, post, e, hpre⟩ := List.eq_append_cons_of_mem hq
  have htake : (s :: path).takeWhile (· ≠ q) = pre := by
    have hne : ∀ r ∈ pre, decide (r ≠ q) := fun r hr => decide_eq_true fun e => hpre (e ▸ hr)
    rw [e, List.takeWhile_append_of_pos hne]
    simp
  rw [htake]
  have hnodup := h.nodup
  have hlinked := h.linked
  rw [e] at hnodup hlinked
  obtain ⟨rest, rfl⟩ : ∃ rest, pre = s :: rest := by
    cases pre with
    | nil => exact absurd (List.cons.inj e).1 hne.symm
    | cons r rest => exact ⟨rest, by rw [(List.cons.inj e).1]⟩
  refine ⟨?_, by simp, ?_⟩
  · rw [List.nodup_cons, List.mem_reverse, List.nodup_reverse]
    exact ⟨hpre, (List.nodup_append.mp hnodup).1⟩
  · -- The path has its last state first: the cycle is read from its end.
    have hback : (q :: (s :: rest ++ [q])).IsChain fun q p => q ∈ (a.stateAt p).epsilonTargets :=
      List.isChain_cons_cons.mpr ⟨hedge, (List.isChain_split.mp hlinked).1⟩
    rw [Cycle.chain_coe_cons, ← List.isChain_reverse]
    simpa using hback

/-! ## One state -/

/-- What the search does with an ε-transition of the state `s`. -/
def follow (a : Automaton) (n : Nat) (path : List Nat) (s : Nat) (seen : IndexedSet Nat) (next : Nat) :
    Except (List Nat) (IndexedSet Nat) :=
  if next = s then .ok seen
  else if next ∈ seen then
    if next ∈ s :: path then .error (next :: ((s :: path).takeWhile (· ≠ next)).reverse)
    else .ok seen
  else a.table.searchCycle n (s :: path) seen next

theorem searchCycle_succ (a : Automaton) (n : Nat) (path : List Nat) (seen : IndexedSet Nat) (s : Nat) :
    a.table.searchCycle (n + 1) path seen s =
      (a.stateAt s).epsilonTargets.foldlM (a.follow n path s) (seen.insert s) := by
  rw [← table_stateAt]
  rfl

/-- One ε-transition followed, given what the search from a state not seen yet ends in. -/
theorem ends_follow {n next : Nat} (h : a.Searched (s :: path) finished seen)
    (hnext : next ∈ (a.stateAt s).epsilonTargets)
    (hsearch : next ∉ seen →
      a.Ends (s :: path) finished (· = next) (a.table.searchCycle n (s :: path) seen next)) :
    a.Ends (s :: path) finished (fun q => q = next ∧ q ≠ s) (a.follow n path s seen next) := by
  unfold follow
  split_ifs with he hm hp
  · exact ⟨finished, List.Subset.refl _, fun q ⟨e, hq⟩ => absurd (e.trans he) hq, h⟩
  · exact h.epsilonRing hp he hnext
  · refine ⟨finished, List.Subset.refl _, ?_, h⟩
    intro q hx
    obtain ⟨rfl, -⟩ := hx
    exact (h.mem_seen_iff.mp hm).resolve_left hp
  · exact Ends.imp (fun q hq => hq.1) (hsearch hm)

theorem ends_searchCycle (ha : a.WellFormed) {n : Nat} (h : a.Searched path finished seen)
    (hs : s < a.size) (hnew : s ∉ seen)
    (hlink : ∀ p ∈ path.head?, s ∈ (a.stateAt p).epsilonTargets) (hn : a.size ≤ n + path.length) :
    a.Ends path finished (· = s) (a.table.searchCycle n path seen s) := by
  induction n generalizing path seen s finished with
  | zero =>
    have h' := h.enter hs hnew hlink
    have := length_le_of_nodup_lt _ h'.nodup h'.lt_size
    rw [List.length_cons] at this
    omega
  | succ n ih =>
    have hfollow : ∀ next ∈ (a.stateAt s).epsilonTargets, ∀ {seen finished},
        a.Searched (s :: path) finished seen →
        a.Ends (s :: path) finished (fun q => q = next ∧ q ≠ s) (a.follow n path s seen next) := by
      intro next hnext seen finished h
      refine ends_follow h hnext fun hm => ih h (epsilonTarget_lt ha hnext) hm ?_ ?_
      · intro p hp
        cases hp
        exact hnext
      · rw [List.length_cons]
        omega
    have hfold := ends_foldlM hfollow (h.enter hs hnew hlink)
    rw [searchCycle_succ]
    cases hr : (a.stateAt s).epsilonTargets.foldlM (a.follow n path s) (seen.insert s) with
    | error cycle =>
      rw [hr] at hfold
      exact hfold
    | ok seen' =>
      rw [hr] at hfold
      obtain ⟨finished', hsub, hdone, h'⟩ := hfold
      refine ⟨s :: finished', List.subset_cons_of_subset s hsub, ?_,
        h'.leave fun q hq hne => hdone q ⟨hq, hne⟩⟩
      intro q e
      subst e
      exact List.mem_cons_self ..

/-! ## All states -/

/-- The search from every state that no search before has seen. -/
def searchAll (a : Automaton) : Except (List Nat) (IndexedSet Nat) :=
  (List.range a.size).foldlM (fun seen s =>
    if s ∈ seen then .ok seen else a.table.searchCycle a.size [] seen s) .empty

theorem ends_searchAll (ha : a.WellFormed) : a.Ends [] [] (· < a.size) a.searchAll := by
  have h : a.Searched [] [] .empty :=
    ⟨by simp, nofun, List.nodup_nil, nofun, .nil, .nil⟩
  refine Ends.imp (fun q hq => ⟨List.mem_range.mpr hq, trivial⟩)
    (ends_foldlM (P := fun _ => True) (fun s hs {seen finished} h => ?_) h)
  split_ifs with hm
  · refine ⟨finished, List.Subset.refl _, ?_, h⟩
    intro q hx
    obtain ⟨rfl, -⟩ := hx
    exact (h.mem_seen_iff.mp hm).resolve_left List.not_mem_nil
  · exact Ends.imp (fun q hq => hq.1)
      (ends_searchCycle ha h (List.mem_range.mp hs) hm nofun (Nat.le_add_right ..))

theorem epsilonCycle?_eq_some {cycle : List Nat} :
    a.epsilonCycle? = some cycle ↔ a.searchAll = .error cycle := by
  show (match a.searchAll with | .error cycle => some cycle | .ok _ => none) = _ ↔ _
  cases a.searchAll <;> simp

theorem epsilonRing_of_eq_some (ha : a.WellFormed) {cycle : List Nat}
    (h : a.epsilonCycle? = some cycle) : a.EpsilonRing cycle := by
  have hends := ends_searchAll ha
  rwa [epsilonCycle?_eq_some.mp h] at hends

theorem epsilonCycle_of_eq_some (ha : a.WellFormed) {cycle : List Nat}
    (h : a.epsilonCycle? = some cycle) : a.EpsilonCycle cycle :=
  (epsilonRing_of_eq_some ha h).epsilonCycle

/-- Without cycles all states can be put in order. -/
theorem exists_topological (ha : a.WellFormed) (h : a.epsilonCycle? = none) :
    ∃ l, a.Topological l ∧ l.Perm (List.range a.size) := by
  have hends := ends_searchAll ha
  cases hr : a.searchAll with
  | error cycle =>
    rw [epsilonCycle?_eq_some.mpr hr] at h
    cases h
  | ok seen =>
    rw [hr] at hends
    obtain ⟨l, -, hdone, hl⟩ := hends
    have htop := hl.topological
    refine ⟨l, htop, (List.perm_ext_iff_of_nodup htop.nodup List.nodup_range).mpr ?_⟩
    intro s
    rw [List.mem_range]
    exact ⟨htop.lt_size s, hdone s⟩

end RegularLang.Automaton
