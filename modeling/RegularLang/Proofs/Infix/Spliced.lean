/-
  RegularLang.Proofs.Infix.Spliced — what the text of a tidy regex is read as.

  A concatenation is written without parentheses, so that one in another is not told apart
  from its operands: `Regex.spliced` puts them in its place, and that is exactly what the
  text is read as (`parse_render_spliced`). Everything else is kept. Sums and starred
  sequences stand in parentheses, and in a tidy regex the simplifying constructors meet
  nothing on the way back that they would change.
-/

import RegularLang.Proofs.Built

namespace RegularLang

theorem length_le_length_flatMap {α β : Type} {f : α → List β} {l : List α}
    (h : ∀ x ∈ l, f x ≠ []) : l.length ≤ (l.flatMap f).length := by
  have hpos : ∀ n ∈ l.map fun x => (f x).length, 1 ≤ n :=
    List.forall_mem_map.mpr fun x hx => List.length_pos_iff.mpr (h x hx)
  have hle := List.length_le_sum_of_one_le _ hpos
  rwa [List.length_map, ← List.length_flatMap] at hle

namespace Regex

variable {r e f : Regex} {es fs : List Regex}

/-! ## Concatenations in concatenations -/

/-- What stands for the regex in a concatenation. -/
def factors : Regex → List Regex
  | .concat es => es
  | r => [r]

mutual

/-- With its operands in place of every concatenation that is an operand of one. -/
def spliced : Regex → Regex
  | .char c => .char c
  | .concat es => .concat (splicedFactors es)
  | .sum es => .sum (splicedAll es)
  | .star e => .star e.spliced

def splicedFactors : List Regex → List Regex
  | [] => []
  | e :: es => e.spliced.factors ++ splicedFactors es

def splicedAll : List Regex → List Regex
  | [] => []
  | e :: es => e.spliced :: splicedAll es

end

/-- No concatenation is an operand of one. -/
def Flat (r : Regex) : Prop := ∀ es fs, Within (.concat es) r → .concat fs ∉ es

theorem splicedFactors_eq (es : List Regex) :
    splicedFactors es = es.flatMap fun e => e.spliced.factors := by
  induction es <;> simp [splicedFactors, *]

theorem splicedAll_eq (es : List Regex) : splicedAll es = es.map spliced := by
  induction es <;> simp [splicedAll, *]

@[simp] theorem spliced_char (c : Char) : (char c).spliced = char c := rfl

@[simp] theorem spliced_concat (es : List Regex) :
    (concat es).spliced = concat (es.flatMap fun e => e.spliced.factors) := by
  rw [spliced, splicedFactors_eq]

@[simp] theorem spliced_sum (es : List Regex) : (sum es).spliced = sum (es.map spliced) := by
  rw [spliced, splicedAll_eq]

@[simp] theorem spliced_star (e : Regex) : (star e).spliced = star e.spliced := rfl

@[simp] theorem factors_concat (es : List Regex) : (concat es).factors = es := rfl

theorem factors_of_ne_concat (h : ∀ es, r ≠ .concat es) : r.factors = [r] := by
  cases r with
  | concat es => exact absurd rfl (h es)
  | char | sum | star => rfl

theorem Flat.operand (h : r.Flat) (he : e ∈ r.operands) : e.Flat :=
  fun es fs hw => h es fs (.operand he hw)

theorem Flat.factor (h : r.Flat) (hf : f ∈ r.factors) : f.Flat := by
  cases r with
  | concat es => exact h.operand hf
  | char | sum | star =>
    obtain rfl := List.mem_singleton.mp hf
    exact h

/-- Where there is nothing to splice, nothing changes. -/
theorem Flat.spliced_eq (h : r.Flat) : r.spliced = r := by
  induction r with
  | char c => rfl
  | concat es ih =>
    have hfactors : ∀ e ∈ es, e.spliced.factors = [e] := by
      intro e he
      rw [ih e he (h.operand he)]
      exact factors_of_ne_concat fun fs hfs => h es fs .refl (hfs ▸ he)
    rw [spliced_concat, List.flatMap_congr hfactors, List.flatMap_singleton']
  | sum es ih =>
    rw [spliced_sum, List.map_congr_left fun e he => ih e he (h.operand he), List.map_id']
  | star e ih => rw [spliced_star, ih (h.operand (List.mem_singleton_self e))]

theorem ne_concat_of_mem_factors (hf : f ∈ r.spliced.factors) : f ≠ .concat fs := by
  induction r with
  | concat es ih =>
    rw [spliced_concat, factors_concat] at hf
    obtain ⟨e, he, hf⟩ := List.mem_flatMap.mp hf
    exact ih e he hf
  | char | sum | star =>
    simp only [spliced_char, spliced_sum, spliced_star] at hf
    obtain rfl := List.mem_singleton.mp hf
    exact nofun

/-- Splicing leaves no concatenation in another. -/
theorem flat_spliced (r : Regex) : r.spliced.Flat := by
  induction r with
  | char c =>
    intro es fs hw
    cases hw with
    | operand he => cases he
  | concat gs ih =>
    intro es fs hw
    rw [spliced_concat] at hw
    cases hw with
    | refl =>
      intro hmem
      obtain ⟨e, he, hf⟩ := List.mem_flatMap.mp hmem
      exact ne_concat_of_mem_factors hf rfl
    | operand hf hw =>
      obtain ⟨e, he, hf⟩ := List.mem_flatMap.mp hf
      exact (ih e he).factor hf es fs hw
  | sum gs ih =>
    intro es fs hw
    rw [spliced_sum] at hw
    cases hw with
    | operand hf hw =>
      obtain ⟨e, he, rfl⟩ := List.mem_map.mp hf
      exact ih e he es fs hw
  | star e ih =>
    intro es fs hw
    cases hw with
    | operand hf hw =>
      obtain rfl := List.mem_singleton.mp hf
      exact ih es fs hw

/-! ### Text -/

theorem flatMap_render_factors (r : Regex) : r.factors.flatMap render = r.render := by
  cases r with
  | concat es => rw [factors_concat, render_concat]
  | char | sum | star => exact List.flatMap_singleton ..

theorem isUnit_spliced (r : Regex) : r.spliced.isUnit = r.isUnit := by
  cases r with
  | sum es => cases es <;> rfl
  | char | concat | star => rfl

/-- The text does not show what is spliced. -/
theorem render_spliced (r : Regex) : r.spliced.render = r.render := by
  induction r with
  | char c => rfl
  | concat es ih =>
    rw [spliced_concat, render_concat, render_concat, List.flatMap_assoc]
    refine List.flatMap_congr fun e he => ?_
    rw [flatMap_render_factors, ih e he]
  | sum es ih =>
    cases es with
    | nil => rfl
    | cons e es =>
      obtain ⟨he, hes⟩ := List.forall_mem_cons.mp ih
      rw [spliced_sum, List.map_cons, render_sum_cons, render_sum_cons, he, List.flatMap_map]
      rw [List.flatMap_congr fun f hf => congrArg ('+' :: ·) (hes f hf)]
  | star e ih => rw [spliced_star, render, render, isUnit_spliced, ih]

/-! ### Tidy regexes -/

theorem spliced_eq_zero_iff : r.spliced = zero ↔ r = zero := by
  cases r <;> simp [zero]

theorem spliced_eq_eps_iff : r.spliced = eps ↔ r = eps := by
  cases r <;> simp [eps]

theorem Tidy.factors_ne_nil (h : r.Tidy) : r.spliced.factors ≠ [] := by
  induction h with
  | @concat es hlen _ _ ih =>
    cases es with
    | nil => cases hlen
    | cons e es =>
      rw [spliced_concat, factors_concat, List.flatMap_cons]
      exact List.append_ne_nil_of_left_ne_nil (ih e (List.mem_cons_self ..)) _
  | char | zero | sum | star => exact List.cons_ne_nil _ _

theorem Tidy.mem_factors (h : r.Tidy) (h0 : r ≠ .zero) (h1 : r ≠ .eps) :
    ∀ f ∈ r.spliced.factors, f ≠ .zero ∧ f ≠ .eps := by
  induction h with
  | concat _ _ hne ih =>
    intro f hf
    rw [spliced_concat, factors_concat] at hf
    obtain ⟨e, he, hf⟩ := List.mem_flatMap.mp hf
    exact ih e he (hne e he).1 (hne e he).2 f hf
  | char | zero | sum | star =>
    intro f hf
    obtain rfl := List.mem_singleton.mp hf
    exact ⟨mt spliced_eq_zero_iff.mp h0, mt spliced_eq_eps_iff.mp h1⟩

/-- Between such operands concatenation has nothing to simplify. -/
theorem product_eq_concat (hlen : 2 ≤ fs.length) (hne : ∀ f ∈ fs, f ≠ .zero ∧ f ≠ .eps)
    (hconcat : ∀ f ∈ fs, ∀ es, f ≠ .concat es) : product fs = .concat fs := by
  have hzero : fs.any isZero = false :=
    List.any_eq_false.mpr fun f hf => mt isZero_iff.mp (hne f hf).1
  have heps : fs.filter (!·.isEps) = fs :=
    List.filter_eq_self.mpr fun f hf => by simpa [isEps_eq_false_iff] using (hne f hf).2
  rw [product, hzero, if_neg Bool.false_ne_true, heps]
  rcases fs with _ | ⟨f, _ | ⟨g, fs⟩⟩
  · cases hlen
  · simp at hlen
  · have hf := hconcat f (List.mem_cons_self ..)
    cases f with
    | concat es => exact absurd rfl (hf es)
    | char | sum | star => rfl

theorem foldl_add_eq_sum (hes : es ≠ []) (hne : ∀ f ∈ e :: es, f ≠ .zero)
    (hsum : ∀ fs, e ≠ .sum fs) : es.foldl (· + ·) e = .sum (e :: es) := by
  obtain ⟨he, hne⟩ := List.forall_mem_cons.mp hne
  have hfilter : es.filter (!·.isZero) = es :=
    List.filter_eq_self.mpr fun f hf => by simpa [isZero_eq_false_iff] using hne f hf
  rw [foldl_add es (isZero_eq_false_iff.mpr he), hfilter]
  obtain ⟨f, es, rfl⟩ := List.exists_cons_of_ne_nil hes
  cases e with
  | sum fs => exact absurd rfl (hsum fs)
  | char | concat | star => rfl

theorem Tidy.product_factors (h : r.Tidy) : product r.spliced.factors = r.spliced := by
  cases h with
  | @concat es hlen hes hne =>
    have hlength := length_le_length_flatMap fun e he => (hes e he).factors_ne_nil
    rw [spliced_concat, factors_concat]
    refine product_eq_concat (hlen.trans hlength) ?_ ?_
    · intro f hf
      obtain ⟨e, he, hf⟩ := List.mem_flatMap.mp hf
      exact (hes e he).mem_factors (hne e he).1 (hne e he).2 f hf
    · intro f hf gs
      obtain ⟨e, -, hf⟩ := List.mem_flatMap.mp hf
      exact ne_concat_of_mem_factors hf
  | char | zero | sum | star => exact product_singleton _

theorem closure_spliced (h0 : e ≠ .zero) (h1 : e ≠ .eps) (hstar : ∀ f, e ≠ .star f) :
    e.spliced.closure = .star e.spliced := by
  have hne : ¬(e.spliced.isEps || e.spliced.isZero) := by
    rw [Bool.or_eq_true, isEps_iff, isZero_iff, spliced_eq_eps_iff, spliced_eq_zero_iff]
    exact not_or.mpr ⟨h1, h0⟩
  unfold closure
  rw [if_neg hne]
  cases e with
  | star f => exact absurd rfl (hstar f)
  | char | concat | sum => rfl

end Regex

namespace Infix

open Regex

variable {ts us : List Token} {e f r : Regex} {es fs : List Regex}

/-! ## Derivations -/

theorem DeriveUnits.append (h : DeriveUnits ts es) (hu : DeriveUnits us fs) :
    DeriveUnits (ts ++ us) (fs ++ es) := by
  induction hu with
  | nil => rwa [List.append_nil]
  | snoc _ he ih =>
    rw [← List.append_assoc]
    exact ih.snoc he

theorem Derives.units (h : Derives .unit ts e) : DeriveUnits ts [e] := DeriveUnits.nil.snoc h

/-- More terms behind the first part of a sum. -/
theorem Derives.terms (h : ∀ e ∈ es, Derives .sequence e.tokens e.spliced)
    (hd : Derives .sum ts f) :
    Derives .sum (ts ++ tokensTerms es) ((es.map spliced).foldl (· + ·) f) := by
  induction es generalizing ts f with
  | nil => rwa [tokensTerms, List.append_nil]
  | cons e es ih =>
    obtain ⟨he, hes⟩ := List.forall_mem_cons.mp h
    simpa [tokensTerms] using ih hes (hd.addTerm he)

theorem derives_char (c : Char) : Derives .atom (Regex.char c).tokens (.char c) := by
  rw [tokens]
  split_ifs with h
  · exact h ▸ .emptyWord
  · exact .letter c

/-- The tokens of `r` are those of the units that `r` is when it is spliced. -/
def Splices (r : Regex) : Prop := DeriveUnits r.tokens r.spliced.factors.reverse

theorem Splices.sequence (h : Splices r) (ht : r.Tidy) : Derives .sequence r.tokens r.spliced := by
  have hd := DeriveUnits.sequence h (List.reverse_ne_nil_iff.mpr ht.factors_ne_nil)
  rwa [List.reverse_reverse, ht.product_factors] at hd

theorem Splices.of_unit (h : Derives .unit r.tokens r.spliced) (hr : ∀ es, r.spliced ≠ .concat es) :
    Splices r := by
  rw [Splices, factors_of_ne_concat hr]
  exact h.units

theorem splices_concat (h : ∀ e ∈ es, Splices e) : Splices (.concat es) := by
  rw [Splices, spliced_concat, factors_concat]
  induction es with
  | nil => exact .nil
  | cons e es ih =>
    obtain ⟨he, hes⟩ := List.forall_mem_cons.mp h
    rw [tokens_concat_cons, List.flatMap_cons, List.reverse_append]
    exact DeriveUnits.append he (ih hes)

theorem derives_sum (hes : es ≠ []) (hne : ∀ f ∈ e :: es, f ≠ .zero) (hsum : ∀ fs, e ≠ .sum fs)
    (h : ∀ f ∈ e :: es, Derives .sequence f.tokens f.spliced) :
    Derives .atom (Regex.sum (e :: es)).tokens (.spliced (.sum (e :: es))) := by
  obtain ⟨he, hterms⟩ := List.forall_mem_cons.mp h
  have hvalue : (es.map spliced).foldl (· + ·) e.spliced = .spliced (.sum (e :: es)) := by
    rw [spliced_sum, List.map_cons]
    refine foldl_add_eq_sum (by simpa using hes) ?_ ?_
    · rw [← List.map_cons, List.forall_mem_map]
      exact fun f hf => mt spliced_eq_zero_iff.mp (hne f hf)
    · intro fs
      cases e <;> simp_all
  rw [tokens_sum_cons, ← hvalue]
  exact .group (Derives.terms hterms he.firstTerm)

theorem derives_spliced (h : r.Tidy) :
    Splices r ∧ (r.isUnit → Derives .atom r.tokens r.spliced) := by
  induction h with
  | char c => exact ⟨.of_unit (.bare (derives_char c)) nofun, fun _ => derives_char c⟩
  | zero => exact ⟨.of_unit (.bare .nothing) nofun, nofun⟩
  | concat _ _ _ ih => exact ⟨splices_concat fun e he => (ih e he).1, nofun⟩
  | sum hes htidy hne hsum ih =>
    have hatom := derives_sum hes hne hsum fun f hf => (ih f hf).1.sequence (htidy f hf)
    exact ⟨.of_unit (.bare hatom) (by simp), fun _ => hatom⟩
  | @star e he h0 h1 hstar ih =>
    refine ⟨.of_unit ?_ (by simp), nofun⟩
    rw [spliced_star, ← closure_spliced h0 h1 hstar]
    cases hu : e.isUnit with
    | true =>
      rw [tokens_star_of_isUnit hu]
      exact .starred 0 (ih.2 hu)
    | false =>
      rw [tokens_star_of_not_isUnit hu]
      exact .starred 0 (.group (ih.1.sequence he).firstTerm)

/-- The text of a regex that the operations give is read as the same regex but for the
    concatenations in concatenations, which are spliced. So it is read as the regex itself
    where there is none, and the regex read has the same text. -/
theorem parse_render_spliced (h : r.Built) :
    parse r.render = .ok r.spliced ∧ r.spliced.render = r.render ∧
      (r.Flat → parse r.render = .ok r) := by
  have hparse : parse r.render = .ok r.spliced := by
    have hd := (derives_spliced h.tidy).1.sequence h.tidy
    exact Means.parse_eq_ok ⟨_, r.spells_render, hd.firstTerm⟩
  refine ⟨hparse, render_spliced r, ?_⟩
  intro hflat
  rw [hparse, hflat.spliced_eq]

/-- Read once, the regex comes back as it is from then on. -/
theorem parse_render_spliced_nested :
    let r : Regex := .star (.concat [.char 'a', .concat [.char 'b', .sum [.char '1', .eps]]])
    let n : Regex := .star (.concat [.char 'a', .char 'b', .sum [.char '1', .eps]])
    r.Built ∧ r.render = "(ab(\\1+ε))*".toList ∧ parse r.render = .ok n ∧
      n.Built ∧ n.Flat ∧ parse n.render = .ok n := by
  intro r n
  have hr : r.Built :=
    (Built.mul (.char 'a') (.mul (.char 'b') (.add (.char '1') (.char epsilon)))).closure
  have hn : r.spliced = n := by decide
  obtain ⟨hparse, -, -⟩ := parse_render_spliced hr
  rw [hn] at hparse
  have hbuilt := Built.infixText hparse
  have hflat : n.Flat := hn ▸ flat_spliced r
  exact ⟨hr, by decide, hparse, hbuilt, hflat, (parse_render_spliced hbuilt).2.2 hflat⟩

end Infix

end RegularLang
