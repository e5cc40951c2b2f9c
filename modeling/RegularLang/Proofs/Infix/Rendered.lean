/-
  RegularLang.Proofs.Infix.Rendered — a regex written out and read back.

  A concatenation of nothing writes no text. Where it is a term of a sum, the text has a
  gap: among other terms the gap is refused, and alone in its parentheses it leaves `()`,
  which is read as ∅. Nothing else is lost. A text is read exactly when it is not empty
  and no sum of several terms has a gap (`Regex.isLegible`), and then it has the words of
  the regex with every `()` taken for ∅ (`Regex.asRead`). So the words come back exactly
  when that makes no difference (`parse_render_iff`).
-/

import Mathlib.Algebra.BigOperators.Group.List.Basic
import RegularLang.Proofs.Infix.Parsed
import RegularLang.Proofs.Regex.Quotient

namespace RegularLang

open Computability

namespace Regex

/-! ## What is lost -/

mutual

/-- Whether every term of a sum of several writes something. -/
def isLegible : Regex → Bool
  | .char _ => true
  | .concat es => isLegibleAll es
  | .sum es => isLegibleAll es && (es.length ≤ 1 || es.all fun e => e.render ≠ [])
  | .star e => e.isLegible

def isLegibleAll : List Regex → Bool
  | [] => true
  | e :: es => e.isLegible && isLegibleAll es

end

mutual

/-- The regex with ∅ for every sum that is written `()`. -/
def asRead : Regex → Regex
  | .char c => .char c
  | .concat es => .concat (asReadAll es)
  | .sum es => if es.length = 1 ∧ renderAll es = [] then zero else .sum (asReadAll es)
  | .star e => .star e.asRead

def asReadAll : List Regex → List Regex
  | [] => []
  | e :: es => e.asRead :: asReadAll es

end

mutual

/-- Whether every concatenation has operands. -/
def isFilled : Regex → Bool
  | .char _ => true
  | .concat es => !es.isEmpty && isFilledAll es
  | .sum es => isFilledAll es
  | .star e => e.isFilled

def isFilledAll : List Regex → Bool
  | [] => true
  | e :: es => e.isFilled && isFilledAll es

end

theorem isLegibleAll_eq (es : List Regex) : isLegibleAll es = es.all isLegible := by
  induction es <;> simp [isLegibleAll, *]

theorem asReadAll_eq (es : List Regex) : asReadAll es = es.map asRead := by
  induction es <;> simp [asReadAll, *]

theorem isFilledAll_eq (es : List Regex) : isFilledAll es = es.all isFilled := by
  induction es <;> simp [isFilledAll, *]

@[simp] theorem isLegible_concat (es : List Regex) : (concat es).isLegible = es.all isLegible :=
  isLegibleAll_eq es

@[simp] theorem isLegible_sum (es : List Regex) : (sum es).isLegible =
    (es.all isLegible && (es.length ≤ 1 || es.all fun e => e.render ≠ [])) := by
  rw [isLegible, isLegibleAll_eq]

@[simp] theorem isLegible_star (e : Regex) : (star e).isLegible = e.isLegible := rfl

@[simp] theorem asRead_char (c : Char) : (char c).asRead = char c := rfl

@[simp] theorem asRead_concat (es : List Regex) : (concat es).asRead = concat (es.map asRead) := by
  rw [asRead, asReadAll_eq]

@[simp] theorem asRead_star (e : Regex) : (star e).asRead = star e.asRead := rfl

theorem asRead_sum_of_render {es : List Regex} (h : ∀ e ∈ es, e.render ≠ []) :
    (sum es).asRead = sum (es.map asRead) := by
  rw [asRead, asReadAll_eq, if_neg]
  rintro ⟨hlen, hr⟩
  obtain ⟨e, rfl⟩ := List.length_eq_one_iff.mp hlen
  exact h e (List.mem_singleton_self e) (by simpa [renderAll] using hr)

theorem asRead_sum_of_render_eq_nil {e : Regex} (h : e.render = []) : (sum [e]).asRead = zero := by
  rw [asRead, if_pos]
  simp [renderAll, h]

/-- Where every term of a sum writes something, or it is the only one. -/
theorem isLegible_sum_iff {es : List Regex} : (sum es).isLegible ↔ (∀ e ∈ es, e.isLegible) ∧
    ((∃ e, es = [e] ∧ e.render = []) ∨ ∀ e ∈ es, e.render ≠ []) := by
  rw [isLegible_sum, Bool.and_eq_true, List.all_eq_true]
  apply and_congr_right
  intro _
  match es with
  | [] => simp
  | [e] => simp [em]
  | e :: f :: es => simp

/-! ## Tokens -/

open Infix (Token Spells)

mutual

/-- The tokens of the text of a regex. -/
def tokens : Regex → List Token
  | .char c => [if c = epsilon then .emptyWord else .letter c]
  | .concat es => tokensAll es
  | .sum [] => [.nothing]
  | .sum (e :: es) => .openGroup :: (e.tokens ++ tokensTerms es) ++ [.closeGroup]
  | .star e =>
    if e.isUnit then e.tokens ++ [.star] else .openGroup :: e.tokens ++ [.closeGroup] ++ [.star]

def tokensAll : List Regex → List Token
  | [] => []
  | e :: es => e.tokens ++ tokensAll es

def tokensTerms : List Regex → List Token
  | [] => []
  | e :: es => .union :: e.tokens ++ tokensTerms es

end

theorem tokens_concat_cons (e : Regex) (es : List Regex) :
    (concat (e :: es)).tokens = e.tokens ++ (concat es).tokens := rfl

theorem tokens_sum_cons (e : Regex) (es : List Regex) :
    (sum (e :: es)).tokens = .openGroup :: (e.tokens ++ tokensTerms es) ++ [.closeGroup] := rfl

theorem tokens_star_of_isUnit {e : Regex} (h : e.isUnit) : (star e).tokens = e.tokens ++ [.star] := by
  rw [tokens, if_pos h]

theorem tokens_star_of_not_isUnit {e : Regex} (h : e.isUnit = false) :
    (star e).tokens = .openGroup :: e.tokens ++ [.closeGroup] ++ [.star] := by
  rw [tokens, h, if_neg Bool.false_ne_true]

theorem spells_renderLetter (c : Char) :
    Spells (renderLetter c) [if c = epsilon then .emptyWord else .letter c] := by
  unfold renderLetter
  split_ifs with he hs
  · exact .plain (by decide) (by decide) .nil
  · exact .escaped hs .nil
  · have hs : isSpecial c = false := by simpa using hs
    have hb : isBlank c = false := by
      unfold isSpecial at hs
      exact (Bool.or_eq_false_iff.mp hs).2
    have hne : c ≠ '\\' := by
      rintro rfl
      exact absurd hs (by decide)
    rw [← Token.ofChar_of_not_special hs]
    exact .plain hb hne .nil

theorem spells_renderAll {es : List Regex} (h : ∀ e ∈ es, Spells e.render e.tokens) :
    Spells (renderAll es) (tokensAll es) := by
  induction es with
  | nil => exact .nil
  | cons e es ih =>
    exact (h e (List.mem_cons_self ..)).append (ih fun f hf => h f (List.mem_cons_of_mem _ hf))

theorem spells_renderTerms {es : List Regex} (h : ∀ e ∈ es, Spells e.render e.tokens) :
    Spells (renderTerms es) (tokensTerms es) := by
  induction es with
  | nil => exact .nil
  | cons e es ih =>
    have he : Spells ('+' :: e.render) (.union :: e.tokens) :=
      .plain (by decide) (by decide) (h e (List.mem_cons_self ..))
    exact he.append (ih fun f hf => h f (List.mem_cons_of_mem _ hf))

theorem spells_group {text : List Char} {ts : List Token} (h : Spells text ts) :
    Spells ('(' :: text ++ [')']) (.openGroup :: ts ++ [.closeGroup]) := by
  have hopen : Spells ('(' :: text) (.openGroup :: ts) := .plain (by decide) (by decide) h
  exact hopen.append (.plain (by decide) (by decide) .nil)

theorem spells_render (r : Regex) : Spells r.render r.tokens := by
  have hstar : Spells ['*'] [.star] := .plain (by decide) (by decide) .nil
  induction r with
  | char c => exact spells_renderLetter c
  | concat es ih => exact spells_renderAll ih
  | sum es ih =>
    cases es with
    | nil => exact .plain (by decide) (by decide) .nil
    | cons e es =>
      have hterms := spells_renderTerms fun f hf => ih f (List.mem_cons_of_mem _ hf)
      exact spells_group ((ih e (List.mem_cons_self ..)).append hterms)
  | star e ih =>
    rw [render]
    cases hu : e.isUnit with
    | true =>
      rw [tokens_star_of_isUnit hu]
      exact ih.append hstar
    | false =>
      rw [tokens_star_of_not_isUnit hu]
      simpa using (spells_group ih).append hstar

/-! ### Regexes that write nothing -/

theorem render_sum_ne_nil (es : List Regex) : (sum es).render ≠ [] := by
  cases es <;> exact List.cons_ne_nil _ _

theorem render_star_ne_nil (e : Regex) : (star e).render ≠ [] := by
  rw [render]
  split_ifs <;> simp

theorem render_concat_cons_eq_nil_iff {e : Regex} {es : List Regex} :
    (concat (e :: es)).render = [] ↔ e.render = [] ∧ (concat es).render = [] := by
  rw [render_concat, render_concat, List.flatMap_cons, List.append_eq_nil_iff]

theorem tokens_of_render_eq_nil {r : Regex} (h : r.render = []) : r.tokens = [] :=
  Infix.spells_nil_iff.mp (h ▸ r.spells_render)

theorem language_asRead_concat_cons (e : Regex) (es : List Regex) :
    (concat (e :: es)).asRead.language = e.asRead.language * (concat es).asRead.language := by
  simp

/-- What writes nothing is a concatenation of such. -/
theorem language_asRead_of_render_eq_nil {r : Regex} (h : r.render = []) : r.asRead.language = 1 := by
  induction r with
  | char c =>
    rw [render_char, renderLetter] at h
    split_ifs at h
  | concat es ih =>
    induction es with
    | nil => rfl
    | cons e es ihs =>
      obtain ⟨he, hes⟩ := render_concat_cons_eq_nil_iff.mp h
      rw [language_asRead_concat_cons, ih e (List.mem_cons_self ..) he, one_mul]
      exact ihs (fun f hf => ih f (List.mem_cons_of_mem _ hf)) hes
  | sum es => exact absurd h (render_sum_ne_nil es)
  | star e => exact absurd h (render_star_ne_nil e)

/-- Without empty concatenations there is no gap. -/
theorem isLegible_of_isFilled {r : Regex} (h : r.isFilled) :
    r.render ≠ [] ∧ r.isLegible ∧ r.asRead = r := by
  induction r with
  | char c =>
    refine ⟨?_, rfl, rfl⟩
    rw [render_char, renderLetter]
    split_ifs <;> exact List.cons_ne_nil _ _
  | concat es ih =>
    rw [isFilled, isFilledAll_eq, Bool.and_eq_true, List.all_eq_true] at h
    have ih := fun e he => ih e he (h.2 e he)
    refine ⟨?_, ?_, ?_⟩
    · obtain ⟨e, he⟩ := List.exists_mem_of_ne_nil es (by simpa using h.1)
      rw [render_concat]
      exact fun hr => (ih e he).1 (List.flatMap_eq_nil_iff.mp hr e he)
    · rw [isLegible_concat, List.all_eq_true]
      exact fun e he => (ih e he).2.1
    · rw [asRead_concat, List.map_congr_left fun e he => (ih e he).2.2, List.map_id']
  | sum es ih =>
    rw [isFilled, isFilledAll_eq, List.all_eq_true] at h
    have ih := fun e he => ih e he (h e he)
    have hr := fun e he => (ih e he).1
    refine ⟨render_sum_ne_nil es, ?_, ?_⟩
    · exact isLegible_sum_iff.mpr ⟨fun e he => (ih e he).2.1, .inr hr⟩
    · rw [asRead_sum_of_render hr, List.map_congr_left fun e he => (ih e he).2.2, List.map_id']
  | star e ih =>
    obtain ⟨-, hl, he⟩ := ih h
    exact ⟨render_star_ne_nil e, hl, congrArg star he⟩

end Regex

namespace Infix

open Regex

variable {k : Category} {ts us : List Token} {e f r : Regex} {es : List Regex}

/-! ## Texts that are read -/

theorem Derives.exists_append (h : Derives .sequence ts e) (hu : Derives .sequence us f) :
    ∃ g, Derives .sequence (ts ++ us) g ∧ g.language = e.language * f.language := by
  generalize hk : Category.sequence = k at hu
  induction hu with
  | firstUnit hu => exact ⟨_, h.addUnit hu, by simp⟩
  | addUnit _ hu ih =>
    obtain ⟨g, hg, hl⟩ := ih rfl
    rw [← List.append_assoc]
    exact ⟨_, hg.addUnit hu, by simp [hl, mul_assoc]⟩
  | _ => cases hk

/-- The text of `r` is one of category `k` and has the words of `r` as it is read. -/
def ReadsBack (r : Regex) (k : Category) : Prop :=
  ∃ e, Derives k r.tokens e ∧ e.language = r.asRead.language

namespace ReadsBack

theorem unit (h : ReadsBack r .atom) : ReadsBack r .unit := by
  obtain ⟨e, hd, hl⟩ := h
  exact ⟨e, .bare hd, hl⟩

theorem sequence (h : ReadsBack r .unit) : ReadsBack r .sequence := by
  obtain ⟨e, hd, hl⟩ := h
  exact ⟨_, .firstUnit hd, by simpa using hl⟩

theorem char (c : Char) : ReadsBack (.char c) .atom := by
  refine ⟨.char c, ?_, rfl⟩
  rw [tokens]
  split_ifs with h
  · exact h ▸ .emptyWord
  · exact .letter c

/-- Operands that write nothing have no part in the product. -/
theorem concat (h : ∀ e ∈ es, e.render ≠ [] → ReadsBack e .sequence)
    (hne : (Regex.concat es).render ≠ []) : ReadsBack (.concat es) .sequence := by
  induction es with
  | nil => exact absurd rfl hne
  | cons e es ih =>
    have ih := ih fun f hf => h f (List.mem_cons_of_mem _ hf)
    rw [ReadsBack, tokens_concat_cons, language_asRead_concat_cons]
    by_cases he : e.render = []
    · rw [tokens_of_render_eq_nil he, language_asRead_of_render_eq_nil he, one_mul]
      exact ih fun hes => hne (render_concat_cons_eq_nil_iff.mpr ⟨he, hes⟩)
    · obtain ⟨f, hf, hl⟩ := h e (List.mem_cons_self ..) he
      by_cases hes : (Regex.concat es).render = []
      · rw [tokens_of_render_eq_nil hes, language_asRead_of_render_eq_nil hes, mul_one, List.append_nil]
        exact ⟨f, hf, hl⟩
      · obtain ⟨g, hg, hl'⟩ := ih hes
        obtain ⟨p, hp, hlp⟩ := hf.exists_append hg
        exact ⟨p, hp, by rw [hlp, hl, hl']⟩

/-- More terms behind the first part of a sum. -/
theorem terms (h : ∀ e ∈ es, ReadsBack e .sequence) (hd : Derives .sum ts f) :
    ∃ g, Derives .sum (ts ++ tokensTerms es) g ∧
      g.language = f.language + (es.map (language ∘ asRead)).sum := by
  induction es generalizing ts f with
  | nil => exact ⟨f, by rwa [tokensTerms, List.append_nil], by simp⟩
  | cons e es ih =>
    obtain ⟨g, hg, hl⟩ := h e (List.mem_cons_self ..)
    obtain ⟨p, hp, hl'⟩ := ih (fun f hf => h f (List.mem_cons_of_mem _ hf)) (hd.addTerm hg)
    refine ⟨p, by simpa [tokensTerms] using hp, ?_⟩
    rw [hl', language_add, hl, List.map_cons, List.sum_cons, Function.comp_apply, add_assoc]

theorem sum (h : ∀ e ∈ es, ReadsBack e .sequence) (hr : ∀ e ∈ es, e.render ≠ []) :
    ReadsBack (.sum es) .atom := by
  rw [ReadsBack, asRead_sum_of_render hr, language_sum, List.map_map]
  cases es with
  | nil => exact ⟨.zero, .nothing, rfl⟩
  | cons e es =>
    obtain ⟨f, hf, hl⟩ := h e (List.mem_cons_self ..)
    obtain ⟨g, hg, hl'⟩ := terms (fun f hf => h f (List.mem_cons_of_mem _ hf)) hf.firstTerm
    refine ⟨g, hg.group, ?_⟩
    rw [hl', hl, List.map_cons, List.sum_cons, Function.comp_apply]

/-- A gap alone in its parentheses. -/
theorem emptyGroup (h : e.render = []) : ReadsBack (.sum [e]) .atom := by
  refine ⟨.zero, ?_, by rw [asRead_sum_of_render_eq_nil h]⟩
  rw [tokens_sum_cons, tokens_of_render_eq_nil h]
  exact .emptyGroup

theorem star (h : ReadsBack e .atom) (hu : e.isUnit) : ReadsBack (.star e) .unit := by
  obtain ⟨f, hf, hl⟩ := h
  refine ⟨f.closure, ?_, by rw [language_closure, hl, asRead_star, language_star]⟩
  rw [tokens_star_of_isUnit hu]
  exact .starred 0 hf

/-- `()*` is read as ε, which is the star of what writes nothing all the same. -/
theorem starGroup (h : e.render ≠ [] → ReadsBack e .sequence) (hu : e.isUnit = false) :
    ReadsBack (.star e) .unit := by
  rw [ReadsBack, tokens_star_of_not_isUnit hu, asRead_star, language_star]
  by_cases he : e.render = []
  · rw [tokens_of_render_eq_nil he, language_asRead_of_render_eq_nil he, kstar_one]
    exact ⟨Regex.zero.closure, .starred 0 .emptyGroup, rfl⟩
  · obtain ⟨f, hf, hl⟩ := h he
    exact ⟨f.closure, .starred 0 (.group (.firstTerm hf)), by rw [language_closure, hl]⟩

end ReadsBack

theorem readsBack_of_isLegible (h : r.isLegible) :
    (r.isUnit → ReadsBack r .atom) ∧ (r.render ≠ [] → ReadsBack r .sequence) := by
  induction r with
  | char c => exact ⟨fun _ => .char c, fun _ => (ReadsBack.char c).unit.sequence⟩
  | concat es ih =>
    rw [isLegible_concat, List.all_eq_true] at h
    exact ⟨nofun, .concat fun e he => (ih e he (h e he)).2⟩
  | sum es ih =>
    obtain ⟨h, hes⟩ := isLegible_sum_iff.mp h
    have hatom : ReadsBack (.sum es) .atom := by
      rcases hes with ⟨e, rfl, he⟩ | hes
      · exact .emptyGroup he
      · exact .sum (fun e he => (ih e he (h e he)).2 (hes e he)) hes
    exact ⟨fun _ => hatom, fun _ => hatom.unit.sequence⟩
  | star e ih =>
    obtain ⟨hatom, hsequence⟩ := ih h
    refine ⟨nofun, fun _ => ReadsBack.sequence ?_⟩
    cases hu : e.isUnit with
    | true => exact .star (hatom hu) hu
    | false => exact .starGroup hsequence hu

/-- What is legible and writes something is read, as `Regex.asRead` says. -/
theorem parse_render_eq_ok (h : r.isLegible) (hr : r.render ≠ []) :
    ∃ n, parse r.render = .ok n ∧ n.language = r.asRead.language := by
  obtain ⟨n, hn, hl⟩ := (readsBack_of_isLegible h).2 hr
  exact ⟨n, Means.parse_eq_ok ⟨_, r.spells_render, .firstTerm hn⟩, hl⟩

/-! ## Texts that are refused -/

/-- No reader gets past the text of `r`. -/
def Refused (r : Regex) : Prop := ∀ rd : Reader, rd.run? r.tokens = none

theorem run?_append_eq_none {rd : Reader} (h : rd.run? ts = none) : rd.run? (ts ++ us) = none := by
  rw [Reader.run?_append, h]
  rfl

theorem Refused.concat (h : ∃ e ∈ es, Refused e) : Refused (.concat es) := by
  obtain ⟨e, he, h⟩ := h
  intro rd
  induction es generalizing rd with
  | nil => cases he
  | cons f es ih =>
    rw [tokens_concat_cons]
    rcases List.mem_cons.mp he with rfl | he
    · exact run?_append_eq_none (h rd)
    · rw [Reader.run?_append]
      cases rd.run? f.tokens with
      | none => rfl
      | some rd => exact ih he rd

/-- At a `+` or at the end of its parentheses a group needs a unit, unless it is fresh. -/
theorem run?_gap {rd : Reader} (hu : rd.group.units = []) (hf : rd.group.alternatives ≠ [] ∨ es ≠ []) :
    rd.run? (tokensTerms es ++ [.closeGroup]) = none := by
  cases es with
  | nil =>
    obtain ⟨⟨alternatives, units⟩, outer⟩ := rd
    obtain rfl : units = [] := hu
    have hf : alternatives ≠ [] := hf.resolve_right (not_not_intro rfl)
    have hclosed : (Group.mk alternatives []).closed? = none := by
      simp [Group.closed?, Group.isFresh, hf, Group.value?, Group.alternative?, Group.hasUnit]
    cases outer with
    | nil => rfl
    | cons g outer => simp [tokensTerms, Reader.run?_cons, Reader.take?, Reader.close?, hclosed]
  | cons e es =>
    have hnext : rd.group.nextAlternative? = none := by
      simp [Group.nextAlternative?, Group.alternative?, Group.hasUnit, hu]
    simp [tokensTerms, Reader.run?_cons, Reader.take?, hnext]

/-- A reader at the beginning of a term. It stops in the first term that is not legible
    or behind the first that writes nothing; every term before that is a sequence. -/
theorem run?_terms (h : ∀ f ∈ e :: es, f.isLegible = false → Refused f) {rd : Reader}
    (hu : rd.group.units = []) (hbad : ∃ f ∈ e :: es,
      f.isLegible = false ∨ f.render = [] ∧ (rd.group.alternatives ≠ [] ∨ es ≠ [])) :
    rd.run? (e.tokens ++ (tokensTerms es ++ [.closeGroup])) = none := by
  induction es generalizing e rd with
  | nil =>
    obtain ⟨f, hf, hbad⟩ := hbad
    obtain rfl := List.mem_singleton.mp hf
    rcases hbad with hl | ⟨hr, ha⟩
    · exact run?_append_eq_none (h f hf hl rd)
    · rw [tokens_of_render_eq_nil hr]
      exact run?_gap hu ha
  | cons f es ih =>
    by_cases hl : e.isLegible = false
    · exact run?_append_eq_none (h e (List.mem_cons_self ..) hl rd)
    by_cases hr : e.render = []
    · rw [tokens_of_render_eq_nil hr]
      exact run?_gap hu (.inr (List.cons_ne_nil _ _))
    obtain ⟨g, hg, -⟩ := (readsBack_of_isLegible (by simpa using hl)).2 hr
    obtain ⟨xs, hne, -, hread⟩ := hg.reads
    have hnext : (Group.mk rd.group.alternatives xs).nextAlternative? =
        some ⟨.product xs.reverse :: rd.group.alternatives, []⟩ := by
      rw [Group.nextAlternative?, Group.alternative?_eq_some_iff.mpr ⟨hne, rfl⟩]
      rfl
    rw [Reader.run?_append, hread, hu, List.append_nil, tokensTerms]
    simp only [Option.bind_some, List.cons_append, Reader.run?_cons, Reader.take?, hnext,
      Option.map_some, List.append_assoc]
    refine ih (fun p hp => h p (List.mem_cons_of_mem _ hp)) rfl ?_
    obtain ⟨p, hp, hbad⟩ := hbad
    refine ⟨p, (List.mem_cons.mp hp).resolve_left ?_, hbad.imp_right fun hbad => ?_⟩
    · rintro rfl
      exact hbad.elim hl fun hbad => hr hbad.1
    · exact ⟨hbad.1, .inl (List.cons_ne_nil _ _)⟩

/-- A group of terms is refused for a term in it, or for a gap between several. -/
theorem Refused.sum (h : ∀ e ∈ es, e.isLegible = false → Refused e)
    (hbad : (Regex.sum es).isLegible = false) : Refused (.sum es) := by
  intro rd
  cases es with
  | nil => cases hbad
  | cons e es =>
    rw [tokens_sum_cons, List.cons_append, List.append_assoc]
    show Reader.run? ⟨.start, rd.group :: rd.outer⟩ _ = none
    refine run?_terms h rfl ?_
    rw [isLegible_sum, Bool.and_eq_false_iff, Bool.or_eq_false_iff, List.all_eq_false,
      List.all_eq_false] at hbad
    rcases hbad with ⟨f, hf, hl⟩ | ⟨hlen, f, hf, hr⟩
    · exact ⟨f, hf, .inl (by simpa using hl)⟩
    · have hes : es ≠ [] := by
        rintro rfl
        cases hlen
      exact ⟨f, hf, .inr ⟨by simpa using hr, .inr hes⟩⟩

theorem refused_of_not_isLegible (h : r.isLegible = false) : Refused r := by
  induction r with
  | char c => cases h
  | concat es ih =>
    rw [isLegible_concat, List.all_eq_false] at h
    obtain ⟨e, he, hl⟩ := h
    exact .concat ⟨e, he, ih e he (by simpa using hl)⟩
  | sum es ih => exact .sum ih h
  | star e ih =>
    have ih := ih h
    intro rd
    cases hu : e.isUnit with
    | true =>
      rw [tokens_star_of_isUnit hu]
      exact run?_append_eq_none (ih rd)
    | false =>
      rw [tokens_star_of_not_isUnit hu]
      exact run?_append_eq_none (run?_append_eq_none (ih ⟨.start, rd.group :: rd.outer⟩))

/-! ## Both together -/

theorem isLegible_of_parse_render_eq_ok {n : Regex} (h : parse r.render = .ok n) :
    r.isLegible ∧ r.render ≠ [] := by
  obtain ⟨ts, hts, rd, hrd, -⟩ := parse_eq_ok_iff_run.mp h
  obtain rfl := hts.unique r.spells_render
  refine ⟨by_contra fun hl => ?_, ?_⟩
  · rw [refused_of_not_isLegible (by simpa using hl) .start] at hrd
    cases hrd
  · intro hr
    rw [hr] at h
    cases h

/-- The text of a regex is read as a regex with the same words exactly when it is not
    empty, no sum of several terms has one that writes nothing, and the words stay when
    ∅ is put for every sum of one term that writes nothing. -/
theorem parse_render_iff (r : Regex) :
    (∃ n, parse r.render = .ok n ∧ n.language = r.language) ↔
      r.render ≠ [] ∧ r.isLegible ∧ r.asRead.language = r.language := by
  constructor
  · rintro ⟨n, hn, hl⟩
    obtain ⟨hlegible, hr⟩ := isLegible_of_parse_render_eq_ok hn
    obtain ⟨m, hm, hl'⟩ := parse_render_eq_ok hlegible hr
    obtain rfl := Except.ok.inj (hn.symm.trans hm)
    exact ⟨hr, hlegible, hl'.symm.trans hl⟩
  · rintro ⟨hr, hlegible, hl⟩
    obtain ⟨n, hn, hl'⟩ := parse_render_eq_ok hlegible hr
    exact ⟨n, hn, hl'.trans hl⟩

/-- In particular what has no empty concatenation is read back. -/
theorem parse_render_of_isFilled (h : r.isFilled) :
    ∃ n, parse r.render = .ok n ∧ n.language = r.language := by
  obtain ⟨hr, hl, e⟩ := isLegible_of_isFilled h
  exact (parse_render_iff r).mpr ⟨hr, hl, by rw [e]⟩

/-- An empty concatenation is written as no text, and that is refused. -/
theorem not_parse_render :
    ¬∀ r : Regex, ∃ n, parse r.render = .ok n ∧ n.language = r.language := by
  intro h
  obtain ⟨n, hn, -⟩ := h (.concat [])
  cases hn

/-- As the only term of a sum it is written `()`, and that is read as ∅. -/
example : parse (Regex.sum [.concat []]).render = .ok .zero := by decide

end Infix

end RegularLang
