/-
  RegularLang.Proofs.Notations — an expression has one value in both notations: its
  postfix text and its infix text with parentheses around every operation are read as
  the regex that the simplifying constructors give (`notations_agree`).

  On the postfix side the tokens of an expression push its value on any stack. On the
  infix side a grouped expression is a unit of the grammar, whichever way its tokens
  are spelled and whatever further parentheses stand around it (`Grouped`).
-/

import RegularLang.Proofs.Infix.Parsed
import RegularLang.Proofs.Postfix

namespace RegularLang

open Postfix

/-! ## Letters -/

theorem isSpecial_of_lettered {c : Char} (h : 'a' ≤ c ∧ c ≤ 'z') : isSpecial c = false := by
  have hc := toNat_of_lettered h
  rw [isSpecial, Bool.or_eq_false_iff, decide_eq_false_iff_not]
  refine ⟨?_, ?_⟩
  · intro hm
    simp only [List.mem_cons, List.not_mem_nil, or_false] at hm
    rcases hm with rfl | rfl | rfl | rfl | rfl | rfl | rfl | rfl | rfl <;> revert hc <;> decide
  · exact isBlank_eq_false (by omega) (by omega)

namespace Postfix

/-! ## Postfix text -/

/-- Tokens one after the other spell themselves. -/
theorem spells_map_symbol {ts : List Token} (h : ∀ c, .letter c ∈ ts → 'a' ≤ c ∧ c ≤ 'z') :
    Spells (ts.map Token.symbol) ts := by
  induction ts with
  | nil => exact .nil
  | cons t ts ih =>
    have ht : t.Lettered := fun c e => h c (e ▸ List.mem_cons_self ..)
    exact .token ht (ih fun c hc => h c (List.mem_cons_of_mem _ hc))

namespace Expression

/-- The postfix text of an expression, without white space. -/
def text (e : Expression) : List Char := e.tokens.map Token.symbol

theorem Lettered.of_mem_tokens {e : Expression} (h : e.Lettered) {c : Char}
    (hc : .letter c ∈ e.tokens) : 'a' ≤ c ∧ c ≤ 'z' := by
  induction e with
  | letter d =>
    cases List.mem_singleton.mp hc
    exact h
  | emptyWord => simp [tokens] at hc
  | star e ih => exact ih h (by simpa [tokens] using hc)
  | union e f ihe ihf | concat e f ihe ihf =>
    have hc : .letter c ∈ e.tokens ∨ .letter c ∈ f.tokens := by simpa [tokens] using hc
    exact hc.elim (ihe h.1) (ihf h.2)

theorem parse_text {e : Expression} (h : e.Lettered) : parse e.text = .ok e.value := by
  have hspells : Spells e.text e.tokens := spells_map_symbol fun c hc => h.of_mem_tokens hc
  rw [← List.flatMap_singleton tokens e] at hspells
  exact parse_of_spells hspells

/-! ## Infix text -/

/-- The tokens of an expression with parentheses around every union and concatenation,
    and perhaps around other parts. -/
inductive Grouped : Expression → List Infix.Token → Prop
  | letter (c : Char) : Grouped (.letter c) [.letter c]
  | emptyWord : Grouped .emptyWord [.emptyWord]
  | star {e : Expression} {ts : List Infix.Token} : Grouped e ts →
      Grouped (.star e) (ts ++ [.star])
  | union {e f : Expression} {ts us : List Infix.Token} : Grouped e ts → Grouped f us →
      Grouped (.union e f) (.openGroup :: (ts ++ .union :: us) ++ [.closeGroup])
  | concat {e f : Expression} {ts us : List Infix.Token} : Grouped e ts → Grouped f us →
      Grouped (.concat e f) (.openGroup :: (ts ++ us) ++ [.closeGroup])
  | group {e : Expression} {ts : List Infix.Token} : Grouped e ts →
      Grouped e (.openGroup :: ts ++ [.closeGroup])

open Infix in
theorem derives_sequence {ts : List Infix.Token} {r : Regex} (h : Derives .unit ts r) :
    Derives .sequence ts r := by
  rw [← Regex.one_mul_eq r]
  exact .firstUnit h

open Infix in
/-- A grouped expression is a unit that has the expression's value. -/
theorem Grouped.derives {e : Expression} {ts : List Infix.Token} (h : Grouped e ts) :
    Derives .unit ts e.value := by
  induction h with
  | letter c => exact .bare (.letter c)
  | emptyWord => exact .bare .emptyWord
  | star _ ih => exact ih.star
  | union _ _ ihe ihf =>
    exact .bare (.group (.addTerm (.firstTerm (derives_sequence ihe)) (derives_sequence ihf)))
  | concat _ _ ihe ihf =>
    exact .bare (.group (.firstTerm (.addUnit (derives_sequence ihe) ihf)))
  | group _ ih => exact .bare (.group (.firstTerm (derives_sequence ih)))

theorem Grouped.parse_eq_ok {e : Expression} {ts : List Infix.Token} (h : Grouped e ts)
    {text : List Char} (ht : Infix.Spells text ts) : Infix.parse text = .ok e.value :=
  Infix.Means.parse_eq_ok ⟨ts, ht, .firstTerm (derives_sequence h.derives)⟩

theorem exists_spells_grouped {e : Expression} (h : e.Lettered) :
    ∃ ts, Grouped e ts ∧ Infix.Spells e.grouped ts := by
  have single (c : Char) (hb : isBlank c = false) (hc : c ≠ '\\') :
      Infix.Spells [c] [Infix.Token.ofChar c] := .plain hb hc .nil
  have hopen : Infix.Spells ['('] [.openGroup] := single '(' (by decide) (by decide)
  have hclose : Infix.Spells [')'] [.closeGroup] := single ')' (by decide) (by decide)
  induction e with
  | letter c =>
    have hs := isSpecial_of_lettered h
    obtain ⟨hm, hb⟩ := Bool.or_eq_false_iff.mp hs
    have hne : c ≠ '\\' := fun e => by simp [e] at hm
    have hspells := single c hb hne
    rw [Infix.Token.ofChar_of_not_special hs] at hspells
    exact ⟨_, .letter c, hspells⟩
  | emptyWord => exact ⟨_, .emptyWord, single '1' (by decide) (by decide)⟩
  | star e ih =>
    obtain ⟨ts, hts, hspells⟩ := ih h
    have hstar : Infix.Spells ['*'] [.star] := single '*' (by decide) (by decide)
    refine ⟨_, .star (.group hts), ?_⟩
    have := ((hopen.append hspells).append hclose).append hstar
    simpa [grouped] using this
  | union e f ihe ihf =>
    obtain ⟨ts, hts, he⟩ := ihe h.1
    obtain ⟨us, hus, hf⟩ := ihf h.2
    have hunion : Infix.Spells ['+'] [.union] := single '+' (by decide) (by decide)
    refine ⟨_, .union hts hus, ?_⟩
    have := (hopen.append (he.append (hunion.append hf))).append hclose
    simpa [grouped] using this
  | concat e f ihe ihf =>
    obtain ⟨ts, hts, he⟩ := ihe h.1
    obtain ⟨us, hus, hf⟩ := ihf h.2
    refine ⟨_, .concat hts hus, ?_⟩
    have := (hopen.append (he.append hf)).append hclose
    simpa [grouped] using this

/-! ## Both -/

/-- Both notations give an expression its value: its postfix text, its infix text with
    parentheses around every operation, and any other infix text that groups it as
    much, with white space, `|` for `+`, `ε` for `1`, or other parentheses. -/
theorem notations_agree {e : Expression} (h : e.Lettered) :
    parse e.text = .ok e.value ∧ Infix.parse e.grouped = .ok e.value ∧
      ∀ ts text, Grouped e ts → Infix.Spells text ts → Infix.parse text = .ok e.value := by
  obtain ⟨ts, hts, hspells⟩ := exists_spells_grouped h
  exact ⟨parse_text h, hts.parse_eq_ok hspells, fun _ _ hts hspells => hts.parse_eq_ok hspells⟩

/-- The expression of `(ab+1)*c`. -/
theorem notations_agree_abc :
    let e := concat (star (union (concat (letter 'a') (letter 'b')) emptyWord)) (letter 'c')
    e.Lettered ∧ parse "ab.1+*c.".toList = .ok e.value ∧
      Infix.parse "((((ab)+1))*c)".toList = .ok e.value ∧
      Infix.parse "(((a b)|ε)* c)".toList = .ok e.value := by
  intro e
  have he : e.Lettered := by simp [e, Lettered]
  obtain ⟨htext, hinfix, hspelled⟩ := notations_agree he
  refine ⟨he, htext, hinfix, ?_⟩
  refine hspelled _ _ (.concat (.star (.union (.concat (.letter 'a') (.letter 'b')) .emptyWord))
    (.letter 'c')) ?_
  exact Infix.spells_iff_tokens?.mpr (by decide)

end Expression

end Postfix

end RegularLang
