/-
  RegularLang.Proofs.Built — every regex that comes from characters and ∅ by the
  operations of the library (`Regex.Built`) is tidy, whichever way it comes: both notations
  put it together by the simplifying constructors, and so does state elimination.

  On such a regex the tests that only look at the syntax are exact (`Built.syntax_exact`): it is ∅
  when it has no words, and its alphabet holds the letters of its words.
-/

import RegularLang.Postfix.Reader
import RegularLang.Proofs.Automaton.Labels
import RegularLang.Proofs.Infix.Parsed
import RegularLang.Proofs.Regex.Tidy

namespace RegularLang

/-! ## What is read from a text -/

namespace Regex.Stable

variable {P : Regex → Prop} (hP : Stable P)

include hP

theorem derives {k : Infix.Category} {ts : List Infix.Token} {e : Regex}
    (h : Infix.Derives k ts e) : P e := by
  induction h with
  | firstTerm _ ih | bare _ ih | group _ ih => exact ih
  | addTerm _ _ ihe ihf => exact hP.add ihe ihf
  | firstUnit _ ih => exact hP.mul (hP.char epsilon) ih
  | addUnit _ _ ihe ihf => exact hP.mul ihe ihf
  | starred _ _ ih => exact hP.closure ih
  | emptyGroup | nothing => exact hP.zero
  | emptyWord => exact hP.char epsilon
  | letter c => exact hP.char c

theorem infix_parse {text : List Char} {e : Regex} (h : Infix.parse text = .ok e) : P e := by
  obtain ⟨ts, -, hd⟩ := Infix.means_of_parse_eq_ok h
  exact hP.derives hd

/-- One more token. -/
theorem postfix_push {stack stack' : List Regex} {t : Postfix.Token}
    (h : ∀ e ∈ stack, P e) (ht : Postfix.push? stack t = some stack') : ∀ e ∈ stack', P e := by
  cases t with
  | letter c =>
    obtain rfl := Option.some.inj ht
    exact List.forall_mem_cons.mpr ⟨hP.char c, h⟩
  | emptyWord =>
    obtain rfl := Option.some.inj ht
    exact List.forall_mem_cons.mpr ⟨hP.char epsilon, h⟩
  | star =>
    rcases stack with _ | ⟨e, stack⟩
    · cases ht
    · obtain rfl := Option.some.inj ht
      obtain ⟨he, hs⟩ := List.forall_mem_cons.mp h
      exact List.forall_mem_cons.mpr ⟨hP.closure he, hs⟩
  | union =>
    rcases stack with _ | ⟨f, _ | ⟨e, stack⟩⟩
    · cases ht
    · cases ht
    · obtain rfl := Option.some.inj ht
      obtain ⟨hf, he, hs⟩ := List.forall_mem_cons.mp h |>.imp_right List.forall_mem_cons.mp
      exact List.forall_mem_cons.mpr ⟨hP.add he hf, hs⟩
  | concat =>
    rcases stack with _ | ⟨f, _ | ⟨e, stack⟩⟩
    · cases ht
    · cases ht
    · obtain rfl := Option.some.inj ht
      obtain ⟨hf, he, hs⟩ := List.forall_mem_cons.mp h |>.imp_right List.forall_mem_cons.mp
      exact List.forall_mem_cons.mpr ⟨hP.mul he hf, hs⟩

theorem postfix_pushAll {stack stack' : List Regex} {ts : List (Postfix.Token × Span)}
    (h : ∀ e ∈ stack, P e) (hts : Postfix.pushAll stack ts = .ok stack') :
    ∀ e ∈ stack', P e := by
  induction ts generalizing stack with
  | nil =>
    obtain rfl := Except.ok.inj hts
    exact h
  | cons t ts ih =>
    rw [Postfix.pushAll] at hts
    split at hts
    · cases hts
    · rename_i ht
      exact ih (hP.postfix_push h ht) hts

theorem postfix_parse {text : List Char} {e : Regex} (h : Postfix.parse text = .ok e) : P e := by
  rw [Postfix.parse] at h
  split at h
  · cases h
  · split at h
    · cases h
    · cases h
    · rename_i hstack
      cases h
      exact hP.postfix_pushAll (List.forall_mem_nil P) hstack e (List.mem_singleton_self e)
    · cases h

end Regex.Stable

/-! ## Regexes that come from the operations -/

namespace Regex

variable {r : Regex}

inductive Built : Regex → Prop
  | char (c : Char) : Built (.char c)
  | zero : Built .zero
  | add {r s : Regex} : Built r → Built s → Built (r + s)
  | mul {r s : Regex} : Built r → Built s → Built (r * s)
  | closure {r : Regex} : Built r → Built r.closure
  | word (w : List Char) : Built (.word w)
  | reversed {r : Regex} : Built r → Built r.reversed
  | deriv {r : Regex} (c : Char) : Built r → Built (r.deriv c)
  | derivWord {r : Regex} (w : List Char) : Built r → Built (r.derivWord w)
  | infixText {r : Regex} {text : List Char} : Infix.parse text = .ok r → Built r
  | postfixText {r : Regex} {text : List Char} : Postfix.parse text = .ok r → Built r
  | toRegex {r : Regex} {a : Automaton} : a.toRegex = .ok r → Built r
  | normalForm {r n : Regex} {letters : Alphabet} : Built r → r.normalForm letters = .ok n → Built n
  | complement {r n : Regex} {letters : Alphabet} : Built r → r.complement letters = .ok n → Built n

theorem Built.tidy (h : r.Built) : r.Tidy := by
  induction h with
  | char c => exact .char c
  | zero => exact .zero
  | add _ _ ihr ihs => exact ihr.add ihs
  | mul _ _ ihr ihs => exact ihr.mul ihs
  | closure _ ih => exact ih.closure
  | word w => exact stable_tidy.word w
  | reversed _ ih => exact ih.reversed
  | deriv c _ ih => exact ih.deriv c
  | derivWord w _ ih => exact ih.derivWord w
  | infixText h => exact stable_tidy.infix_parse h
  | postfixText h => exact stable_tidy.postfix_parse h
  | toRegex h => exact stable_tidy.toRegex h
  | normalForm _ h _ => exact stable_tidy.normalForm h
  | complement _ h _ => exact stable_tidy.complement h

/-- In what the operations give, a concatenation has at least two operands, ∅ stands
    nowhere but alone, only ∅ has no words, and the alphabet holds exactly the letters that
    the words have. -/
theorem Built.syntax_exact (h : r.Built) :
    (∀ es, Within (.concat es) r → 2 ≤ es.length) ∧
      (∀ e ∈ r.operands, ¬Within .zero e) ∧
      (r.isZero ↔ r.language = 0) ∧
      ∀ c, c ∈ r.alphabet ↔ ∃ w ∈ r.language, c ∈ w := by
  have ht := h.tidy
  refine ⟨?_, ?_, ?_, ?_⟩
  · intro es he
    cases ht.within he with
    | concat hlen => exact hlen
  · intro e he
    obtain ⟨hte, hne⟩ := ht.operand he
    exact hte.not_within_zero hne
  · rw [isZero_iff, ht.language_eq_zero_iff]
  · intro c
    rw [mem_alphabet, ht.mem_letters_iff]

/-- The reversal of a regex whose text has a ∅ in it. -/
theorem Built.syntax_exact_reversed :
    let r : Regex := .concat [.star (.concat [.char 'c', .char 'b']), .char 'a']
    Infix.parse "a(b c)*(∅+1)".toList = .ok r.reversed ∧ r.Built ∧
      (∀ e ∈ r.operands, ¬Within .zero e) ∧ ¬r.language = 0 ∧ ∃ w ∈ r.language, 'b' ∈ w := by
  intro r
  have hparse : Infix.parse "a(b c)*(∅+1)".toList = .ok r.reversed := by
    rw [Infix.parse_eq_read]
    decide
  have hbuilt : r.Built := (Built.infixText hparse).reversed
  obtain ⟨-, hzero, hlanguage, hletters⟩ := hbuilt.syntax_exact
  exact ⟨hparse, hbuilt, hzero, mt hlanguage.mpr nofun, (hletters 'b').mp (by decide)⟩

end Regex

end RegularLang
