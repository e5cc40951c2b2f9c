/-
  RegularLang.Proofs.Postfix — what any postfix text is read as (`parse_classified`). An
  unknown character is reported first, wherever it stands; then the first token that finds
  too few operands. A text without either consists of expressions, in one way only, and
  is read as their value if there is one of them.

  The stack holds the values of the expressions that the tokens before spell, the last
  one on top: so its height is their number, which the arities alone determine
  (`exists_expressions`). The last token of an expression tells how many operands stand
  right before it, so that no other expressions have the same tokens (`flatMap_tokens_inj`).
-/

import Mathlib.Data.List.Induction
import RegularLang.Postfix.Grammar

namespace RegularLang

theorem toNat_of_lettered {c : Char} (h : 'a' ≤ c ∧ c ≤ 'z') : 97 ≤ c.toNat ∧ c.toNat ≤ 122 := h

namespace Postfix

variable {text pre post : List Char} {c : Char} {ts us : List Token} {es fs : List Expression}

/-! ## Characters -/

theorem isSkipped_iff : isSkipped c ↔ IsSeparator c := by
  simp only [isSkipped, IsSeparator, List.mem_cons, decide_eq_true_eq]
  tauto

theorem ofChar?_symbol {t : Token} (h : t.Lettered) :
    Token.ofChar? t.symbol = some t ∧ isSkipped t.symbol = false := by
  cases t with
  | letter c =>
    have hc := h c rfl
    refine ⟨if_pos hc, decide_eq_false ?_⟩
    intro hm
    have hc := toNat_of_lettered hc
    simp only [Token.symbol, List.mem_cons, List.not_mem_nil, or_false] at hm
    rcases hm with rfl | rfl | rfl | rfl | rfl <;> revert hc <;> decide
  | emptyWord | star | union | concat => decide

theorem ofChar?_eq_none (h : ¬IsKnown c) : Token.ofChar? c = none := by
  unfold Token.ofChar?
  split
  · exact absurd (.inl ‹_›) h
  · split <;> first | rfl | exact absurd (by decide) h

theorem exists_symbol (h : IsKnown c) (hs : ¬IsSeparator c) : ∃ t : Token, t.Lettered ∧ t.symbol = c := by
  rcases h with h | h | h
  · exact ⟨.letter c, fun d e => Token.letter.inj e ▸ h, rfl⟩
  · simp only [List.mem_cons, List.not_mem_nil, or_false] at h
    rcases h with rfl | rfl | rfl | rfl
    · exact ⟨.emptyWord, nofun, rfl⟩
    · exact ⟨.star, nofun, rfl⟩
    · exact ⟨.union, nofun, rfl⟩
    · exact ⟨.concat, nofun, rfl⟩
  · exact absurd h hs

/-- Only letters could be unknown. -/
theorem lettered_of_arity_pos {t : Token} (h : 0 < t.arity) : t.Lettered := by
  intro d e
  rw [e] at h
  cases h

/-! ## Tokens -/

theorem lexemes_append (offset : Nat) (s t : List Char) :
    lexemes offset (s ++ t) = lexemes offset s ++ lexemes (offset + byteLength s) t := by
  induction s generalizing offset with
  | nil => rfl
  | cons c s ih =>
    rw [List.cons_append, lexemes, lexemes, ih, byteLength_cons, ← Nat.add_assoc]
    by_cases hc : isSkipped c
    · rw [if_pos hc, if_pos hc]
    · rw [if_neg hc, if_neg hc, List.cons_append]

theorem tokens_append {ls ms : List Lexeme} {xs : List (Token × Span)} (h : tokens ls = .ok xs) :
    tokens (ls ++ ms) = (tokens ms).map (xs ++ ·) := by
  induction ls generalizing xs with
  | nil =>
    cases h
    rw [List.nil_append]
    cases tokens ms <;> rfl
  | cons l ls ih =>
    obtain ⟨_ | t, span⟩ := l
    · cases h
    · rw [tokens] at h
      cases hls : tokens ls with
      | error span => rw [hls] at h; cases h
      | ok ys =>
        rw [hls] at h
        cases h
        rw [List.cons_append, tokens, ih hls]
        cases tokens ms <;> rfl

theorem Spells.exists_tokens (h : Spells text ts) (offset : Nat) :
    ∃ xs, tokens (lexemes offset text) = .ok xs ∧ xs.map Prod.fst = ts := by
  induction h generalizing offset with
  | nil => exact ⟨[], rfl, rfl⟩
  | separator hc _ ih =>
    rw [lexemes, if_pos (isSkipped_iff.mpr hc)]
    exact ih _
  | @token t text ts ht _ ih =>
    obtain ⟨hof, hskip⟩ := ofChar?_symbol ht
    obtain ⟨xs, hxs, hmap⟩ := ih (offset + t.symbol.utf8Size)
    refine ⟨(t, ⟨offset, offset + t.symbol.utf8Size⟩) :: xs, ?_, by rw [List.map_cons, hmap]⟩
    rw [lexemes, if_neg (by simp [hskip]), hof, tokens, hxs]
    rfl

theorem Spells.unique (h : Spells text ts) (h' : Spells text us) : ts = us := by
  obtain ⟨xs, hxs, rfl⟩ := h.exists_tokens 0
  obtain ⟨ys, hys, rfl⟩ := h'.exists_tokens 0
  rw [hxs] at hys
  cases hys
  rfl

/-- A text of known characters spells tokens, and each of them finds its operands unless
    there is a first one that does not. -/
theorem exists_spells (h : ∀ c ∈ text, IsKnown c) :
    ∃ ts, Spells text ts ∧ (Supplied ts ∨ ∃ pre t, Lacks text pre t) := by
  induction text using List.reverseRecOn with
  | nil => exact ⟨[], .nil, .inl supplied_nil⟩
  | append_singleton text c ih =>
    obtain ⟨ts, hts, hcases⟩ := ih fun d hd => h d (List.mem_append_left _ hd)
    have hlater : (∃ pre t, Lacks text pre t) → ∃ pre t, Lacks (text ++ [c]) pre t := by
      intro hx
      obtain ⟨pre, t, us, post, rfl, hlacks⟩ := hx
      exact ⟨pre, t, us, post ++ [c], by simp, hlacks⟩
    by_cases hc : IsSeparator c
    · have hspells := hts.append (.separator hc .nil)
      rw [List.append_nil] at hspells
      exact ⟨ts, hspells, hcases.imp_right hlater⟩
    · obtain ⟨t, ht, rfl⟩ := exists_symbol (h c (by simp)) hc
      refine ⟨ts ++ [t], hts.append (.token ht .nil), ?_⟩
      rcases hcases with hs | hx
      · by_cases harity : t.arity ≤ operands ts
        · exact .inl (supplied_snoc_iff.mpr ⟨hs, harity⟩)
        · exact .inr ⟨text, t, ts, [], rfl, hts, hs, Nat.not_le.mp harity⟩
      · exact .inr (hlater hx)

/-! ## Expressions -/

/-- Tokens that find their operands spell expressions, as many as the arities say. -/
theorem exists_expressions (h : Supplied ts) :
    ∃ es : List Expression, es.flatMap Expression.tokens = ts ∧ es.length = operands ts := by
  induction ts using List.reverseRecOn with
  | nil => exact ⟨[], rfl, rfl⟩
  | append_singleton ts t ih =>
    obtain ⟨hts, ht⟩ := supplied_snoc_iff.mp h
    obtain ⟨es, rfl, hlen⟩ := ih hts
    -- The operands of `t` are the last expressions.
    have hlast : (es.drop (es.length - t.arity)).length = t.arity := by
      rw [List.length_drop]
      omega
    obtain ⟨e, rfl, hparts⟩ := Expression.exists_of_top hlast
    refine ⟨es.take (es.length - e.top.arity) ++ [e], ?_, ?_⟩
    · rw [List.flatMap_append, List.flatMap_singleton, e.tokens_eq, hparts, ← List.append_assoc,
        ← List.flatMap_append, List.take_append_drop]
    · rw [operands_snoc, List.length_append, List.length_take, List.length_singleton]
      omega

theorem flatMap_tokens_inj (h : es.flatMap Expression.tokens = fs.flatMap Expression.tokens) :
    es = fs := by
  induction hn : (es.flatMap Expression.tokens).length using Nat.strongRecOn
    generalizing es fs with
  | ind n ih =>
    rcases List.eq_nil_or_concat es with rfl | ⟨es, e, rfl⟩ <;>
      rcases List.eq_nil_or_concat fs with rfl | ⟨fs, f, rfl⟩
    · rfl
    · simp [Expression.tokens_eq f] at h
    · simp [Expression.tokens_eq e] at h
    · rw [List.concat_eq_append] at h hn
      simp only [List.concat_eq_append, List.flatMap_append, List.flatMap_singleton] at h hn
      rw [e.tokens_eq, f.tokens_eq, ← List.append_assoc, ← List.append_assoc,
        ← List.flatMap_append, ← List.flatMap_append] at h
      obtain ⟨h, htop⟩ := List.append_inj' h rfl
      have htop := List.singleton_inj.mp htop
      have hlt : ((es ++ e.parts).flatMap Expression.tokens).length < n := by
        rw [e.tokens_eq, List.length_append, List.length_append, List.length_singleton] at hn
        rw [List.flatMap_append, List.length_append]
        omega
      obtain ⟨rfl, hparts⟩ := List.append_inj' (ih _ hlt h rfl)
        (by rw [e.length_parts, f.length_parts, htop])
      rw [Expression.eq_of_parts htop hparts]

/-! ## The stack -/

theorem pushTokens_flatMap (es : List Expression) (stack : List Regex) :
    pushTokens stack (es.flatMap Expression.tokens) =
      some ((es.map Expression.value).reverse ++ stack) := by
  induction es generalizing stack with
  | nil => rfl
  | cons e es ih =>
    rw [List.flatMap_cons, pushTokens_append, pushTokens_tokens, Option.bind_some, ih]
    simp

theorem pushAll_eq_ok {stack stack' : List Regex} {xs : List (Token × Span)}
    (h : pushTokens stack (xs.map Prod.fst) = some stack') : pushAll stack xs = .ok stack' := by
  induction xs generalizing stack with
  | nil => rw [pushAll, Option.some.inj h]
  | cons x xs ih =>
    obtain ⟨t, span⟩ := x
    rw [List.map_cons, pushTokens, List.foldlM_cons] at h
    obtain ⟨mid, hpush, h⟩ := Option.bind_eq_some_iff.mp h
    rw [pushAll, hpush]
    exact ih h

theorem pushAll_append {stack stack' : List Regex} {xs ys : List (Token × Span)}
    (h : pushAll stack xs = .ok stack') : pushAll stack (xs ++ ys) = pushAll stack' ys := by
  induction xs generalizing stack with
  | nil =>
    cases h
    rfl
  | cons x xs ih =>
    obtain ⟨t, span⟩ := x
    rw [List.cons_append, pushAll]
    rw [pushAll] at h
    cases hpush : push? stack t with
    | none => rw [hpush] at h; cases h
    | some mid =>
      rw [hpush] at h
      exact ih h

/-! ## Whole texts -/

/-- What a text is read as that spells these expressions. -/
def verdict (text : List Char) : List Expression → Except Error Regex
  | [] => .error ⟨.noExpression, ⟨0, byteLength text⟩⟩
  | [e] => .ok e.value
  | es => .error ⟨.tooManyOperands es.length, ⟨0, byteLength text⟩⟩

theorem parse_of_unknown (hpre : ∀ d ∈ pre, IsKnown d) (hc : ¬IsKnown c) :
    parse (pre ++ c :: post) = .error ⟨.unknownSymbol, ⟨byteLength pre, byteLength (pre ++ [c])⟩⟩ := by
  obtain ⟨ts, hts, -⟩ := exists_spells hpre
  obtain ⟨xs, hxs, -⟩ := hts.exists_tokens 0
  have hskip : ¬isSkipped c := fun h => hc (.inr (.inr (isSkipped_iff.mp h)))
  have hlex : lex (pre ++ c :: post) = .error ⟨byteLength pre, byteLength pre + c.utf8Size⟩ := by
    rw [lex, lexemes_append, tokens_append hxs, lexemes, if_neg hskip, ofChar?_eq_none hc,
      Nat.zero_add]
    rfl
  simp [parse, hlex]

/-- The expressions before the token are too few. -/
theorem parse_of_lacks {t : Token} (hknown : ∀ d ∈ text, IsKnown d) (h : Lacks text pre t) :
    parse text = .error ⟨.tooFewOperands t, ⟨byteLength pre, byteLength (pre ++ [t.symbol])⟩⟩ := by
  obtain ⟨ts, post, rfl, hts, hs, hlt⟩ := h
  obtain ⟨es, rfl, hlen⟩ := exists_expressions hs
  have hpost : ∀ d ∈ post, IsKnown d := fun d hd => hknown d (by simp [hd])
  obtain ⟨us, hus, -⟩ := exists_spells hpost
  obtain ⟨xs, hxs, hmap⟩ := hts.exists_tokens 0
  obtain ⟨ys, hys, -⟩ := hus.exists_tokens (byteLength pre + t.symbol.utf8Size)
  obtain ⟨hof, hskip⟩ := ofChar?_symbol (lettered_of_arity_pos (Nat.zero_lt_of_lt hlt))
  have hlex : lex (pre ++ t.symbol :: post) =
      .ok (xs ++ (t, ⟨byteLength pre, byteLength pre + t.symbol.utf8Size⟩) :: ys) := by
    rw [lex, lexemes_append, tokens_append hxs, lexemes, if_neg (by simp [hskip]), hof,
      Nat.zero_add, tokens, hys]
    rfl
  have hstack : pushAll [] xs = .ok (es.map Expression.value).reverse :=
    pushAll_eq_ok (by rw [hmap, pushTokens_flatMap, List.append_nil])
  have hpush : push? (es.map Expression.value).reverse t = none :=
    push?_eq_none_iff.mpr (by simpa [hlen] using hlt)
  simp [parse, hlex, pushAll_append hstack, pushAll, hpush]

theorem parse_of_spells (h : Spells text (es.flatMap Expression.tokens)) :
    parse text = verdict text es := by
  obtain ⟨xs, hxs, hmap⟩ := h.exists_tokens 0
  obtain ⟨stack, hrev⟩ : ∃ stack, (es.map Expression.value).reverse = stack := ⟨_, rfl⟩
  have hstack : pushAll [] xs = .ok stack :=
    pushAll_eq_ok (by rw [hmap, pushTokens_flatMap, List.append_nil, hrev])
  have hlen : stack.length = es.length := by simp [← hrev]
  rw [parse, lex, hxs]
  simp only [hstack]
  rcases stack with _ | ⟨x, _ | ⟨y, stack⟩⟩
  · rw [List.eq_nil_of_length_eq_zero hlen.symm]
    rfl
  · obtain ⟨e, rfl⟩ := List.length_eq_one_iff.mp hlen.symm
    cases hrev
    rfl
  · rcases es with _ | ⟨e, _ | ⟨f, es⟩⟩
    · simp at hlen
    · simp at hlen
    · simp only [verdict, hlen]

/-- Every text is read in one of three ways. The first unknown character is reported; else
    the first token that finds fewer operands than it takes; else the tokens are those
    of some expressions, and of no others, and the text is read as the value of one
    expression, or refused as a whole for having none or more than one. -/
theorem parse_classified (text : List Char) :
    (∀ pre c post, text = pre ++ c :: post → (∀ d ∈ pre, IsKnown d) → ¬IsKnown c →
      parse text = .error ⟨.unknownSymbol, ⟨byteLength pre, byteLength (pre ++ [c])⟩⟩) ∧
    ((∀ c ∈ text, IsKnown c) →
      (∀ pre t, Lacks text pre t → parse text =
        .error ⟨.tooFewOperands t, ⟨byteLength pre, byteLength (pre ++ [t.symbol])⟩⟩) ∧
      ((∀ pre t, ¬Lacks text pre t) → ∃ es : List Expression,
        Spells text (es.flatMap Expression.tokens) ∧
        (∀ fs : List Expression, Spells text (fs.flatMap Expression.tokens) → fs = es) ∧
        parse text = verdict text es)) := by
  refine ⟨?_, fun hknown => ⟨fun pre t h => parse_of_lacks hknown h, fun hnone => ?_⟩⟩
  · intro pre c post h hpre hc
    rw [h]
    exact parse_of_unknown hpre hc
  · obtain ⟨ts, hts, hcases⟩ := exists_spells hknown
    have hs : Supplied ts := hcases.resolve_right fun ⟨pre, t, h⟩ => hnone pre t h
    obtain ⟨es, rfl, -⟩ := exists_expressions hs
    exact ⟨es, hts, fun fs hfs => flatMap_tokens_inj (hfs.unique hts), parse_of_spells hts⟩

/-- An unknown character behind a token without operands, a union that finds one operand,
    and three expressions. -/
theorem parse_classified_mixed :
    parse ['*', 'é'] = .error ⟨.unknownSymbol, ⟨1, 3⟩⟩ ∧
    parse ['a', ' ', '+', '.'] = .error ⟨.tooFewOperands .union, ⟨2, 3⟩⟩ ∧
    ∃ es : List Expression, Spells ['a', 'b', '.', 'c', '1'] (es.flatMap Expression.tokens) ∧
      verdict ['a', 'b', '.', 'c', '1'] es = .error ⟨.tooManyOperands 3, ⟨0, 5⟩⟩ := by
  refine ⟨?_, ?_, ?_⟩
  · exact (parse_classified _).1 ['*'] 'é' [] rfl (by simp [IsKnown]) (by decide)
  · have hletter : Token.Lettered (.letter 'a') := fun c e => Token.letter.inj e ▸ by decide
    have hs : Supplied [.letter 'a'] := supplied_snoc_iff.mpr ⟨supplied_nil, by decide⟩
    have hlacks : Lacks ['a', ' ', '+', '.'] ['a', ' '] .union :=
      ⟨[.letter 'a'], ['.'], rfl, .token hletter (.separator (by decide) .nil), hs, by decide⟩
    exact ((parse_classified _).2 (by simp [IsKnown, IsSeparator])).1 _ _ hlacks
  · have hparse : parse ['a', 'b', '.', 'c', '1'] = .error ⟨.tooManyOperands 3, ⟨0, 5⟩⟩ := rfl
    obtain ⟨hlacks, hsplit⟩ := (parse_classified ['a', 'b', '.', 'c', '1']).2 (by simp [IsKnown])
    obtain ⟨es, hes, -, hverdict⟩ := hsplit fun pre t h => nomatch (hlacks pre t h).symm.trans hparse
    exact ⟨es, hes, hverdict.symm.trans hparse⟩

end Postfix

end RegularLang
