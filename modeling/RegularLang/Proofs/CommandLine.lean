/-
  RegularLang.Proofs.CommandLine — what the program prints and what it is given.

  The regexes that it prints can be given to it again (`printed_reads_back`): `complement`
  ends its output with the text of a regex that is read as one of the other words, and
  `minimize` with one that is read as a regex of the same words. A verbose run only has more
  text in front.

  A regex given in a file and the same regex as an operand are answered alike
  (`loaded_agrees`), also when white space follows it in the file. There is one exception:
  infix text that ends in a white-space letter is read from the operand only, as the file's
  text loses the letter behind its backslash.
-/

import RegularLang.CommandLine.Run
import RegularLang.Proofs.Automaton.Edited
import RegularLang.Proofs.Automaton.Labels
import RegularLang.Proofs.Construction
import RegularLang.Proofs.Guarded.Pipelines
import RegularLang.Proofs.Regex.Tidy
import RegularLang.Proofs.TrailingBlanks

namespace RegularLang

/-- What is read off an automaton is read back from its text, and the regex read has
    the same words. -/
theorem Automaton.parse_render_toRegex {a : Automaton} {r : Regex} (h : a.toRegex = .ok r) :
    ∃ n, Infix.parse r.render = .ok n ∧ n.language = r.language :=
  Infix.parse_render_of_isFilled (Regex.stable_tidy.toRegex h).isFilled

/-- A regex is read from a line of its text too. -/
theorem Infix.parse_line {text : List Char} {e : Regex} (h : parse text = .ok e) :
    parse (line text) = .ok e := by
  obtain ⟨ts, hts, hd⟩ := means_of_parse_eq_ok h
  have hblank : Spells ['\n'] [] := .blank (by decide) .nil
  have hline := hts.append hblank
  rw [List.append_nil] at hline
  exact Means.parse_eq_ok ⟨ts, hline, hd⟩

namespace CommandLine

variable {r n : Regex} {letters : Alphabet}

theorem runTraced_eq_ok {a b : Automaton} {stages : List Stage} (h : a.runStages stages = .ok b) :
    ∃ way, runTraced a stages = .ok (way, b) :=
  ⟨traceText (a.trace stages).1, congrArg (Except.map fun b => (traceText _, b)) h⟩

theorem tracedDfa_eq_ok {more : List Stage} {d b : Automaton} (hd : r.dfa letters = .ok d)
    (hb : d.runStages more = .ok b) : ∃ way, tracedDfa r letters more = .ok (way, b) := by
  have hrun : (Automaton.over r letters).runStages (Stage.toDfa ++ more) = .ok b := by
    rw [Automaton.runStages_append]
    exact (congrArg (fun x => x.bind fun b => b.runStages more) hd).trans hb
  obtain ⟨way, hway⟩ := runTraced_eq_ok hrun
  exact ⟨_, by rw [tracedDfa, hway]; rfl⟩

/-! ## What the tasks print -/

theorem run_complement (h : r.complement letters = .ok n) :
    ∃ way, Task.complement.run r letters = .ok (way, line n.render) := by
  obtain ⟨d, hd, hn⟩ := Checked.bind_eq_ok.mp h
  have hstage : d.runStages [.invert] = .ok d.inverted := rfl
  obtain ⟨way, hway⟩ := tracedDfa_eq_ok hd hstage
  refine ⟨way, ?_⟩
  simp only [Task.run, hway, bind, Except.bind, hn]
  rfl

theorem run_minimize {d : Automaton} (hd : r.minimalDfa letters = .ok d) (hn : d.toRegex = .ok n) :
    ∃ way, Task.minimize.run r letters =
      .ok (way, titled "MINIMAL DFA" d.render ++ banner "REGEX" ++ line n.render) := by
  obtain ⟨b, hb, hmin⟩ := Checked.bind_eq_ok.mp hd
  have hstage : b.runStages [.minify] = .ok d := by
    rw [Automaton.runStages_cons, Stage.apply, hmin]
    rfl
  obtain ⟨way, hway⟩ := tracedDfa_eq_ok hb hstage
  refine ⟨way, ?_⟩
  simp only [Task.run, hway, bind, Except.bind, hn]
  rfl

/-- What a request prints before its answer: the text, the regex and the way there, if
    it is verbose. -/
def Request.front (q : Request) (text : List Char) (r : Regex) (way : List Char) : List Char :=
  if q.verbose then titled "SRC" (line text) ++ titled "REGEX" (line r.render) ++ way else []

theorem run_eq_done {q : Request} {text way answer : List Char}
    (hr : readRegex q.polish text = .ok r) (h : q.task.run r q.letters = .ok (way, answer)) :
    q.run text = .done (q.front text r way ++ answer) := by
  simp only [Request.run, hr, h, Request.front]
  split_ifs <;> rfl

/-! ## And what is read from it -/

/-- The last regex that `complement` and `minimize` print, as a line or without its end,
    is read as a regex of the right words, whatever the letters are. -/
theorem printed_reads_back {q : Request} {text : List Char}
    (hr : readRegex q.polish text = .ok r) :
    (q.task = .complement → ∃ way, ∃ m n : Regex, r.complement q.letters = .ok m ∧
      q.run text = .done (q.front text r way ++ line m.render) ∧
      Infix.parse m.render = .ok n ∧ Infix.parse (line m.render) = .ok n ∧
      ∀ w, w ∈ n.language ↔ (∀ c ∈ w, c ∈ r.knownLetters q.letters) ∧ w ∉ r.language) ∧
    (q.task = .minimize → ∃ way, ∃ d : Automaton, ∃ m n : Regex,
      r.minimalDfa q.letters = .ok d ∧ d.toRegex = .ok m ∧
      q.run text = .done (q.front text r way ++
        (titled "MINIMAL DFA" d.render ++ banner "REGEX" ++ line m.render)) ∧
      Infix.parse m.render = .ok n ∧ Infix.parse (line m.render) = .ok n ∧
      n.language = r.language) := by
  refine ⟨?_, ?_⟩
  · intro htask
    obtain ⟨m, d, hm, hml, hd, hletters, hl⟩ := r.complement_eq_ok q.letters
    obtain ⟨b, -, hb⟩ := Checked.bind_eq_ok.mp hm
    obtain ⟨n, hn, hnl⟩ := Automaton.parse_render_toRegex hb
    obtain ⟨way, hway⟩ := run_complement hm
    refine ⟨way, m, n, hm, run_eq_done hr (htask ▸ hway), hn, Infix.parse_line hn, ?_⟩
    intro w
    rw [hnl, hml, hd.mem_language_inverted, hletters, hl]
    rfl
  · intro htask
    obtain ⟨m, hm, hml⟩ := r.normalForm_eq_ok q.letters
    obtain ⟨d, hd, hdm⟩ := Checked.bind_eq_ok.mp hm
    obtain ⟨n, hn, hnl⟩ := Automaton.parse_render_toRegex hdm
    obtain ⟨way, hway⟩ := run_minimize hd hdm
    exact ⟨way, d, m, n, hd, hdm, run_eq_done hr (htask ▸ hway), hn, Infix.parse_line hn,
      hnl.trans hml⟩

/-- Over letters that infix text gives a meaning of their own, and a line feed. -/
theorem printed_reads_back_special :
    let q : Request := ⟨.complement, .inline "\\**".toList, false, .ofList "1 ε∅\n\\".toList, false⟩
    let r : Regex := .star (.char '*')
    readRegex q.polish "\\**".toList = .ok r ∧ q.task = .complement ∧
      ∃ m n : Regex, q.run "\\**".toList = .done (line m.render) ∧ Infix.parse m.render = .ok n ∧
        ∀ w, w ∈ n.language ↔ (∀ c ∈ w, c ∈ r.knownLetters q.letters) ∧ w ∉ r.language := by
  intro q r
  have hr : readRegex q.polish "\\**".toList = .ok r := by decide
  obtain ⟨way, m, n, -, hrun, hn, -, hl⟩ := (printed_reads_back hr).1 rfl
  exact ⟨hr, rfl, m, n, hrun, hn, hl⟩

variable {text rest : List Char} {polish : Bool}

/-! ## Tasks

No task is refused for the regex that it is given (`Task.exists_run`), so that runs on the same
regex differ in what is read or not at all. -/

/-- Every task has an answer. -/
theorem Task.exists_run (r : Regex) (letters : Alphabet) (t : Task) :
    ∃ way answer, t.run r letters = .ok (way, answer) := by
  cases t with
  | accepts word =>
    obtain ⟨b, hb, -⟩ := r.dfa_eq_ok letters
    have hstages : b.determinized.runStages [] = .ok b.determinized := rfl
    obtain ⟨way, hway⟩ := tracedDfa_eq_ok hb hstages
    exact ⟨way, _, by rw [Task.run, hway]; rfl⟩
  | complement =>
    obtain ⟨n, -, hn, -⟩ := r.complement_eq_ok letters
    obtain ⟨way, hway⟩ := run_complement hn
    exact ⟨way, _, hway⟩
  | minimize =>
    obtain ⟨n, hn, -⟩ := r.normalForm_eq_ok letters
    obtain ⟨d, hd, hdn⟩ := Checked.bind_eq_ok.mp hn
    obtain ⟨way, hway⟩ := run_minimize hd hdn
    exact ⟨way, _, hway⟩
  | dot stage =>
    obtain ⟨b, hb⟩ := Guarded.runStages_upTo_eq_ok r letters stage
    obtain ⟨way, hway⟩ := runTraced_eq_ok hb
    exact ⟨way, _, by rw [Task.run, hway]; rfl⟩
  | suffix c k =>
    obtain ⟨n, hn, -⟩ := r.shortestWithSuffix_eq_ok c k letters
    exact ⟨[], _, by rw [Task.run, hn]; rfl⟩

/-! ## Reading the trimmed text -/

/-- The text can lose the white space at its end and is read as before. -/
def Trimmable (polish : Bool) (text : List Char) : Prop :=
  polish ∨ ¬Infix.EndsInBlankLetter text

theorem readRegex_trimEnd (h : readRegex polish text = .ok r) (htrim : Trimmable polish text) :
    readRegex polish (trimEnd text) = .ok r := by
  cases polish with
  | true => exact Checked.mapError_eq_ok.mpr (Postfix.parse_trimEnd (Checked.mapError_eq_ok.mp h))
  | false =>
    have hblank : ¬Infix.EndsInBlankLetter text := htrim.resolve_left Bool.false_ne_true
    exact Checked.mapError_eq_ok.mpr (Infix.parse_trimEnd (Checked.mapError_eq_ok.mp h) hblank)

/-- What is said of infix text that has lost the letter behind its last backslash. -/
def letterCut (text : List Char) : ReadError :=
  .ofInfix (.at (trimEnd text) (byteLength (trimEnd text)) [.specialLetter])

theorem readRegex_trimEnd_eq_error (h : readRegex polish text = .ok r)
    (htrim : ¬Trimmable polish text) : readRegex polish (trimEnd text) = .error (letterCut text) := by
  obtain ⟨hpolish, hblank⟩ := not_or.mp htrim
  cases polish with
  | true => exact absurd rfl hpolish
  | false =>
    have hparse :=
      Infix.parse_trimEnd_eq_error (Checked.mapError_eq_ok.mp h) (not_not.mp hblank)
    exact congrArg (Except.mapError ReadError.ofInfix) hparse

/-! ## Both runs -/

/-- What a verbose request prints before its text is read. -/
def Request.opening (q : Request) (text : List Char) : List Char :=
  if q.verbose then titled "SRC" (line text) else []

theorem run_eq_misread {q : Request} {e : ReadError} (h : readRegex q.polish text = .error e) :
    q.run text = .misread (q.opening text) e := by
  simp only [Request.run, h, Request.opening]

theorem invoke_eq_run {args : List Argument} {readFile : List Char → Option (List Char)} {q : Request}
    (hq : Request.read args = .ok q) (h : q.source.load readFile = some text) :
    invoke args readFile = q.run text := by
  simp only [invoke, hq, h]

/-- Given a regex in a file instead of as an operand, perhaps with white space behind it,
    the program reads the same regex and gives the same answer, unless the text is infix
    text with a white-space letter at its end: then it misses a letter where the text
    ends. A verbose run shows the text without the white space at its end. -/
theorem loaded_agrees {args args' : List Argument} {readFile : List Char → Option (List Char)}
    {q : Request} {path : List Char} (hq : Request.read args = .ok q)
    (hsource : q.source = .inline text)
    (hq' : Request.read args' = .ok { q with source := .file path })
    (hfile : readFile path = some (text ++ rest)) (hrest : ∀ c ∈ rest, isBlank c)
    (hr : readRegex q.polish text = .ok r) :
    (Source.file path).load readFile = some (trimEnd text) ∧
    (readRegex q.polish (trimEnd text) = .ok r ↔ Trimmable q.polish text) ∧
    ∃ way answer, q.task.run r q.letters = .ok (way, answer) ∧
      invoke args readFile = .done (q.front text r way ++ answer) ∧
      (Trimmable q.polish text →
        invoke args' readFile = .done (q.front (trimEnd text) r way ++ answer)) ∧
      (¬Trimmable q.polish text →
        invoke args' readFile = .misread (q.opening (trimEnd text)) (letterCut text)) := by
  have hload : (Source.file path).load readFile = some (trimEnd text) := by
    rw [Source.load, hfile, Option.map_some, trimEnd_append_blanks hrest]
  obtain ⟨way, answer, hrun⟩ := q.task.exists_run r q.letters
  refine ⟨hload, ⟨?_, readRegex_trimEnd hr⟩, way, answer, hrun, ?_, ?_, ?_⟩
  · intro hread
    by_contra htrim
    rw [readRegex_trimEnd_eq_error hr htrim] at hread
    cases hread
  · rw [invoke_eq_run hq (by rw [hsource]; rfl), run_eq_done hr hrun]
  · intro htrim
    rw [invoke_eq_run hq' hload]
    exact run_eq_done (readRegex_trimEnd hr htrim) hrun
  · intro htrim
    rw [invoke_eq_run hq' hload]
    exact run_eq_misread (readRegex_trimEnd_eq_error hr htrim)

/-- The word `ab` against the regex `a b`, with two line feeds in the file. -/
theorem loaded_agrees_ab :
    let args := ["accepts", "a b", "-w", "ab"].map String.toList
    let args' := ["accepts", "-f", "ab.txt", "-w", "ab"].map String.toList
    let q : Request := ⟨.accepts "ab".toList, .inline "a b".toList, false, .ofList [], false⟩
    let readFile (_ : List Char) := some "a b\n\n".toList
    Request.read args = .ok q ∧ Request.read args' = .ok { q with source := .file "ab.txt".toList } ∧
      Trimmable false "a b".toList ∧
      ∃ answer, invoke args readFile = .done answer ∧ invoke args' readFile = .done answer := by
  intro args args' q readFile
  have hq : Request.read args = .ok q := rfl
  have hq' : Request.read args' = .ok { q with source := .file "ab.txt".toList } := rfl
  have hr : readRegex q.polish "a b".toList = .ok (.concat [.char 'a', .char 'b']) := by decide
  have hfile : readFile "ab.txt".toList = some ("a b".toList ++ ['\n', '\n']) := rfl
  have hrest : ∀ c ∈ ['\n', '\n'], isBlank c := List.all_eq_true.mp (by decide)
  have htrim : Trimmable false "a b".toList := by
    refine .inr (Infix.not_endsInBlankLetter ?_)
    intro c hc
    have hlast : some 'b' = some c := hc
    cases hlast
    decide
  obtain ⟨-, -, way, answer, -, hinline, hloaded, -⟩ :=
    loaded_agrees hq rfl hq' hfile hrest hr
  exact ⟨hq, hq', htrim, answer, hinline, hloaded htrim⟩

/-- The text `a\ ` is no regex when a file contains it. -/
theorem not_loaded_agrees : ¬∀ (polish : Bool) (text path : List Char) (n : Nat) (r : Regex)
    (readFile : List Char → Option (List Char)), readRegex polish text = .ok r →
    readFile path = some (text ++ .replicate n '\n') →
    ∃ loaded, (Source.file path).load readFile = some loaded ∧ readRegex polish loaded = .ok r := by
  intro h
  have hr : readRegex false ['a', '\\', ' '] = .ok (.concat [.char 'a', .char ' ']) := by decide
  obtain ⟨loaded, hload, hread⟩ := h false _ [] 0 _ (fun _ => some ['a', '\\', ' ']) hr rfl
  have hloaded : loaded = ['a', '\\'] := (Option.some.inj hload).symm
  rw [hloaded] at hread
  exact absurd hread (by decide)

end CommandLine

end RegularLang
