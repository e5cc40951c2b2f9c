/-
  RegularLang.Proofs.Dot — the Graphviz text of an automaton, read back, shows its final
  states, its start and all its transitions in order, each with the text of its label
  (`read_renderDot`).

  The text is taken piece by piece. `Spells text ts` says that a piece consists of the
  tokens `ts` whatever comes behind it; so a label is one token, be there what may in it,
  and nothing in it is taken for a part of the graph. `Shows text sts` says the same of
  statements, and what the statements show does not depend on the text any more.
-/

import RegularLang.Automaton.Dot
import RegularLang.Dot.Reader

namespace RegularLang

namespace Dot

variable {text text' : List Char} {ts ts' : List Token} {sts sts' : List Statement} {c : Char}
  {n : Nat}

/-! ## Labels -/

/-- In quotes, whatever is written for a character is read as the character. -/
theorem lexFrom_escapeChar (read : List Char) (c : Char) (rest : List Char) :
    lexFrom (.quoted read) (escapeChar c ++ rest) = lexFrom (.quoted (read ++ [c])) rest := by
  rw [escapeChar]
  split
  · next h => rcases h with rfl | rfl <;> rfl
  · next h =>
    obtain ⟨hbackslash, hquote⟩ := not_or.mp h
    rw [List.singleton_append, lexFrom, Part.next, if_neg hquote, if_neg hbackslash]
    rfl

/-- A text that stands escaped in quotes is read up to the quote behind it. -/
theorem lexFrom_escape (read text rest : List Char) :
    lexFrom (.quoted read) (escape text ++ '"' :: rest) =
      .name (read ++ text) :: lexFrom .between rest := by
  induction text generalizing read with
  | nil =>
    rw [List.append_nil]
    rfl
  | cons c text ih =>
    have hcons : escape (c :: text) = escapeChar c ++ escape text := rfl
    rw [hcons, List.append_assoc, lexFrom_escapeChar, ih, List.append_assoc, List.singleton_append]

/-- Writes `new` in place of every `c`. -/
def replaceEach (c : Char) (new text : List Char) : List Char :=
  text.flatMap fun d => if d = c then new else [d]

/-- A text is escaped in two rounds, and the backslashes come first: those that the other round
    puts in front of quotes are to stay single. -/
theorem escape_eq_replaceEach (text : List Char) :
    escape text = replaceEach '"' ['\\', '"'] (replaceEach '\\' ['\\', '\\'] text) := by
  rw [replaceEach, replaceEach, List.flatMap_assoc, escape]
  refine congrArg text.flatMap (funext fun c => ?_)
  rw [escapeChar]
  split
  · next h => rcases h with rfl | rfl <;> rfl
  · next h =>
    obtain ⟨hbackslash, hquote⟩ := not_or.mp h
    rw [if_neg hbackslash, List.flatMap_singleton, if_neg hquote]

theorem lex_quoted (text rest : List Char) :
    lex ('"' :: escape text ++ '"' :: rest) = .name text :: lex rest := lexFrom_escape [] text rest

/-! ## Tokens -/

/-- The text consists of the tokens, whatever comes behind it. -/
def Spells (text : List Char) (ts : List Token) : Prop :=
  ∀ rest, lexFrom .between (text ++ rest) = ts ++ lexFrom .between rest

theorem Spells.append (h : Spells text ts) (h' : Spells text' ts') :
    Spells (text ++ text') (ts ++ ts') := by
  intro rest
  rw [List.append_assoc, h, h', List.append_assoc]

theorem Spells.flatMap {α : Type} {l : List α} {f : α → List Char} {g : α → List Token}
    (h : ∀ x ∈ l, Spells (f x) (g x)) : Spells (l.flatMap f) (l.flatMap g) := by
  induction l with
  | nil => exact fun _ => rfl
  | cons x l ih =>
    obtain ⟨hx, hl⟩ := List.forall_mem_cons.mp h
    exact hx.append (ih hl)

theorem spells_quoted (text : List Char) : Spells ('"' :: escape text ++ ['"']) [.name text] := by
  intro rest
  rw [List.append_assoc]
  exact lexFrom_escape [] text rest

theorem lexFrom_word (h : ∀ c ∈ text, isNameChar c) (read rest : List Char) :
    lexFrom (.word read) (text ++ rest) = lexFrom (.word (read ++ text)) rest := by
  induction text generalizing read with
  | nil => rw [List.append_nil, List.nil_append]
  | cons c text ih =>
    obtain ⟨hc, htext⟩ := List.forall_mem_cons.mp h
    rw [List.cons_append, lexFrom, Part.next, if_pos hc, List.nil_append, ih htext,
      List.append_assoc, List.singleton_append]

/-! ## Numbers -/

theorem isDigit_of_mem_renderNat (h : c ∈ renderNat n) : c.isDigit :=
  Nat.isDigit_of_mem_toDigits (by decide) (by decide) h

theorem renderNat_ne_nil (n : Nat) : renderNat n ≠ [] := Nat.toDigits_ne_nil

theorem number?_renderNat (n : Nat) : number? (renderNat n) = some n := by
  have hdigits : (renderNat n).all (·.isDigit) :=
    List.all_eq_true.mpr fun _ hc => isDigit_of_mem_renderNat hc
  have hvalue : Nat.ofDigitChars 10 (renderNat n) 0 = n :=
    Nat.ofDigitChars_toDigits (by decide) (by decide)
  rw [number?, if_pos ⟨renderNat_ne_nil n, hdigits⟩, hvalue]

/-- A number is none of the words that mean something in a graph. -/
theorem renderNat_ne (n : Nat) (hc : c.isDigit = false) : renderNat n ≠ c :: text := by
  intro h
  have := isDigit_of_mem_renderNat (h ▸ List.mem_cons_self : c ∈ renderNat n)
  rw [hc] at this
  cases this

theorem isBlank_eq_false_of_isDigit (h : c.isDigit) : isBlank c = false := by
  have h : 48 ≤ c.toNat ∧ c.toNat ≤ 57 := by
    simpa [Char.isDigit, UInt32.le_iff_toNat_le] using h
  exact isBlank_eq_false (by omega) (by omega)

theorem isNameChar_of_isDigit (h : c.isDigit) : isNameChar c := by
  simp [isNameChar, Char.isAlphanum, h]

theorem start_of_isDigit (h : c.isDigit) : Part.start c = (.word [c], []) := by
  have hquote : c ≠ '"' := by
    rintro rfl
    cases h
  rw [Part.start, isBlank_eq_false_of_isDigit h, if_neg Bool.false_ne_true, if_neg hquote,
    if_pos (isNameChar_of_isDigit h)]

/-- A number is one token if what is behind it ends a name. -/
theorem spells_number (n : Nat) (hc : isNameChar c = false) (hstart : (Part.start c).1 = .between) :
    Spells (renderNat n ++ [c]) (.name (renderNat n) :: (Part.start c).2) := by
  intro rest
  obtain ⟨d, ds, h⟩ := List.exists_cons_of_ne_nil (renderNat_ne_nil n)
  have hdigit : ∀ c ∈ d :: ds, isNameChar c := fun c hc =>
    isNameChar_of_isDigit (isDigit_of_mem_renderNat (h ▸ hc))
  have hword : lexFrom .between (d :: ds ++ c :: rest) = lexFrom (.word [d]) (ds ++ c :: rest) := by
    rw [List.cons_append, lexFrom, Part.next, start_of_isDigit]
    · rfl
    · exact isDigit_of_mem_renderNat (h ▸ List.mem_cons_self)
  rw [h, List.append_assoc, List.singleton_append, hword,
    lexFrom_word (List.forall_mem_cons.mp hdigit).2, lexFrom, Part.next,
    if_neg (ne_true_of_eq_false hc), hstart]
  rfl

/-! ## Statements -/

/-- The text reads as the statements, whatever comes behind it. -/
def Shows (text : List Char) (sts : List Statement) : Prop :=
  ∀ rest, statements (lexFrom .between (text ++ rest)) =
    (statements (lexFrom .between rest)).map (sts ++ ·)

theorem Shows.nil : Shows [] [] := fun _ => Option.map_id'.symm

theorem Shows.append (h : Shows text sts) (h' : Shows text' sts') :
    Shows (text ++ text') (sts ++ sts') := by
  intro rest
  rw [List.append_assoc, h, h', Option.map_map]
  simp only [Function.comp_def, List.append_assoc]

theorem Shows.flatMap {α : Type} {l : List α} {f : α → List Char} {g : α → List Statement}
    (h : ∀ x ∈ l, Shows (f x) (g x)) : Shows (l.flatMap f) (l.flatMap g) := by
  induction l with
  | nil => exact .nil
  | cons x l ih =>
    obtain ⟨hx, hl⟩ := List.forall_mem_cons.mp h
    exact hx.append (ih hl)

theorem Spells.shows (h : Spells text ts)
    (hts : ∀ rest, statements (ts ++ rest) = (statements rest).map (sts ++ ·)) :
    Shows text sts := by
  intro rest
  rw [h, hts]

theorem statements_nodes (ns : List Nat) (ts : List Token) :
    statements (ns.map (fun n => .name (renderNat n)) ++ .mark ';' :: ts) =
      (statements ts).map (ns.map (fun n => .node (renderNat n) []) ++ ·) := by
  induction ns with
  | nil => exact Option.map_id'.symm
  | cons n ns ih =>
    -- What comes next is a name or the semicolon, so the node has no attributes.
    have hnode : statements (.name (renderNat n) :: (ns.map (fun n => .name (renderNat n)) ++
        .mark ';' :: ts)) = (statements (ns.map (fun n => .name (renderNat n)) ++
          .mark ';' :: ts)).map (.node (renderNat n) [] :: ·) := by
      cases ns <;> rfl
    rw [List.map_cons, List.cons_append, hnode, ih, Option.map_map]
    rfl

/-- Numbers listed up to a semicolon are nodes without attributes. -/
theorem shows_nodes (ns : List Nat) :
    Shows (ns.flatMap (fun n => renderNat n ++ [' ']) ++ [';'])
      (ns.map fun n => .node (renderNat n) []) := by
  have hsemicolon : Spells [';'] [.mark ';'] := fun _ => rfl
  have hnames : Spells (ns.flatMap fun n => renderNat n ++ [' '])
      (ns.map fun n => .name (renderNat n)) := by
    rw [List.map_eq_flatMap]
    exact Spells.flatMap fun n _ => spells_number n rfl rfl
  refine (hnames.append hsemicolon).shows fun rest => ?_
  rw [List.append_assoc]
  exact statements_nodes ns rest

/-! ## The text of an automaton -/

def Edge.statement (e : Edge) : Statement :=
  .edge (renderNat e.source) (renderNat e.target) [("label".toList, e.label)]

theorem shows_edge (s : Nat) (t : Transition) :
    Shows (edge s t) [Edge.statement ⟨s, t.target, t.label.render⟩] := by
  have hindent : Spells "    ".toList [] := fun _ => rfl
  have harrow : Spells "-> ".toList [.mark '-', .mark '>'] := fun _ => rfl
  have hopen : Spells "[ label = ".toList [.mark '[', .name "label".toList, .mark '='] :=
    fun _ => rfl
  have hclose : Spells " ];\n".toList [.mark ']', .mark ';'] := fun _ => rfl
  have hspace (n : Nat) : Spells (renderNat n ++ [' ']) [.name (renderNat n)] :=
    spells_number n rfl rfl
  have h := hindent.append ((hspace s).append (harrow.append ((hspace t.target).append
    (hopen.append ((spells_quoted t.label.render).append hclose)))))
  have hedge : Shows _ [Edge.statement ⟨s, t.target, t.label.render⟩] := h.shows fun _ => rfl
  simpa [edge, indented, arrow, line] using hedge

/-- The statements of the graph that shows the drawing. -/
def Drawing.statements (d : Drawing) : List Statement :=
  [.setting "rankdir".toList "LR".toList, .setting "size".toList "8,5".toList,
    .node "node".toList [("shape".toList, "doublecircle".toList)]] ++
  d.finals.map (fun s => .node (renderNat s) []) ++
  [.node "node".toList [("shape".toList, "circle".toList)],
    .node "start".toList [("label".toList, []), ("shape".toList, "none".toList)]] ++
  d.start.toList.map (fun s => .edge "start".toList (renderNat s) []) ++
  d.edges.map Edge.statement

theorem shows_edges (a : Automaton) :
    Shows (a.states.mapIdx fun s st => st.transitions.flatMap (edge s)).flatten
      (a.drawing.edges.map Edge.statement) := by
  rw [Automaton.drawing, List.mapIdx_eq_zipIdx_map, List.mapIdx_eq_zipIdx_map, ← List.flatMap_def,
    ← List.flatMap_def, List.map_flatMap]
  refine Shows.flatMap fun x _ => ?_
  rw [List.map_map, List.map_eq_flatMap]
  exact Shows.flatMap fun t _ => shows_edge x.2 t

theorem shows_start (a : Automaton) :
    Shows (if a.states.isEmpty then []
        else indented (arrow "start".toList (renderNat a.start) ++ [';']))
      (a.drawing.start.toList.map fun s => .edge "start".toList (renderNat s) []) := by
  rw [Automaton.drawing]
  split
  · exact .nil
  · have hindent : Spells "    start -> ".toList [.name "start".toList, .mark '-', .mark '>'] :=
      fun _ => rfl
    have hnumber : Spells (renderNat a.start ++ [';']) [.name (renderNat a.start), .mark ';'] :=
      spells_number a.start rfl rfl
    have hend : Spells ['\n'] [] := fun _ => rfl
    have h : Shows _ [.edge "start".toList (renderNat a.start) []] :=
      (hindent.append (hnumber.append hend)).shows fun _ => rfl
    simpa [indented, arrow, line] using h

theorem exists_shows_renderDot (a : Automaton) : ∃ text, Shows text a.drawing.statements ∧
    a.renderDot = line "digraph finite_state_machine \x7b".toList ++ text ++ line ['\x7d'] := by
  have hrankdir : Shows (indented "rankdir=LR;".toList)
      [.setting "rankdir".toList "LR".toList] := fun _ => rfl
  have hsize : Shows (indented "size=\"8,5\"".toList)
      [.setting "size".toList "8,5".toList] := fun _ => rfl
  have hdouble : Shows "    node [shape = doublecircle]; ".toList
      [.node "node".toList [("shape".toList, "doublecircle".toList)]] := fun _ => rfl
  have hcircle : Shows (['\n'] ++ indented "node [shape = circle];".toList)
      [.node "node".toList [("shape".toList, "circle".toList)]] := fun _ => rfl
  have hstart : Shows (indented "start [label=\"\", shape = none];".toList)
      [.node "start".toList [("label".toList, []), ("shape".toList, "none".toList)]] := fun _ => rfl
  refine ⟨_, (((((hrankdir.append hsize).append hdouble).append (shows_nodes a.finals)).append
    (hcircle.append hstart)).append (shows_start a)).append (shows_edges a), ?_⟩
  simp [Automaton.renderDot, indented, line]

/-! ## What the statements show -/

theorem circled_nodes (ns : List Nat) (sts : List Statement) :
    circled "doublecircle".toList (ns.map (fun n => .node (renderNat n) []) ++ sts) =
      ns ++ circled "doublecircle".toList sts := by
  induction ns with
  | nil => rfl
  | cons n ns ih =>
    have hname : renderNat n ≠ "node".toList := renderNat_ne n rfl
    rw [List.map_cons, List.cons_append, circled, if_neg hname]
    show (number? (renderNat n)).toList ++ _ = _
    rw [number?_renderNat, ih]
    rfl

theorem circled_of_edges {shape : List Char} (h : ∀ st ∈ sts, ∃ x y as, st = .edge x y as) :
    circled shape sts = [] := by
  induction sts with
  | nil => rfl
  | cons st sts ih =>
    obtain ⟨⟨x, y, as, rfl⟩, hsts⟩ := List.forall_mem_cons.mp h
    exact ih hsts

theorem start?_statement (e : Edge) : e.statement.start? = none := if_neg (renderNat_ne _ rfl)

theorem edge?_statement (e : Edge) : e.statement.edge? = some e := by
  rw [Edge.statement, Statement.edge?, number?_renderNat, number?_renderNat]
  rfl

theorem finals_statements (d : Drawing) : circled "ellipse".toList d.statements = d.finals := by
  have hedges (shape : List Char) : circled shape
      (d.start.toList.map (fun s => .edge "start".toList (renderNat s) []) ++
        d.edges.map Edge.statement) = [] := by
    refine circled_of_edges fun st hst => ?_
    rcases List.mem_append.mp hst with hst | hst
    · obtain ⟨s, -, rfl⟩ := List.mem_map.mp hst
      exact ⟨_, _, _, rfl⟩
    · obtain ⟨e, -, rfl⟩ := List.mem_map.mp hst
      exact ⟨_, _, _, rfl⟩
  rw [Drawing.statements, List.append_assoc, List.append_assoc, List.append_assoc]
  show circled "doublecircle".toList (d.finals.map _ ++ _) = _
  rw [circled_nodes]
  show d.finals ++ circled "circle".toList (d.start.toList.map _ ++ _) = _
  rw [hedges, List.append_nil]

theorem start_statements (d : Drawing) : d.statements.findSome? Statement.start? = d.start := by
  have hnodes : (d.finals.map fun s => .node (renderNat s) []).findSome? Statement.start? = none := by
    rw [List.findSome?_map]
    exact List.findSome?_eq_none_iff.mpr fun _ _ => rfl
  have hedges : (d.edges.map Edge.statement).findSome? Statement.start? = none := by
    rw [List.findSome?_map]
    exact List.findSome?_eq_none_iff.mpr fun e _ => start?_statement e
  have hstart : (d.start.toList.map fun s => .edge "start".toList (renderNat s) []).findSome?
      Statement.start? = d.start := by
    cases d.start with
    | none => rfl
    | some s => simp [Statement.start?, number?_renderNat]
  rw [Drawing.statements]
  simp only [List.findSome?_append, hnodes, hstart, hedges, Option.or_none]
  rfl

theorem edges_statements (d : Drawing) : d.statements.filterMap Statement.edge? = d.edges := by
  have hnodes : (d.finals.map fun s => .node (renderNat s) []).filterMap Statement.edge? = [] := by
    rw [List.filterMap_map]
    exact List.filterMap_eq_nil_iff.mpr fun _ _ => rfl
  have hstart : (d.start.toList.map fun s => .edge "start".toList (renderNat s) []).filterMap
      Statement.edge? = [] := by
    rw [List.filterMap_map]
    exact List.filterMap_eq_nil_iff.mpr fun _ _ => rfl
  have hedges : (d.edges.map Edge.statement).filterMap Statement.edge? = d.edges := by
    have hsome : Statement.edge? ∘ Edge.statement = some := funext edge?_statement
    rw [List.filterMap_map, hsome, List.filterMap_some]
  rw [Drawing.statements]
  simp only [List.filterMap_append, hnodes, hstart, hedges]
  rfl

/-- The statements show what was drawn. -/
theorem ofStatements_statements (d : Drawing) : .ofStatements d.statements = d := by
  rw [Drawing.ofStatements, finals_statements, start_statements, edges_statements]

/-! ## Reading back -/

theorem read_of_shows (d : Drawing) (h : Shows text d.statements) :
    read (line "digraph finite_state_machine \x7b".toList ++ text ++ line ['\x7d']) =
      some (.ofStatements d.statements) := by
  rw [List.append_assoc]
  have hhead : lex (line "digraph finite_state_machine \x7b".toList ++ (text ++ line ['\x7d'])) =
      .name "digraph".toList :: .name "finite_state_machine".toList :: .mark '\x7b' ::
        lexFrom .between (text ++ line ['\x7d']) := rfl
  have hbody : statements (lexFrom .between (text ++ line ['\x7d'])) = some d.statements := by
    rw [h]
    exact congrArg some (List.append_nil _)
  rw [read, hhead]
  exact congrArg (Option.map Drawing.ofStatements) hbody

/-- Reading the text of an automaton gives back its final states, its start and its transitions
    in order with the texts of their labels. Whatever a text has in it, in quotes it is read up
    to the quote that was put behind it. -/
theorem read_renderDot (a : Automaton) :
    read a.renderDot = some a.drawing ∧ ∀ text,
      escape text = replaceEach '"' ['\\', '"'] (replaceEach '\\' ['\\', '\\'] text) ∧
      ∀ rest, lex ('"' :: escape text ++ '"' :: rest) = .name text :: lex rest := by
  refine ⟨?_, fun text => ⟨escape_eq_replaceEach text, lex_quoted text⟩⟩
  obtain ⟨text, hshows, htext⟩ := exists_shows_renderDot a
  rw [htext, read_of_shows a.drawing hshows, ofStatements_statements]

/-- A label of a backslash, a quote and a line break, each as the regex writes it. -/
example : read (Automaton.renderDot ⟨[⟨true, [⟨0, .concat [.char '\\', .char '"', .char '\n']⟩]⟩], 0,
    .empty⟩) = some ⟨[0], some 0, [⟨0, 0, ['\\', '\\', '"', '\\', '\n']⟩]⟩ := by decide

end Dot

end RegularLang
