/-
  RegularLang.Dot.Reader — Graphviz text read as the drawing of an automaton. The text is
  a graph of statements:

    graph  ::=  digraph name { statement* }
    statement  ::=  name = name  |  name attributes?  |  name - > name attributes?  |  ;
    attributes  ::=  [ (name = name  |  ,)* ]

  The statement `node` sets the shape of the nodes that are listed after it. Nodes listed
  with a double circle are final, the arrow from `start` leads to the start state, and an
  arrow between two numbers is a transition with the label that it has.
-/

import RegularLang.Automaton.Dot

namespace RegularLang

namespace Dot

/-! ## Tokens

Letters, digits and underscores next to each other are one name, and so is everything between
two quotes. In quotes a backslash and a quote stand for a quote, and two backslashes for one,
so a name in quotes ends at the first quote that no such backslash stands before. White space
between tokens is skipped, and every other character is a token of its own. -/

inductive Token where
  | name (text : List Char)
  | mark (c : Char)
  /-- The text ends in quotes. -/
  | unclosed
  deriving DecidableEq

def isNameChar (c : Char) : Bool := c.isAlphanum || c = '_'

/-- What a text is read in the middle of, with what has been read of a name. -/
inductive Part where
  | between
  | word (read : List Char)
  | quoted (read : List Char)
  /-- Behind a backslash in quotes. -/
  | escaped (read : List Char)

namespace Part

/-- A character where a token may begin: what it begins, and the tokens that it ends. -/
def start (c : Char) : Part × List Token :=
  if isBlank c then (between, [])
  else if c = '"' then (quoted [], [])
  else if isNameChar c then (word [c], [])
  else (between, [.mark c])

def next : Part → Char → Part × List Token
  | between, c => start c
  | word read, c =>
    if isNameChar c then (word (read ++ [c]), [])
    else ((start c).1, .name read :: (start c).2)
  | quoted read, c =>
    if c = '"' then (between, [.name read])
    else if c = '\\' then (escaped read, [])
    else (quoted (read ++ [c]), [])
  | escaped read, c =>
    if c = '"' ∨ c = '\\' then (quoted (read ++ [c]), []) else (quoted (read ++ ['\\', c]), [])

/-- The last token, if the text ends here. -/
def finish : Part → List Token
  | between => []
  | word read => [.name read]
  | quoted _ | escaped _ => [.unclosed]

end Part

def lexFrom : Part → List Char → List Token
  | part, [] => part.finish
  | part, c :: text => (part.next c).2 ++ lexFrom (part.next c).1 text

def lex (text : List Char) : List Token := lexFrom .between text

/-! ## Statements -/

abbrev Attributes := List (List Char × List Char)

inductive Statement where
  | setting (name value : List Char)
  | node (name : List Char) (attributes : Attributes)
  | edge (source target : List Char) (attributes : Attributes)
  deriving DecidableEq

mutual

/-- The statements up to the end of the graph, which is the end of the text. -/
def statements : List Token → Option (List Statement)
  | [.mark '\x7d'] => some []
  | .mark ';' :: ts => statements ts
  | .name x :: .mark '=' :: .name v :: ts => (statements ts).map (.setting x v :: ·)
  | .name x :: .mark '-' :: .mark '>' :: .name y :: .mark '[' :: ts => attributes (.edge x y) [] ts
  | .name x :: .mark '-' :: .mark '>' :: .name y :: ts => (statements ts).map (.edge x y [] :: ·)
  | .name x :: .mark '[' :: ts => attributes (.node x) [] ts
  | .name x :: ts => (statements ts).map (.node x [] :: ·)
  | _ => none

/-- The rest of a statement with the attributes `found`, and the statements behind it. -/
def attributes (statement : Attributes → Statement) (found : Attributes) :
    List Token → Option (List Statement)
  | .mark ']' :: ts => (statements ts).map (statement found :: ·)
  | .mark ',' :: ts => attributes statement found ts
  | .name x :: .mark '=' :: .name v :: ts => attributes statement (found ++ [(x, v)]) ts
  | _ => none

end

/-! ## Drawings -/

structure Edge where
  source : Nat
  target : Nat
  label : List Char
  deriving DecidableEq

structure Drawing where
  finals : List Nat
  start : Option Nat
  edges : List Edge
  deriving DecidableEq

def number? (text : List Char) : Option Nat :=
  if text ≠ [] ∧ text.all (·.isDigit) then some (Nat.ofDigitChars 10 text 0) else none

/-- The numbers of the nodes listed with a double circle, where nodes have the shape `shape`
    unless something else is said. -/
def circled (shape : List Char) : List Statement → List Nat
  | [] => []
  | .node name attributes :: sts =>
    let own := (attributes.lookup "shape".toList).getD shape
    if name = "node".toList then circled own sts
    else if own = "doublecircle".toList then (number? name).toList ++ circled shape sts
    else circled shape sts
  | _ :: sts => circled shape sts

/-- The state that the arrow from `start` leads to. -/
def Statement.start? : Statement → Option Nat
  | .edge source target _ => if source = "start".toList then number? target else none
  | _ => none

def Statement.edge? : Statement → Option Edge
  | .edge source target attributes => do
    return ⟨← number? source, ← number? target, ← attributes.lookup "label".toList⟩
  | _ => none

def Drawing.ofStatements (sts : List Statement) : Drawing where
  finals := circled "ellipse".toList sts
  start := sts.findSome? Statement.start?
  edges := sts.filterMap Statement.edge?

def read (text : List Char) : Option Drawing :=
  match lex text with
  | .name x :: .name _ :: .mark '\x7b' :: ts =>
    if x = "digraph".toList then (statements ts).map .ofStatements else none
  | _ => none

end Dot

/-- What a drawing of the automaton has to show. -/
def Automaton.drawing (a : Automaton) : Dot.Drawing where
  finals := a.finals
  start := if a.states.isEmpty then none else some a.start
  edges := (a.states.mapIdx fun s st =>
    st.transitions.map fun t => ⟨s, t.target, t.label.render⟩).flatten

end RegularLang
