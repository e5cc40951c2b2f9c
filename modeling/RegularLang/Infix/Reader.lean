/-
  RegularLang.Infix.Reader — infix text read from left to right, one token at a time and
  without a second try. Each open group, and the text around all of them, keeps its finished
  alternatives and the units of the one that is being read, of which the last may still take
  a star.

  A text is refused at the first place where no accepted text goes on as it does, with what
  could have stood there.
-/

import RegularLang.Infix.Grammar
import RegularLang.Infix.Parser

namespace RegularLang.Infix

/-! ## Groups -/

/-- What has been read of one group. -/
structure Group where
  /-- The finished alternatives, the last first. -/
  alternatives : List Regex
  /-- The units of the alternative that is being read, the last first. -/
  units : List Regex
  deriving DecidableEq

namespace Group

def start : Group := ⟨[], []⟩

/-- Nothing has been read yet. -/
def isFresh (g : Group) : Bool := g.alternatives.isEmpty && g.units.isEmpty

/-- Juxtaposes one more unit. -/
def addUnit (g : Group) (e : Regex) : Group := { g with units := e :: g.units }

/-- Whether a unit has been read since the group or the alternative began. -/
def hasUnit (g : Group) : Bool := !g.units.isEmpty

/-- The alternative that is being read, if it can end here. -/
def alternative? (g : Group) : Option Regex :=
  if g.hasUnit then some (.product g.units.reverse) else none

/-- The regex of the group, if it can end here. -/
def value? (g : Group) : Option Regex :=
  g.alternative?.map fun e => .unionOf (e :: g.alternatives).reverse

/-- What the group stands for when it is closed: `()` matches nothing. -/
def closed? (g : Group) : Option Regex := if g.isFresh then some .zero else g.value?

def starLast? (g : Group) : Option Group :=
  match g.units with
  | [] => none
  | e :: es => some { g with units := e.closure :: es }

/-- Begins the next alternative. -/
def nextAlternative? (g : Group) : Option Group :=
  g.alternative?.map fun e => ⟨e :: g.alternatives, []⟩

end Group

/-! ## Reading -/

structure Reader where
  group : Group
  /-- The groups around it, innermost first. -/
  outer : List Group
  deriving DecidableEq

namespace Reader

def start : Reader := ⟨.start, []⟩

def addUnit (r : Reader) (e : Regex) : Reader := { r with group := r.group.addUnit e }

def close? (r : Reader) : Option Reader :=
  match r.outer with
  | [] => none
  | g :: outer => r.group.closed?.map fun e => ⟨g.addUnit e, outer⟩

/-- The reader after one more token, if an accepted text can go on with it. -/
def take? (r : Reader) : Token → Option Reader
  | .openGroup => some ⟨.start, r.group :: r.outer⟩
  | .closeGroup => r.close?
  | .star => r.group.starLast?.map fun g => { r with group := g }
  | .union => r.group.nextAlternative?.map fun g => { r with group := g }
  | .emptyWord => some (r.addUnit .eps)
  | .nothing => some (r.addUnit .zero)
  | .letter c => some (r.addUnit (.char c))

/-- The regex read, if the text can end here. -/
def finish? (r : Reader) : Option Regex := if r.outer.isEmpty then r.group.value? else none

def allows (r : Reader) : Terminal → Bool
  | .endOfText => r.finish?.isSome
  | .closeGroup => r.close?.isSome
  | .star | .union => r.group.hasUnit
  | .openGroup | .backslash | .emptyWord | .nothing | .plainLetter => true
  | .blank | .specialLetter => false

def expected (r : Reader) : List Terminal := Terminal.all.filter r.allows

/-- The regex of a text of which `r` has read everything before `offset`, or where the text is
    refused and what could have stood there. -/
def read (r : Reader) (offset : Nat) : List Char → Except Failures Regex
  | [] =>
    match r.finish? with
    | none => .error ⟨offset, r.allows⟩
    | some e => .ok e
  | ['\\'] => .error ⟨offset + 1, fun t => t = .specialLetter⟩
  | '\\' :: c :: text =>
    if isSpecial c then (r.addUnit (.char c)).read (offset + 1 + c.utf8Size) text
    else .error ⟨offset + 1, fun t => t = .specialLetter⟩
  | c :: text =>
    if isBlank c then r.read (offset + c.utf8Size) text
    else match r.take? (.ofChar c) with
      | none => .error ⟨offset, r.allows⟩
      | some r => r.read (offset + c.utf8Size) text

section

variable {r r' : Reader} {offset : Nat} {c : Char} {text : List Char}

theorem ne_backslash_of_isBlank (hc : isBlank c) : c ≠ '\\' := by
  rintro rfl
  revert hc
  decide

theorem read_of_not_backslash (hc : c ≠ '\\') : r.read offset (c :: text) =
    if isBlank c then r.read (offset + c.utf8Size) text
    else match r.take? (.ofChar c) with
      | none => .error ⟨offset, r.allows⟩
      | some r => r.read (offset + c.utf8Size) text :=
  read.eq_4 _ _ _ _ (fun e => absurd e hc) fun _ _ e => absurd e hc

theorem read_blank (hc : isBlank c) :
    r.read offset (c :: text) = r.read (offset + c.utf8Size) text := by
  rw [read_of_not_backslash (ne_backslash_of_isBlank hc), if_pos hc]

theorem read_of_take? (hc : isBlank c = false) (hne : c ≠ '\\')
    (h : r.take? (.ofChar c) = some r') :
    r.read offset (c :: text) = r'.read (offset + c.utf8Size) text := by
  rw [read_of_not_backslash hne, if_neg (ne_true_of_eq_false hc), h]

theorem read_of_refused (hc : isBlank c = false) (hne : c ≠ '\\')
    (h : r.take? (.ofChar c) = none) :
    r.read offset (c :: text) = .error ⟨offset, r.allows⟩ := by
  rw [read_of_not_backslash hne, if_neg (ne_true_of_eq_false hc), h]

theorem read_escaped (hc : isSpecial c) : r.read offset ('\\' :: c :: text) =
    (r.addUnit (.char c)).read (offset + 1 + c.utf8Size) text := if_pos hc

theorem read_broken (h : ∀ c ∈ text.head?, isSpecial c = false) :
    r.read offset ('\\' :: text) = .error ⟨offset + 1, fun t => t = .specialLetter⟩ := by
  cases text with
  | nil => rfl
  | cons c text => exact if_neg (ne_true_of_eq_false (h c rfl))

end

end Reader

end RegularLang.Infix
