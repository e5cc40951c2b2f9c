/-
  RegularLang.Regex.Basic — regular expressions, the constructors that simplify
  as they build, and the measures read off a syntax tree.

  The character U+0000 is reserved: `char epsilon` matches the empty word only.
  A concatenation or a sum has any number of operands; the empty sum matches
  nothing. `+` and `*` on regexes, and `Regex.closure`, drop ∅ and ε where they
  can and extend a sum or a concatenation on their left instead of nesting it.
  `unionOf` and `product` take many operands at once: they are what joining the
  operands one by one from the left gives (`unionOf_eq_foldl`, `product_eq_foldl`).

  A function on regexes recurses together with a companion on operand lists; the
  `simp` lemmas restate the companion with the operators of lists, or, where it adds
  up, say what it does to them. `Regex.induct` is the induction that goes with them.
-/

import RegularLang.SortedSet

namespace RegularLang

/-- Stands for the empty word inside `Regex.char`. -/
def epsilon : Char := '\x00'

inductive Regex where
  | char (c : Char)
  | concat (es : List Regex)
  | sum (es : List Regex)
  | star (e : Regex)

namespace Regex

@[elab_as_elim, induction_eliminator]
theorem induct {motive : Regex → Prop} (char : ∀ c, motive (.char c))
    (concat : ∀ es, (∀ e ∈ es, motive e) → motive (.concat es))
    (sum : ∀ es, (∀ e ∈ es, motive e) → motive (.sum es))
    (star : ∀ e, motive e → motive (.star e)) (r : Regex) : motive r :=
  @Regex.rec motive (fun es => ∀ e ∈ es, motive e) char concat sum star
    (fun _ h => nomatch h)
    (fun _ _ he hes _ h => (List.mem_cons.mp h).elim (fun e => e ▸ he) (hes _)) r

/-! ## Equality -/

mutual

def decEq : (r s : Regex) → Decidable (r = s)
  | .char a, .char b => decidable_of_iff (a = b) (by simp)
  | .concat es, .concat fs => @decidable_of_iff _ (es = fs) (by simp) (decEqAll es fs)
  | .sum es, .sum fs => @decidable_of_iff _ (es = fs) (by simp) (decEqAll es fs)
  | .star e, .star f => @decidable_of_iff _ (e = f) (by simp) (decEq e f)
  | .char _, .concat _ | .char _, .sum _ | .char _, .star _
  | .concat _, .char _ | .concat _, .sum _ | .concat _, .star _
  | .sum _, .char _ | .sum _, .concat _ | .sum _, .star _
  | .star _, .char _ | .star _, .concat _ | .star _, .sum _ => isFalse (by simp)

def decEqAll : (es fs : List Regex) → Decidable (es = fs)
  | [], [] => isTrue rfl
  | [], _ :: _ | _ :: _, [] => isFalse (by simp)
  | e :: es, f :: fs =>
    match decEq e f, decEqAll es fs with
    | isTrue h, isTrue hs => isTrue (by rw [h, hs])
    | isFalse h, _ => isFalse (by simp [h])
    | _, isFalse hs => isFalse (by simp [hs])

end

instance : DecidableEq Regex := decEq

/-! ## Constructors -/

def eps : Regex := .char epsilon

def zero : Regex := .sum []

instance : Inhabited Regex := ⟨eps⟩

def isZero : Regex → Bool
  | .sum [] => true
  | _ => false

def isEps : Regex → Bool
  | .char c => c = epsilon
  | _ => false

def isChar : Regex → Bool
  | .char _ => true
  | _ => false

/-- The letter of a one-letter regex. -/
def letter? : Regex → Option Char
  | .char c => if c = epsilon then none else some c
  | _ => none

/-- Union. -/
def add (r s : Regex) : Regex :=
  if r.isZero then s
  else if s.isZero then r
  else match r with
    | .sum es => .sum (es ++ [s])
    | r => .sum [r, s]

/-- Concatenation. -/
def mul (r s : Regex) : Regex :=
  if r.isZero then r
  else if s.isZero then zero
  else if r.isEps then s
  else if s.isEps then r
  else match r with
    | .concat es => .concat (es ++ [s])
    | r => .concat [r, s]

instance : Add Regex := ⟨add⟩

instance : Mul Regex := ⟨mul⟩

/-- Kleene closure. -/
def closure (r : Regex) : Regex :=
  if r.isEps || r.isZero then eps
  else match r with
    | .star e => .star e
    | r => .star r

/-! ## ∅ and ε as operands -/

theorem eq_zero_of_isZero {r : Regex} (h : r.isZero) : r = zero := by
  unfold isZero at h
  split at h
  · rfl
  · cases h

theorem eq_eps_of_isEps {r : Regex} (h : r.isEps) : r = eps := by
  unfold isEps at h
  split at h
  · rw [of_decide_eq_true h]; rfl
  · cases h

theorem isZero_iff {r : Regex} : r.isZero ↔ r = zero := ⟨eq_zero_of_isZero, fun h => h ▸ rfl⟩

theorem isEps_iff {r : Regex} : r.isEps ↔ r = eps := ⟨eq_eps_of_isEps, fun h => h ▸ rfl⟩

theorem isZero_eq_false_iff {r : Regex} : r.isZero = false ↔ r ≠ zero := by
  rw [← Bool.not_eq_true, isZero_iff]

theorem isEps_eq_false_iff {r : Regex} : r.isEps = false ↔ r ≠ eps := by
  rw [← Bool.not_eq_true, isEps_iff]

@[simp] theorem isZero_zero : zero.isZero = true := rfl
@[simp] theorem isEps_zero : zero.isEps = false := rfl
@[simp] theorem isZero_eps : eps.isZero = false := rfl
@[simp] theorem isEps_eps : eps.isEps = true := rfl

theorem zero_add_eq (r : Regex) : zero + r = r := rfl

theorem add_of_isZero {r s : Regex} (hr : r.isZero = false) (hs : s.isZero) : r + s = r := by
  show add r s = r
  simp [add, hr, hs]

theorem mul_of_isZero (r : Regex) {s : Regex} (h : s.isZero) : r * s = zero := by
  show mul r s = zero
  unfold mul
  split
  · exact eq_zero_of_isZero ‹_›
  · rfl

theorem eps_mul {r : Regex} (h : r.isZero = false) : eps * r = r := by
  show mul eps r = r
  simp [mul, h]

/-- The empty word in front changes nothing, not even as a value. -/
theorem one_mul_eq (r : Regex) : eps * r = r := by
  by_cases h : r.isZero
  · rw [mul_of_isZero _ h, eq_zero_of_isZero h]
  · exact eps_mul (Bool.not_eq_true _ ▸ h)

theorem mul_of_isEps {r s : Regex} (hr : r.isZero = false) (hs : s.isEps) : r * s = r := by
  show mul r s = r
  obtain rfl := eq_eps_of_isEps hs
  by_cases h : r.isEps
  · simp [mul, eq_eps_of_isEps h]
  · simp [mul, hr, h]

theorem closure_closure (r : Regex) : r.closure.closure = r.closure := by
  by_cases h : r.isEps || r.isZero
  · have hc : r.closure = eps := by
      unfold closure
      exact if_pos h
    rw [hc]
    rfl
  · cases r with
    | star e => rfl
    | char c | concat es | sum es =>
      unfold closure
      rw [if_neg h]
      rfl

/-! ## Letters, size, emptiness -/

mutual

/-- The letters in the order they are written. -/
def letters : Regex → List Char
  | .char c => if c = epsilon then [] else [c]
  | .concat es | .sum es => lettersAll es
  | .star e => e.letters

def lettersAll : List Regex → List Char
  | [] => []
  | e :: es => e.letters ++ lettersAll es

end

mutual

/-- The number of nodes of the syntax tree. -/
def size : Regex → Nat
  | .char _ => 1
  | .concat es | .sum es => 1 + sizeAll es
  | .star e => 1 + e.size

def sizeAll : List Regex → Nat
  | [] => 0
  | e :: es => e.size + sizeAll es

end

mutual

/-- Whether the empty word matches. -/
def nullable : Regex → Bool
  | .char c => c = epsilon
  | .concat es => nullableAll es
  | .sum es => nullableAny es
  | .star _ => true

def nullableAll : List Regex → Bool
  | [] => true
  | e :: es => e.nullable && nullableAll es

def nullableAny : List Regex → Bool
  | [] => false
  | e :: es => e.nullable || nullableAny es

end

mutual

/-- Matches the reversed words. -/
def reversed : Regex → Regex
  | .char c => .char c
  | .concat es => .concat (reversedAll es).reverse
  | .sum es => .sum (reversedAll es)
  | .star e => .star e.reversed

def reversedAll : List Regex → List Regex
  | [] => []
  | e :: es => e.reversed :: reversedAll es

end

mutual

/-- The number of nodes other than `char`. -/
def composites : Regex → Nat
  | .char _ => 0
  | .concat es | .sum es => 1 + compositesAll es
  | .star e => 1 + e.composites

def compositesAll : List Regex → Nat
  | [] => 0
  | e :: es => e.composites + compositesAll es

end

def alphabet (r : Regex) : Alphabet := SortedSet.ofList r.letters

/-! ## The companions and lists -/

theorem lettersAll_eq (es : List Regex) : lettersAll es = es.flatMap letters := by
  induction es <;> simp [lettersAll, *]

theorem nullableAll_eq (es : List Regex) : nullableAll es = es.all nullable := by
  induction es <;> simp [nullableAll, *]

theorem nullableAny_eq (es : List Regex) : nullableAny es = es.any nullable := by
  induction es <;> simp [nullableAny, *]

theorem reversedAll_eq (es : List Regex) : reversedAll es = es.map reversed := by
  induction es <;> simp [reversedAll, *]

@[simp] theorem letters_char (c : Char) : (char c).letters = if c = epsilon then [] else [c] := rfl
@[simp] theorem letters_concat (es : List Regex) : (concat es).letters = es.flatMap letters :=
  lettersAll_eq es
@[simp] theorem letters_sum (es : List Regex) : (sum es).letters = es.flatMap letters :=
  lettersAll_eq es
@[simp] theorem letters_star (e : Regex) : (star e).letters = e.letters := rfl

@[simp] theorem size_char (c : Char) : (char c).size = 1 := rfl
@[simp] theorem size_concat (es : List Regex) : (concat es).size = 1 + sizeAll es := rfl
@[simp] theorem size_sum (es : List Regex) : (sum es).size = 1 + sizeAll es := rfl
@[simp] theorem size_star (e : Regex) : (star e).size = 1 + e.size := rfl
@[simp] theorem sizeAll_nil : sizeAll [] = 0 := rfl
@[simp] theorem sizeAll_cons (e : Regex) (es : List Regex) :
    sizeAll (e :: es) = e.size + sizeAll es := rfl
@[simp] theorem nullable_char (c : Char) : (char c).nullable = decide (c = epsilon) := rfl
@[simp] theorem nullable_concat (es : List Regex) : (concat es).nullable = es.all nullable :=
  nullableAll_eq es
@[simp] theorem nullable_sum (es : List Regex) : (sum es).nullable = es.any nullable :=
  nullableAny_eq es
@[simp] theorem nullable_star (e : Regex) : (star e).nullable = true := rfl

@[simp] theorem reversed_char (c : Char) : (char c).reversed = char c := rfl
@[simp] theorem reversed_concat (es : List Regex) :
    (concat es).reversed = concat (es.map reversed).reverse := by rw [reversed, reversedAll_eq]
@[simp] theorem reversed_sum (es : List Regex) : (sum es).reversed = sum (es.map reversed) := by
  rw [reversed, reversedAll_eq]
@[simp] theorem reversed_star (e : Regex) : (star e).reversed = star e.reversed := rfl

@[simp] theorem composites_char (c : Char) : (char c).composites = 0 := rfl
@[simp] theorem composites_concat (es : List Regex) :
    (concat es).composites = 1 + compositesAll es := rfl
@[simp] theorem composites_sum (es : List Regex) :
    (sum es).composites = 1 + compositesAll es := rfl
@[simp] theorem composites_star (e : Regex) : (star e).composites = 1 + e.composites := rfl
@[simp] theorem compositesAll_nil : compositesAll [] = 0 := rfl
@[simp] theorem compositesAll_cons (e : Regex) (es : List Regex) :
    compositesAll (e :: es) = e.composites + compositesAll es := rfl
@[simp] theorem mem_alphabet {r : Regex} {c : Char} : c ∈ r.alphabet ↔ c ∈ r.letters :=
  SortedSet.mem_ofList

theorem epsilon_not_mem_letters (r : Regex) : epsilon ∉ r.letters := by
  induction r with
  | char c => rw [letters_char]; split <;> simp_all [eq_comm]
  | concat es ih | sum es ih => simpa using ih
  | star e ih => exact ih

end Regex

namespace Regex

/-! ## Unions -/

/-- The union of operands of which none is ∅. -/
def alternate : List Regex → Regex
  | [] => zero
  | [r] => r
  | .sum es :: rs => .sum (es ++ rs)
  | r :: rs => .sum (r :: rs)

/-- The union of several regexes. -/
def unionOf (rs : List Regex) : Regex := alternate (rs.filter (!·.isZero))

@[simp] theorem alternate_sum_cons (es rs : List Regex) :
    alternate (.sum es :: rs) = .sum (es ++ rs) := by
  cases rs <;> simp [alternate]

/-- Between operands other than ∅, union is alternation. -/
theorem add_eq_alternate {r s : Regex} (hr : r.isZero = false) (hs : s.isZero = false) :
    r + s = alternate [r, s] := by
  show add r s = _
  simp only [add, hr, hs, Bool.false_eq_true, if_false]
  cases r <;> rfl

theorem alternate_add_cons {r s : Regex} (hr : r.isZero = false) (hs : s.isZero = false)
    (rs : List Regex) : alternate ((r + s) :: rs) = alternate (r :: s :: rs) := by
  rw [add_eq_alternate hr hs]
  cases r with
  | sum es => simp
  | _ => exact alternate_sum_cons _ rs

theorem isZero_add {r s : Regex} (hr : r.isZero = false) (hs : s.isZero = false) :
    (r + s).isZero = false := by
  rw [add_eq_alternate hr hs]
  cases r with
  | sum es => cases es <;> simp [isZero]
  | _ => rfl

theorem foldl_add (rs : List Regex) {r : Regex} (hr : r.isZero = false) :
    rs.foldl (· + ·) r = alternate (r :: rs.filter (!·.isZero)) := by
  induction rs generalizing r with
  | nil => rfl
  | cons s rs ih =>
    by_cases hs : s.isZero
    · simp [add_of_isZero hr hs, ih hr, hs]
    · have hs : s.isZero = false := by simp [hs]
      simp [ih (isZero_add hr hs), alternate_add_cons hr hs, hs]

/-- A union of several regexes is what joining them one by one from the left gives. -/
theorem unionOf_eq_foldl (rs : List Regex) : unionOf rs = rs.foldl (· + ·) zero := by
  unfold unionOf
  induction rs with
  | nil => rfl
  | cons r rs ih =>
    by_cases hr : r.isZero
    · simp [eq_zero_of_isZero hr, zero_add_eq, ← ih]
    · have hr : r.isZero = false := by simp [hr]
      simp [zero_add_eq, foldl_add rs hr, hr]

@[simp] theorem unionOf_nil : unionOf [] = zero := rfl

theorem unionOf_append_singleton (rs : List Regex) (s : Regex) :
    unionOf (rs ++ [s]) = unionOf rs + s := by
  rw [unionOf_eq_foldl, unionOf_eq_foldl, List.foldl_append]; rfl

@[simp] theorem unionOf_singleton (r : Regex) : unionOf [r] = r :=
  (unionOf_append_singleton [] r).trans (zero_add_eq r)

/-! ## Concatenations -/

/-- The concatenation of operands of which none is ∅ and none is ε. -/
def juxtapose : List Regex → Regex
  | [] => eps
  | [r] => r
  | .concat es :: rs => .concat (es ++ rs)
  | r :: rs => .concat (r :: rs)

/-- The concatenation of several regexes. -/
def product (rs : List Regex) : Regex :=
  if rs.any isZero then zero else juxtapose (rs.filter (!·.isEps))

/-- The letters of a word one after the other. -/
def word (w : List Char) : Regex := product (w.map .char)

@[simp] theorem juxtapose_concat_cons (es rs : List Regex) :
    juxtapose (.concat es :: rs) = .concat (es ++ rs) := by
  cases rs <;> simp [juxtapose]

/-- Between operands that are neither ∅ nor ε, concatenation is juxtaposition. -/
theorem mul_eq_juxtapose {r s : Regex} (hr : r.isZero = false ∧ r.isEps = false)
    (hs : s.isZero = false ∧ s.isEps = false) : r * s = juxtapose [r, s] := by
  show mul r s = _
  simp only [mul, hr.1, hr.2, hs.1, hs.2, Bool.false_eq_true, if_false]
  cases r <;> rfl

theorem juxtapose_mul_cons {r s : Regex} (hr : r.isZero = false ∧ r.isEps = false)
    (hs : s.isZero = false ∧ s.isEps = false) (rs : List Regex) :
    juxtapose (r * s :: rs) = juxtapose (r :: s :: rs) := by
  rw [mul_eq_juxtapose hr hs]
  cases r with
  | concat es => simp
  | _ => exact juxtapose_concat_cons _ rs

theorem mul_neither {r s : Regex} (hr : r.isZero = false ∧ r.isEps = false)
    (hs : s.isZero = false ∧ s.isEps = false) :
    (r * s).isZero = false ∧ (r * s).isEps = false := by
  rw [mul_eq_juxtapose hr hs]
  cases r <;> exact ⟨rfl, rfl⟩

theorem foldl_mul_zero (rs : List Regex) : rs.foldl (· * ·) zero = zero := by
  induction rs with
  | nil => rfl
  | cons r rs ih => exact ih

theorem foldl_mul (rs : List Regex) {r : Regex} (hr : r.isZero = false ∧ r.isEps = false) :
    rs.foldl (· * ·) r =
      if rs.any isZero then zero else juxtapose (r :: rs.filter (!·.isEps)) := by
  induction rs generalizing r with
  | nil => rfl
  | cons s rs ih =>
    by_cases hz : s.isZero
    · simp [mul_of_isZero r hz, foldl_mul_zero, hz]
    · by_cases he : s.isEps
      · simp [mul_of_isEps hr.1 he, ih hr, hz, he]
      · have hs : s.isZero = false ∧ s.isEps = false := by simp [hz, he]
        simp [ih (mul_neither hr hs), juxtapose_mul_cons hr hs, hz, he]

/-- A concatenation of several regexes is what joining them one by one from the left gives. -/
theorem product_eq_foldl (rs : List Regex) : product rs = rs.foldl (· * ·) eps := by
  unfold product
  induction rs with
  | nil => rfl
  | cons r rs ih =>
    by_cases hz : r.isZero
    · simp [mul_of_isZero eps hz, foldl_mul_zero, hz]
    · by_cases he : r.isEps
      · simp [mul_of_isEps isZero_eps he, ← ih, hz, he]
      · have hr : r.isZero = false ∧ r.isEps = false := by simp [hz, he]
        simp [eps_mul hr.1, foldl_mul rs hr, hz, he]

@[simp] theorem product_nil : product [] = eps := rfl

theorem product_append_singleton (rs : List Regex) (s : Regex) :
    product (rs ++ [s]) = product rs * s := by
  rw [product_eq_foldl, product_eq_foldl, List.foldl_append]; rfl

@[simp] theorem product_singleton (r : Regex) : product [r] = r :=
  (product_append_singleton [] r).trans (one_mul_eq r)

end Regex

end RegularLang
