/- Theory.Numerals -- decimal numbers in a text, as `%d` prints and reads them

`scanNumeral` is what `scanf` does for `%d`, short of storing the number: it skips white
space, takes a sign if there is one and then all the digits there are, and fails if there
are none.  It gives back the number that was printed (`scanNumeral_numeral`), and it never
gets past a character that cannot be part of a number (`scanNumeral_stray`).
-/
import Mathlib.Data.List.TakeWhile
import Mathlib.Algebra.Ring.Int.Defs

namespace SimpleDatabase.Theory

set_option autoImplicit false

/-- `isspace`. -/
def isSpace (c : Char) : Bool := c.isWhitespace || c = '\x0b' || c = '\x0c'

def skipSpaces (text : List Char) : List Char := text.dropWhile isSpace

/-- What a sign is worth, and what is behind it. -/
def scanSign : List Char → Int × List Char
  | '-' :: text => (-1, text)
  | '+' :: text => (1, text)
  | text => (1, text)

/-- `%d`: the number, if there is one, and what is behind it. -/
def scanNumeral (text : List Char) : Option Int × List Char :=
  let (sign, text) := scanSign (skipSpaces text)
  let digits := text.takeWhile Char.isDigit
  (if digits = [] then none else some (sign * Nat.ofDigitChars 10 digits 0), text.dropWhile Char.isDigit)

/-! ## What is left of the text -/

theorem skipSpaces_suffix (text : List Char) : skipSpaces text <:+ text := List.dropWhile_suffix isSpace

theorem scanSign_suffix (text : List Char) : (scanSign text).2 <:+ text := by
  unfold scanSign
  split
  · exact List.suffix_cons _ _
  · exact List.suffix_cons _ _
  · exact List.suffix_rfl

theorem scanNumeral_suffix (text : List Char) : (scanNumeral text).2 <:+ text :=
  (List.dropWhile_suffix _).trans ((scanSign_suffix _).trans (skipSpaces_suffix text))

/-- A character that cannot be part of a number or of the white space before it. -/
def Stray (c : Char) : Prop := isSpace c = false ∧ c.isDigit = false ∧ c ≠ '-' ∧ c ≠ '+'

theorem mem_dropWhile {p : Char → Bool} {c : Char} {text : List Char} (fails : p c = false) (there : c ∈ text) :
    c ∈ text.dropWhile p := by
  rw [← List.takeWhile_append_dropWhile (p := p) (l := text), List.mem_append] at there
  rcases there with taken | left
  · rw [List.mem_takeWhile_imp taken] at fails
    cases fails
  · exact left

theorem mem_skipSpaces {c : Char} {text : List Char} (stray : Stray c) (there : c ∈ text) :
    c ∈ skipSpaces text := mem_dropWhile stray.1 there

theorem mem_scanSign {c : Char} {text : List Char} (stray : Stray c) (there : c ∈ text) :
    c ∈ (scanSign text).2 := by
  unfold scanSign
  split
  · exact (List.mem_cons.mp there).resolve_left stray.2.2.1
  · exact (List.mem_cons.mp there).resolve_left stray.2.2.2
  · exact there

/-- A stray character stays where it is. -/
theorem scanNumeral_stray {c : Char} {text : List Char} (stray : Stray c) (there : c ∈ text) :
    c ∈ (scanNumeral text).2 :=
  mem_dropWhile stray.2.1 (mem_scanSign stray (mem_skipSpaces stray there))

/-! ## Reading what was printed -/

/-- Behind a number: the end, or something that is not a digit. -/
def Separated (text : List Char) : Prop := ∀ c ∈ text.head?, c.isDigit = false

theorem dropWhile_separated {p : Char → Bool} {l text : List Char} (all : ∀ c ∈ l, p c = true)
    (stops : ∀ c ∈ text.head?, p c = false) :
    (l ++ text).dropWhile p = text ∧ (l ++ text).takeWhile p = l := by
  rw [List.dropWhile_append_of_pos all, List.takeWhile_append_of_pos all]
  cases text with
  | nil => simp
  | cons c text => simp [stops c rfl]

theorem all_space {c : Char} (space : isSpace c = true) : ∀ d ∈ [c], isSpace d = true := by
  intro d one
  rw [List.mem_singleton.mp one]
  exact space

theorem skipSpaces_append {spaces text : List Char} (all : ∀ c ∈ spaces, isSpace c = true)
    (stops : ∀ c ∈ text.head?, isSpace c = false) : skipSpaces (spaces ++ text) = text :=
  (dropWhile_separated all stops).1

/-- A digit is no white space. -/
theorem isSpace_of_isDigit {c : Char} (digit : c.isDigit = true) : isSpace c = false := by
  by_contra space
  rw [Bool.not_eq_false, isSpace, Char.isWhitespace] at space
  simp only [Bool.or_eq_true, decide_eq_true_eq] at space
  rcases space with ((((rfl | rfl) | rfl) | rfl) | rfl) | rfl <;> cases digit

theorem numeral_nonneg (n : Nat) : (toString (n : Int)).toList = Nat.toDigits 10 n := by
  rw [Int.toString_eq_repr, Int.repr_eq_if, if_pos (Int.natCast_nonneg n), Int.toNat_natCast, Nat.toList_repr]

theorem numeral_neg {n : Int} (neg : n < 0) : (toString n).toList = '-' :: Nat.toDigits 10 n.natAbs := by
  rw [Int.toString_eq_repr, Int.repr_eq_if, if_neg (Int.not_le.mpr neg), String.toList_append, Nat.toList_repr,
    show (-n).toNat = n.natAbs by omega]
  rfl

theorem digits_cons (n : Nat) : ∃ c text, Nat.toDigits 10 n = c :: text ∧ c.isDigit = true := by
  obtain ⟨c, text, shape⟩ : ∃ c text, Nat.toDigits 10 n = c :: text :=
    List.exists_cons_of_ne_nil Nat.toDigits_ne_nil
  exact ⟨c, text, shape, Nat.isDigit_of_mem_toDigits (by decide) (by decide) (shape ▸ List.mem_cons_self)⟩

/-- A number does not start with white space. -/
theorem numeral_stops (n : Int) (rest : List Char) :
    ∀ c ∈ ((toString n).toList ++ rest).head?, isSpace c = false := by
  intro c head
  by_cases neg : n < 0
  · rw [numeral_neg neg] at head
    cases head
    decide
  · obtain ⟨m, rfl⟩ := Int.eq_ofNat_of_zero_le (Int.not_lt.mp neg)
    obtain ⟨first, more, shape, digit⟩ := digits_cons m
    rw [numeral_nonneg, shape] at head
    cases head
    exact isSpace_of_isDigit digit

theorem scanSign_numeral (n : Int) (rest : List Char) :
    scanSign ((toString n).toList ++ rest) = (if n < 0 then -1 else 1, Nat.toDigits 10 n.natAbs ++ rest) := by
  by_cases neg : n < 0
  · rw [numeral_neg neg, if_pos neg]
    rfl
  · rw [if_neg neg]
    obtain ⟨m, rfl⟩ := Int.eq_ofNat_of_zero_le (Int.not_lt.mp neg)
    obtain ⟨first, more, shape, digit⟩ := digits_cons m
    rw [numeral_nonneg, Int.natAbs_natCast, shape]
    unfold scanSign
    split
    · next same =>
        rw [(List.cons.inj same).1] at digit
        cases digit
    · next same =>
        rw [(List.cons.inj same).1] at digit
        cases digit
    · rfl

/-- **What `%d` has printed, `%d` reads**, if a digit does not follow. -/
theorem scanNumeral_numeral {spaces rest : List Char} (all : ∀ c ∈ spaces, isSpace c = true) (n : Int)
    (separated : Separated rest) :
    scanNumeral (spaces ++ ((toString n).toList ++ rest)) = (some n, rest) := by
  have digits : ∀ c ∈ Nat.toDigits 10 n.natAbs, c.isDigit = true := fun _ =>
    Nat.isDigit_of_mem_toDigits (by decide) (by decide)
  obtain ⟨left, taken⟩ := dropWhile_separated digits separated
  rw [scanNumeral, skipSpaces_append all (numeral_stops n rest), scanSign_numeral]
  simp only [left, taken, Nat.toDigits_ne_nil, if_false, Nat.ofDigitChars_ten_toDigits]
  congr 2
  split <;> omega

end SimpleDatabase.Theory
