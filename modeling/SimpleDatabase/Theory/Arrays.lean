/- Theory.Arrays -- plain arrays, and what the loops do to them as lists

`array α n` is a C array of `n` elements, as `Slots`.  `shown a n` is the list of its
first `n` elements: the loops of `Theory.Slots` insert into that list, erase from it and
append to it.  Behind the elements they move they change nothing, and each specification
here says so, because a C program may keep something else there.
-/
import SimpleDatabase.Theory.Slots
import Mathlib.Logic.Function.Basic

namespace SimpleDatabase.Theory

set_option autoImplicit false

variable {α : Type}

/-- An array of `n` elements. -/
def array (α : Type) (n : Nat) : Slots (Nat → α) α Unit where
  cap := n
  get a i := a i
  put a i x := Function.update a i x
  rest _ := ()
  get_put := Function.update_apply
  rest_put _ _ _ := rfl

@[simp] theorem array_cap (n : Nat) : (array α n).cap = n := rfl

/-- `for (; n times; i++) a[i] = x`. -/
def fill (A : Slots (Nat → α) α Unit) (x : α) : Nat → Nat → (Nat → α) → Exec (Nat → α)
  | _, 0, a => .ok a
  | i, n + 1, a => do
      let a ← A.write a i x
      fill A x (i + 1) n a

/-- The first `n` elements. -/
def shown (a : Nat → α) (n : Nat) : List α := (List.range n).map a

@[simp] theorem shown_length (a : Nat → α) (n : Nat) : (shown a n).length = n := by simp [shown]

@[simp] theorem shown_getElem (a : Nat → α) (n i : Nat) (inside : i < (shown a n).length) :
    (shown a n)[i] = a i := by simp [shown]

@[simp] theorem shown_zero (a : Nat → α) : shown a 0 = [] := rfl

theorem shown_succ (a : Nat → α) (n : Nat) : shown a (n + 1) = shown a n ++ [a n] := by
  simp [shown, List.range_succ]

theorem shown_eq {a : Nat → α} {n : Nat} {l : List α} (length : l.length = n)
    (same : ∀ i (h : i < l.length), a i = l[i]) : shown a n = l :=
  (array α 0).view_eq length same

theorem get_of_shown {a : Nat → α} {n i : Nat} {l : List α} (same : shown a n = l)
    (inside : i < l.length) : a i = l[i] := by
  subst same
  simp

theorem shown_congr {a b : Nat → α} {n : Nat} (same : ∀ i, i < n → b i = a i) : shown b n = shown a n :=
  shown_eq (by simp) fun i inside => by simpa using same i (by simpa using inside)

/-- Writing behind the elements shown. -/
theorem shown_update_of_le (a : Nat → α) {n i : Nat} (x : α) (behind : n ≤ i) :
    shown (Function.update a i x) n = shown a n :=
  shown_congr fun j inside => Function.update_of_ne (by omega) x a

theorem shown_update (a : Nat → α) (n i : Nat) (x : α) :
    shown (Function.update a i x) n = (shown a n).set i x := (array α 0).view_put a n i x

theorem shown_take (a : Nat → α) {m n : Nat} (le : m ≤ n) : (shown a n).take m = shown a m :=
  (array α 0).view_take a le

theorem read_array {c i : Nat} (a : Nat → α) (inside : i < c) : (array α c).read a i = .ok (a i) :=
  (array α c).read_ok inside

theorem write_array {c i : Nat} (a : Nat → α) (x : α) (inside : i < c) :
    (array α c).write a i x = .ok (Function.update a i x) := (array α c).write_ok inside

/-! ## The loops -/

section Loops

variable {c d : Nat} (a : Nat → α)

theorem find_shown (stop : α → Bool) {n : Nat} (fits : n ≤ c) :
    (array α c).find a stop 0 n = .ok ((shown a n).findIdx stop) := (array α c).find_eq a stop n fits

theorem seek_shown (stop : α → Bool) {n : Nat} (fits : n ≤ c) (there : ∃ x ∈ shown a n, stop x = true) :
    (array α c).seek a stop = .ok ((shown a n).findIdx stop) ∧ (shown a n).findIdx stop < n :=
  (array α c).seek_eq a stop n fits there

/-- A shift up by one, and a write into the gap. -/
theorem moveUp_shown {at_ n : Nat} (inside : at_ ≤ n) (room : n < c) :
    ∃ a', (array α c).moveUp at_ 1 (n - at_) a = .ok a' ∧
      (∀ x, shown (Function.update a' at_ x) (n + 1) = (shown a n).insertIdx at_ x) ∧
      ∀ i, n < i → a' i = a i := by
  obtain ⟨a', run, -, slots⟩ := (array α c).moveUp_spec at_ 1 (n - at_) a (by simp; omega)
  have slots : ∀ i, a' i = if at_ + 1 ≤ i ∧ i < at_ + 1 + (n - at_) then a (i - 1) else a i := slots
  refine ⟨a', run, fun x => ?_, fun i behind => ?_⟩
  · refine (array α c).view_insert (array α c) (s := Function.update a' at_ x) (t := a) inside ?_
    intro i low
    show Function.update a' at_ x i = if i = at_ then x else if at_ < i then a (i - 1) else a i
    by_cases here : i = at_
    · simp [here]
    · rw [Function.update_of_ne here, slots, if_neg here]
      grind
  · rw [slots, if_neg (by omega)]

/-- A shift down by one. -/
theorem moveDown_shown {at_ n : Nat} (inside : at_ < n) (fits : n ≤ c) :
    ∃ a', (array α c).moveDown 1 at_ (n - (at_ + 1)) a = .ok a' ∧
      shown a' (n - 1) = (shown a n).eraseIdx at_ ∧ ∀ i, n ≤ i + 1 → a' i = a i := by
  obtain ⟨a', run, -, slots⟩ := (array α c).moveDown_spec 1 at_ (n - (at_ + 1)) a (by simp; omega)
  have slots : ∀ i, a' i = if at_ ≤ i ∧ i < at_ + (n - (at_ + 1)) then a (i + 1) else a i := slots
  refine ⟨a', run, ?_, fun i behind => ?_⟩
  · show (array α c).view a' (n - 1) = ((array α c).view a n).eraseIdx at_
    apply (array α c).view_erase inside
    intro i low
    show a' i = if at_ ≤ i then a (i + 1) else a i
    rw [slots]
    grind
  · rw [slots, if_neg (by omega)]

/-- A copy that leaves a gap, and a write into the gap. -/
theorem copyAround_shown (b : Nat → α) {hole n : Nat} (inside : hole ≤ n) (from_ : n ≤ d)
    (to_ : n < c) :
    ∃ a', (array α c).copyAround (array α d) b hole 0 0 n a = .ok a' ∧
      ∀ x, shown (Function.update a' hole x) (n + 1) = (shown b n).insertIdx hole x := by
  obtain ⟨a', run, -, slots⟩ :=
    (array α c).copyAround_spec (array α d) b hole 0 n a (by simp; omega) (by simp; omega) 0 (by simp)
  have slots : ∀ i, a' i = if 0 ≤ i ∧ i < 0 + n ∧ i < hole then b i
      else if 0 < i ∧ i < 0 + n + 1 ∧ hole < i then b (i - 1) else a i := slots
  refine ⟨a', run, fun x => ?_⟩
  refine (array α c).view_insert (array α d) (s := Function.update a' hole x) (t := b) inside ?_
  intro i low
  show Function.update a' hole x i = if i = hole then x else if hole < i then b (i - 1) else b i
  by_cases here : i = hole
  · simp [here]
  · rw [Function.update_of_ne here, slots, if_neg here]
    grind

/-- A copy behind what is there. -/
theorem copyUp_shown (b : Nat → α) {i j n : Nat} (from_ : i + n ≤ d) (to_ : j + n ≤ c) :
    ∃ a', (array α c).copyUp (array α d) b i j n a = .ok a' ∧
      shown a' (j + n) = shown a j ++ (shown b (i + n)).drop i ∧ ∀ x, j + n ≤ x → a' x = a x := by
  obtain ⟨a', run, -, slots⟩ := (array α c).copyUp_spec (array α d) b i j n a from_ to_
  have slots : ∀ x, a' x = if j ≤ x ∧ x < j + n then b (i + (x - j)) else a x := slots
  refine ⟨a', run, ?_, fun x behind => ?_⟩
  · apply shown_eq (by simp)
    intro x inside
    simp only [List.length_append, shown_length, List.length_drop] at inside
    rw [slots, List.getElem_append]
    by_cases range : j ≤ x
    · rw [if_pos (by omega), dif_neg (by simpa using range)]
      simp
    · rw [if_neg (by omega), dif_pos (by simp; omega), shown_getElem]
  · rw [slots, if_neg (by omega)]

theorem fill_shown (x : α) {i n : Nat} (fits : i + n ≤ c) :
    ∃ a', fill (array α c) x i n a = .ok a' ∧ shown a' i = shown a i ∧ ∀ j, i + n ≤ j → a' j = a j := by
  induction n generalizing i a with
  | zero => exact ⟨a, rfl, rfl, fun _ _ => rfl⟩
  | succ n ih =>
      obtain ⟨a', run, same, behind⟩ := ih (Function.update a i x) (i := i + 1) (by omega)
      refine ⟨a', ?_, ?_, fun j far => ?_⟩
      · rw [fill, write_array a x (by omega), Exec.ok_bind, run]
      · have first := congrArg (List.take i) same
        rwa [shown_take _ (Nat.le_succ i), shown_take _ (Nat.le_succ i),
          shown_update_of_le a x (Nat.le_refl i)] at first
      · rw [behind j (by omega), Function.update_of_ne (by omega)]

end Loops

end SimpleDatabase.Theory
