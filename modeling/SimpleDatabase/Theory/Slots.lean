/- Theory.Slots -- record arrays inside a larger state, and the loops that move records

`Slots S α ρ` is an array of `α` embedded in a state `S`: reading, writing, a
capacity, and an observer `rest` of what a write leaves alone.  `read` and
`write` check the index; the loops below are the five ways C code moves records
between such arrays, written as the `for` loops they are.

Each loop has one specification, over the whole array: which slots hold what
afterwards, and that `rest` is unchanged.  `view A s n` is the array's first `n`
records as a list; `view_insert` and `view_erase` read a shift plus a write as
list insertion and a shift as list deletion.
-/
import SimpleDatabase.Theory.Machine
import Mathlib.Data.List.Basic
import Mathlib.Tactic.Linarith

namespace SimpleDatabase.Theory

set_option autoImplicit false

/-- An array of `α`, of capacity `cap`, embedded in a state `S`. -/
structure Slots (S α ρ : Type) where
  cap : Nat
  get : S → Nat → α
  put : S → Nat → α → S
  rest : S → ρ
  get_put : ∀ s i a j, get (put s i a) j = if j = i then a else get s j
  rest_put : ∀ s i a, rest (put s i a) = rest s

namespace Slots

variable {S α ρ T σ : Type}

/-- `a[i]`, read. -/
def read (A : Slots S α ρ) (s : S) (i : Nat) : Exec α :=
  if i < A.cap then .ok (A.get s i) else .error .outOfBounds

/-- `a[i] = x`. -/
def write (A : Slots S α ρ) (s : S) (i : Nat) (x : α) : Exec S :=
  if i < A.cap then .ok (A.put s i x) else .error .outOfBounds

theorem read_ok (A : Slots S α ρ) {s : S} {i : Nat} (h : i < A.cap) :
    A.read s i = .ok (A.get s i) := by
  simp [read, h]

theorem write_ok (A : Slots S α ρ) {s : S} {i : Nat} {x : α} (h : i < A.cap) :
    A.write s i x = .ok (A.put s i x) := by
  simp [write, h]

/-- The first `n` records. -/
def view (A : Slots S α ρ) (s : S) (n : Nat) : List α := (List.range n).map (A.get s)

@[simp] theorem view_length (A : Slots S α ρ) (s : S) (n : Nat) : (A.view s n).length = n := by
  simp [view]

@[simp] theorem view_getElem (A : Slots S α ρ) (s : S) (n i : Nat) (h : i < (A.view s n).length) :
    (A.view s n)[i] = A.get s i := by
  simp [view]

theorem view_getElem? (A : Slots S α ρ) (s : S) {n i : Nat} (inside : i < n) :
    (A.view s n)[i]? = some (A.get s i) := by
  rw [List.getElem?_eq_getElem (by simpa using inside), view_getElem]

/-- The records from the `i`-th on. -/
theorem view_drop (A : Slots S α ρ) (s : S) (i n : Nat) :
    (A.view s (i + (n + 1))).drop i = A.get s i :: (A.view s (i + 1 + n)).drop (i + 1) := by
  rw [show i + (n + 1) = i + 1 + n by omega, List.drop_eq_getElem_cons (by simp; omega), view_getElem]

/-- A view is the list it agrees with record by record. -/
theorem view_eq (A : Slots S α ρ) {s : S} {n : Nat} {l : List α} (len : l.length = n)
    (same : ∀ i (h : i < l.length), A.get s i = l[i]) : A.view s n = l := by
  apply List.ext_getElem (by simp [len])
  intro i _ hi
  simpa using same i hi

theorem view_put (A : Slots S α ρ) (s : S) (n i : Nat) (a : α) :
    A.view (A.put s i a) n = (A.view s n).set i a := by
  apply A.view_eq (by simp)
  intro x inside
  rw [A.get_put, List.getElem_set, view_getElem]
  by_cases here : x = i
  · simp [here]
  · simp [here, Ne.symm here]

/-- Writing behind the last record appends. -/
theorem view_put_end (A : Slots S α ρ) (s : S) (n : Nat) (a : α) :
    A.view (A.put s n a) (n + 1) = A.view s n ++ [a] := by
  apply A.view_eq (by simp)
  intro x inside
  simp only [List.length_append, view_length, List.length_singleton] at inside
  rw [A.get_put, List.getElem_append]
  by_cases last : x = n
  · simp [last]
  · rw [if_neg last, dif_pos (by simp; omega), view_getElem]

/-! ## The loops -/

/-- `for (x = n - 1; x >= 0; x--) a[lo + d + x] = a[lo + x]`. -/
def moveUp (A : Slots S α ρ) (lo d : Nat) : Nat → S → Exec S
  | 0, s => .ok s
  | n + 1, s => do
      let a ← A.read s (lo + n)
      let s ← A.write s (lo + d + n) a
      moveUp A lo d n s

/-- `for (x = 0; x < n; x++) a[lo + x] = a[lo + d + x]`. -/
def moveDown (A : Slots S α ρ) (d : Nat) : Nat → Nat → S → Exec S
  | _, 0, s => .ok s
  | lo, n + 1, s => do
      let a ← A.read s (lo + d)
      let s ← A.write s lo a
      moveDown A d (lo + 1) n s

/-- `for (x = 0; x < n; x++) a[j + x] = b[i + x]`. -/
def copyUp (A : Slots S α ρ) (B : Slots T α σ) (src : T) : Nat → Nat → Nat → S → Exec S
  | _, _, 0, s => .ok s
  | i, j, n + 1, s => do
      let a ← B.read src i
      let s ← A.write s j a
      copyUp A B src (i + 1) (j + 1) n s

/-- `for (x = n - 1; x >= 0; x--) a[j + x] = b[i + x]`. -/
def copyDown (A : Slots S α ρ) (B : Slots T α σ) (src : T) (i j : Nat) : Nat → S → Exec S
  | 0, s => .ok s
  | n + 1, s => do
      let a ← B.read src (i + n)
      let s ← A.write s (j + n) a
      copyDown A B src i j n s

/-- `for (; n times; i++, j++) { if (j == hole) j++; a[j] = b[i]; }`. -/
def copyAround (A : Slots S α ρ) (B : Slots T α σ) (src : T) (hole : Nat) :
    Nat → Nat → Nat → S → Exec S
  | _, _, 0, s => .ok s
  | i, j, n + 1, s => do
      let j := if j = hole then j + 1 else j
      let a ← B.read src i
      let s ← A.write s j a
      copyAround A B src hole (i + 1) (j + 1) n s

/-- `while (i < i0 + n && !stop (a[i])) i++`. -/
def find (A : Slots S α ρ) (s : S) (stop : α → Bool) : Nat → Nat → Exec Nat
  | i, 0 => .ok i
  | i, n + 1 => do
      let a ← A.read s i
      if stop a then .ok i else find A s stop (i + 1) n

/-- `while (!stop (a[i])) i++`: the scan has no bound of its own, so it ends at a
record or runs out of the array. -/
def seek (A : Slots S α ρ) (s : S) (stop : α → Bool) : Exec Nat := do
  let i ← A.find s stop 0 A.cap
  if i < A.cap then .ok i else .error .outOfBounds

theorem find_spec (A : Slots S α ρ) (s : S) (stop : α → Bool) (i n : Nat) (fits : i + n ≤ A.cap) :
    ∃ j, A.find s stop i n = .ok j ∧ i ≤ j ∧ j ≤ i + n ∧
      (∀ x, i ≤ x → x < j → stop (A.get s x) = false) ∧ (j < i + n → stop (A.get s j) = true) := by
  induction n generalizing i with
  | zero => exact ⟨i, rfl, by omega, by omega, fun x _ _ => by omega, fun h => by omega⟩
  | succ n ih =>
      simp only [find, A.read_ok (show i < A.cap by omega), Exec.ok_bind]
      cases here : stop (A.get s i) with
      | true => exact ⟨i, rfl, by omega, by omega, fun x _ _ => by omega, fun _ => here⟩
      | false =>
          obtain ⟨j, run, low, high, before, at_⟩ := ih (i + 1) (by omega)
          refine ⟨j, by simpa using run, by omega, by omega, fun x hx hj => ?_,
            fun h => at_ (by omega)⟩
          by_cases same : x = i
          · exact same ▸ here
          · exact before x (by omega) hj

/-- The scan from the start is `findIdx` on the view. -/
theorem find_eq (A : Slots S α ρ) (s : S) (stop : α → Bool) (n : Nat) (fits : n ≤ A.cap) :
    A.find s stop 0 n = .ok ((A.view s n).findIdx stop) := by
  obtain ⟨j, run, -, high, before, at_⟩ := A.find_spec s stop 0 n (by omega)
  rw [run]
  congr 1
  rw [Nat.zero_add] at high at_
  by_cases inside : j < n
  · refine ((List.findIdx_eq (by simpa using inside)).mpr ⟨by simpa using at_ inside, ?_⟩).symm
    intro x hx
    simpa using before x (by omega) hx
  · have : j = n := by omega
    subst this
    have none_ : (A.view s j).findIdx stop = (A.view s j).length := by
      rw [List.findIdx_eq_length]
      intro a member
      obtain ⟨x, hx, rfl⟩ := List.mem_map.mp member
      exact before x (by omega) (List.mem_range.mp hx)
    simpa using none_.symm

/-- An unbounded scan stops at the first record that ends it, or runs out of the array. -/
theorem seek_cases (A : Slots S α ρ) (s : S) (stop : α → Bool) :
    (∃ i, A.seek s stop = .ok i ∧ i < A.cap ∧ stop (A.get s i) = true) ∨
      (A.seek s stop = .error .outOfBounds ∧ ∀ i, i < A.cap → stop (A.get s i) = false) := by
  obtain ⟨j, run, -, -, before, at_⟩ := A.find_spec s stop 0 A.cap (by omega)
  by_cases inside : j < A.cap
  · exact .inl ⟨j, by simp [seek, run, inside], inside, at_ (by omega)⟩
  · exact .inr ⟨by simp [seek, run, inside], fun i low => before i (by omega) (by omega)⟩

/-- A scan for a record that is there stops at the first one. -/
theorem seek_eq (A : Slots S α ρ) (s : S) (stop : α → Bool) (n : Nat) (fits : n ≤ A.cap)
    (there : ∃ a ∈ A.view s n, stop a = true) :
    A.seek s stop = .ok ((A.view s n).findIdx stop) ∧ (A.view s n).findIdx stop < n := by
  have inside : (A.view s n).findIdx stop < n := by
    simpa using List.findIdx_lt_length_of_exists there
  obtain ⟨j, run, -, high, before, at_⟩ := A.find_spec s stop 0 A.cap (by omega)
  have stopped := @List.findIdx_getElem _ stop (A.view s n) (by simpa using inside)
  rw [view_getElem] at stopped
  have here : (A.view s n).findIdx stop = j := by
    rcases Nat.lt_trichotomy ((A.view s n).findIdx stop) j with lt | eq | gt
    · exact absurd (before _ (by omega) lt) (by simp [stopped])
    · exact eq
    · have := List.not_of_lt_findIdx gt
      rw [view_getElem] at this
      exact absurd (at_ (by omega)) (by simpa using this)
  refine ⟨?_, inside⟩
  have : j < A.cap := by omega
  simp [seek, run, this, here]

theorem moveUp_spec (A : Slots S α ρ) (lo d n : Nat) (s : S) (fits : lo + d + n ≤ A.cap) :
    ∃ s', A.moveUp lo d n s = .ok s' ∧ A.rest s' = A.rest s ∧
      ∀ x, A.get s' x = if lo + d ≤ x ∧ x < lo + d + n then A.get s (x - d) else A.get s x := by
  induction n generalizing s with
  | zero =>
      refine ⟨s, rfl, rfl, ?_⟩
      intro x
      rw [if_neg (by omega)]
  | succ n ih =>
      obtain ⟨s', run, same, slots⟩ := ih (A.put s (lo + d + n) (A.get s (lo + n))) (by omega)
      refine ⟨s', ?_, by rw [same, A.rest_put], fun x => ?_⟩
      · simp only [moveUp, A.read_ok (show lo + n < A.cap by omega),
          A.write_ok (show lo + d + n < A.cap by omega), Exec.ok_bind, run]
      · -- the slot just written is the top of the range; below it nothing was touched yet
        rw [slots x]
        simp only [A.get_put]
        grind

theorem moveDown_spec (A : Slots S α ρ) (d lo n : Nat) (s : S) (fits : lo + d + n ≤ A.cap) :
    ∃ s', A.moveDown d lo n s = .ok s' ∧ A.rest s' = A.rest s ∧
      ∀ x, A.get s' x = if lo ≤ x ∧ x < lo + n then A.get s (x + d) else A.get s x := by
  induction n generalizing s lo with
  | zero =>
      refine ⟨s, rfl, rfl, ?_⟩
      intro x
      rw [if_neg (by omega)]
  | succ n ih =>
      obtain ⟨s', run, same, slots⟩ := ih (lo + 1) (A.put s lo (A.get s (lo + d))) (by omega)
      refine ⟨s', ?_, by rw [same, A.rest_put], fun x => ?_⟩
      · simp only [moveDown, A.read_ok (show lo + d < A.cap by omega),
          A.write_ok (show lo < A.cap by omega), Exec.ok_bind, run]
      · rw [slots x]
        simp only [A.get_put]
        grind

theorem copyUp_spec (A : Slots S α ρ) (B : Slots T α σ) (src : T) (i j n : Nat) (s : S)
    (from_ : i + n ≤ B.cap) (to_ : j + n ≤ A.cap) :
    ∃ s', A.copyUp B src i j n s = .ok s' ∧ A.rest s' = A.rest s ∧
      ∀ x, A.get s' x = if j ≤ x ∧ x < j + n then B.get src (i + (x - j)) else A.get s x := by
  induction n generalizing s i j with
  | zero =>
      refine ⟨s, rfl, rfl, ?_⟩
      intro x
      rw [if_neg (by omega)]
  | succ n ih =>
      obtain ⟨s', run, same, slots⟩ :=
        ih (i + 1) (j + 1) (A.put s j (B.get src i)) (by omega) (by omega)
      refine ⟨s', ?_, by rw [same, A.rest_put], fun x => ?_⟩
      · simp only [copyUp, B.read_ok (show i < B.cap by omega),
          A.write_ok (show j < A.cap by omega), Exec.ok_bind, run]
      · rw [slots x]
        simp only [A.get_put]
        grind

theorem copyDown_spec (A : Slots S α ρ) (B : Slots T α σ) (src : T) (i j n : Nat) (s : S)
    (from_ : i + n ≤ B.cap) (to_ : j + n ≤ A.cap) :
    ∃ s', A.copyDown B src i j n s = .ok s' ∧ A.rest s' = A.rest s ∧
      ∀ x, A.get s' x = if j ≤ x ∧ x < j + n then B.get src (i + (x - j)) else A.get s x := by
  induction n generalizing s with
  | zero =>
      refine ⟨s, rfl, rfl, ?_⟩
      intro x
      rw [if_neg (by omega)]
  | succ n ih =>
      obtain ⟨s', run, same, slots⟩ :=
        ih (A.put s (j + n) (B.get src (i + n))) (by omega) (by omega)
      refine ⟨s', ?_, by rw [same, A.rest_put], fun x => ?_⟩
      · simp only [copyDown, B.read_ok (show i + n < B.cap by omega),
          A.write_ok (show j + n < A.cap by omega), Exec.ok_bind, run]
      · rw [slots x]
        simp only [A.get_put]
        grind

/-- The copy that leaves a hole: before the hole slot for slot, after it one up. -/
theorem copyAround_spec (A : Slots S α ρ) (B : Slots T α σ) (src : T) (hole i n : Nat) (s : S)
    (from_ : i + n ≤ B.cap) (to_ : i + n < A.cap) :
    ∀ j, j = (if i ≤ hole then i else i + 1) →
      ∃ s', A.copyAround B src hole i j n s = .ok s' ∧ A.rest s' = A.rest s ∧
        ∀ x, A.get s' x =
          if i ≤ x ∧ x < i + n ∧ x < hole then B.get src x
          else if i < x ∧ x < i + n + 1 ∧ hole < x then B.get src (x - 1)
          else A.get s x := by
  induction n generalizing s i with
  | zero =>
      intro j _
      refine ⟨s, rfl, rfl, ?_⟩
      intro x
      rw [if_neg (by omega), if_neg (by omega)]
  | succ n ih =>
      intro j hj
      -- the slot this round writes, after the skip
      obtain ⟨m, hm⟩ : ∃ m, m = if j = hole then j + 1 else j := ⟨_, rfl⟩
      have slot : m = if i < hole then i else i + 1 := by
        subst hm hj
        split_ifs <;> omega
      have room : m < A.cap := by rw [slot]; split_ifs <;> omega
      obtain ⟨s', run, same, slots⟩ := ih (i + 1) (A.put s m (B.get src i)) (by omega) (by omega)
        (m + 1) (by rw [slot]; split_ifs <;> omega)
      refine ⟨s', ?_, by rw [same, A.rest_put], fun x => ?_⟩
      · simp only [copyAround, ← hm, B.read_ok (show i < B.cap by omega), A.write_ok room,
          Exec.ok_bind, run]
      · rw [slots x]
        simp only [A.get_put, slot]
        grind

/-! ## Views after a shift -/

/-- Records that stand where they did before `at`, and one up after it, are the
old ones with one inserted. -/
theorem view_insert (A : Slots S α ρ) (B : Slots T α σ) {s : S} {t : T} {n at_ : Nat} {a : α}
    (inside : at_ ≤ n)
    (slots : ∀ x, x ≤ n → A.get s x =
      if x = at_ then a else if at_ < x then B.get t (x - 1) else B.get t x) :
    A.view s (n + 1) = (B.view t n).insertIdx at_ a := by
  apply view_eq
  · simp [List.length_insertIdx, inside]
  · intro i hi
    have bound : i ≤ n := by
      simp only [List.length_insertIdx, view_length, inside, if_true] at hi
      omega
    rw [slots i bound, List.getElem_insertIdx]
    grind [view_getElem]

/-- A shift down by one from `at` deletes one record. -/
theorem view_erase (A : Slots S α ρ) {s s' : S} {n at_ : Nat} (inside : at_ < n)
    (slots : ∀ x, x < n - 1 → A.get s' x = if at_ ≤ x then A.get s (x + 1) else A.get s x) :
    A.view s' (n - 1) = (A.view s n).eraseIdx at_ := by
  apply view_eq
  · simp [List.length_eraseIdx, inside]
  · intro i hi
    have bound : i < n - 1 := by
      simp only [List.length_eraseIdx, view_length, inside, if_true] at hi
      omega
    rw [slots i bound, List.getElem_eraseIdx]
    grind [view_getElem]

/-- Making room and writing there inserts a record. -/
theorem moveUp_insert (A : Slots S α ρ) (s : S) {n at_ : Nat} (a : α) (inside : at_ ≤ n)
    (room : n < A.cap) :
    ∃ s', A.moveUp at_ 1 (n - at_) s = .ok s' ∧ A.rest s' = A.rest s ∧
      A.view (A.put s' at_ a) (n + 1) = (A.view s n).insertIdx at_ a := by
  obtain ⟨s', run, same, slots⟩ := A.moveUp_spec at_ 1 (n - at_) s (by omega)
  refine ⟨s', run, same, A.view_insert A inside ?_⟩
  intro x high
  rw [A.get_put, slots]
  grind

/-- Copying around a hole and writing into it inserts a record. -/
theorem copyAround_insert (A : Slots S α ρ) (B : Slots T α σ) (src : T) (s : S) {n hole : Nat}
    (a : α) (inside : hole ≤ n) (from_ : n ≤ B.cap) (to_ : n < A.cap) :
    ∃ s', A.copyAround B src hole 0 0 n s = .ok s' ∧ A.rest s' = A.rest s ∧
      A.view (A.put s' hole a) (n + 1) = (B.view src n).insertIdx hole a := by
  obtain ⟨s', run, same, slots⟩ := A.copyAround_spec B src hole 0 n s (by omega) (by omega) 0
    (by simp)
  refine ⟨s', run, same, A.view_insert B inside ?_⟩
  intro x high
  rw [A.get_put, slots]
  grind

/-- Copying to the end of what is there appends. -/
theorem copyUp_append (A : Slots S α ρ) (B : Slots T α σ) (src : T) (s : S) (i j n : Nat)
    (from_ : i + n ≤ B.cap) (to_ : j + n ≤ A.cap) :
    ∃ s', A.copyUp B src i j n s = .ok s' ∧ A.rest s' = A.rest s ∧
      A.view s' (j + n) = A.view s j ++ (B.view src (i + n)).drop i := by
  obtain ⟨s', run, same, slots⟩ := A.copyUp_spec B src i j n s from_ to_
  refine ⟨s', run, same, A.view_eq (by simp) ?_⟩
  intro x inside
  simp only [List.length_append, view_length, List.length_drop] at inside
  rw [slots, List.getElem_append]
  split
  · rename_i range
    rw [dif_neg (by simp; omega)]
    simp
  · rename_i range
    rw [dif_pos (by simp; omega)]
    simp

/-- Copying to the start of an array fills it. -/
theorem copyUp_fill (A : Slots S α ρ) (B : Slots T α σ) (src : T) (s : S) (i n : Nat)
    (from_ : i + n ≤ B.cap) (to_ : n ≤ A.cap) :
    ∃ s', A.copyUp B src i 0 n s = .ok s' ∧ A.rest s' = A.rest s ∧
      A.view s' n = (B.view src (i + n)).drop i := by
  obtain ⟨s', run, same, records⟩ := A.copyUp_append B src s i 0 n from_ (by omega)
  exact ⟨s', run, same, by simpa [view] using records⟩

/-- The first records of a view. -/
theorem view_take (A : Slots S α ρ) (s : S) {m n : Nat} (le : m ≤ n) :
    (A.view s n).take m = A.view s m := by
  simp [view, ← List.map_take, List.take_range, le]

/-- A shift to the front drops the first records. -/
theorem moveDown_drop (A : Slots S α ρ) (s : S) {d n : Nat} (inside : d ≤ n) (fits : n ≤ A.cap) :
    ∃ s', A.moveDown d 0 (n - d) s = .ok s' ∧ A.rest s' = A.rest s ∧
      A.view s' (n - d) = (A.view s n).drop d := by
  obtain ⟨s', run, same, slots⟩ := A.moveDown_spec d 0 (n - d) s (by omega)
  refine ⟨s', run, same, A.view_eq (by simp) ?_⟩
  intro x high
  simp only [List.length_drop, view_length] at high
  rw [slots, if_pos (by omega), List.getElem_drop, view_getElem, Nat.add_comm]

/-- Making room at the front and copying into it prepends. -/
theorem moveUp_prepend (A : Slots S α ρ) (B : Slots T α σ) (src : T) (s : S) (i d n : Nat)
    (from_ : i + d ≤ B.cap) (to_ : d + n ≤ A.cap) :
    ∃ s' s'', A.moveUp 0 d n s = .ok s' ∧ A.copyDown B src i 0 d s' = .ok s'' ∧
      A.rest s'' = A.rest s ∧ A.view s'' (d + n) = (B.view src (i + d)).drop i ++ A.view s n := by
  obtain ⟨s', shift, same, slots⟩ := A.moveUp_spec 0 d n s (by omega)
  obtain ⟨s'', copy, same', slots'⟩ := A.copyDown_spec B src i 0 d s' from_ (by omega)
  refine ⟨s', s'', shift, copy, same'.trans same, A.view_eq (by simp) ?_⟩
  intro x inside
  simp only [List.length_append, view_length, List.length_drop] at inside
  rw [slots', slots, List.getElem_append]
  by_cases front : x < d
  · rw [if_pos (by omega), dif_pos (by simp; omega)]
    simp
  · rw [if_neg (by omega), if_pos (by omega), dif_neg (by simp; omega)]
    simp

/-- A scan for a record that is there and a shift onto it delete it. -/
theorem seek_erase (A : Slots S α ρ) (s : S) (stop : α → Bool) {n : Nat} (fits : n ≤ A.cap)
    (there : ∃ a ∈ A.view s n, stop a = true) :
    ∃ i s', A.seek s stop = .ok i ∧ i < n ∧ A.moveDown 1 i (n - (i + 1)) s = .ok s' ∧
      A.rest s' = A.rest s ∧
      A.view s' (n - 1) = (A.view s n).eraseIdx ((A.view s n).findIdx stop) := by
  obtain ⟨found, inside⟩ := A.seek_eq s stop n fits there
  obtain ⟨s', run, same, slots⟩ :=
    A.moveDown_spec 1 ((A.view s n).findIdx stop) (n - ((A.view s n).findIdx stop + 1)) s (by omega)
  refine ⟨_, s', found, inside, run, same, A.view_erase inside ?_⟩
  intro x low
  rw [slots]
  grind

end Slots

end SimpleDatabase.Theory
