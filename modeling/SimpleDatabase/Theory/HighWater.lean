/- Theory.HighWater -- how long a file gets that grows by a block when no page is free

Pages are taken and given back in any order, and still the file is only as long as its
largest load asked for: a block is added when every page is in use, so at that moment
no earlier load was larger.  `HighWater grow a used peak` says so of the books `a` with
`used` pages in use now and `peak` at most so far.  One `take` keeps it (`HighWater.take`), and
so do a number of them (`HighWater.taken`) and whatever is given back (`HighWater.given`).

An insertion into a tree only takes pages (`grow_alloc`), a deletion only gives them back
(`shrink_alloc`).
-/
import SimpleDatabase.Theory.Shrink

namespace SimpleDatabase.Theory

set_option autoImplicit false
set_option linter.unusedSectionVars false

namespace Alloc

/-- The pages of the blocks that hold `n` pages, and the header. -/
def fileLength (grow n : Nat) : Nat := 1 + grow * ((n + grow - 1) / grow)

/-- Books to which pages have been given back. -/
def Given (a a' : Alloc) : Prop := a'.num = a.num ∧ a.free.length ≤ a'.free.length

/-- The books after `n` pages have been taken. -/
def taken (grow n : Nat) (a : Alloc) : Alloc := (fun a => (take grow a).2)^[n] a

structure HighWater (grow : Nat) (a : Alloc) (used peak : Nat) : Prop where
  books : used + a.free.length + 1 = a.num
  length : a.num = fileLength grow peak
  below : used ≤ peak

theorem lt_fileLength {grow : Nat} (positive : 1 ≤ grow) (n : Nat) : n < fileLength grow n := by
  have rounded := Nat.div_add_mod (n + grow - 1) grow
  have rest := Nat.mod_lt (n + grow - 1) positive
  rw [fileLength]
  omega

/-- More pages than fill the blocks there are need one block more. -/
theorem fileLength_succ {grow n : Nat} (positive : 1 ≤ grow) (full : n + 1 = fileLength grow n) :
    fileLength grow (n + 1) = n + 1 + grow := by
  obtain ⟨blocks, number⟩ : ∃ blocks, blocks = (n + grow - 1) / grow := ⟨_, rfl⟩
  have whole : n = grow * blocks := by
    rw [fileLength, ← number] at full
    omega
  have next : (n + 1 + grow - 1) / grow = blocks + 1 := by
    rw [show n + 1 + grow - 1 = n + grow by omega, whole, ← Nat.mul_succ, Nat.mul_div_cancel_left _ positive]
  rw [fileLength, next, Nat.mul_succ, ← whole]
  omega

/-- Any number of pages up to what the blocks hold need no other blocks. -/
theorem fileLength_eq {grow n m : Nat} (positive : 1 ≤ grow) (le : n ≤ m) (room : m + 1 ≤ fileLength grow n) :
    fileLength grow m = fileLength grow n := by
  have least : (n + grow - 1) / grow ≤ (m + grow - 1) / grow := Nat.div_le_div_right (by omega)
  have most : (m + grow - 1) / grow ≤ (n + grow - 1) / grow := by
    rw [fileLength] at room
    rw [← Nat.lt_succ_iff, Nat.div_lt_iff_lt_mul positive, Nat.succ_mul, Nat.mul_comm]
    omega
  rw [fileLength, fileLength, Nat.le_antisymm most least]

namespace HighWater

variable {grow used peak : Nat} {a a' : Alloc}

theorem take (high : HighWater grow a used peak) (positive : 1 ≤ grow) :
    HighWater grow (a.take grow).2 (used + 1) (max peak (used + 1)) := by
  obtain ⟨free, num⟩ := a
  have books : used + free.length + 1 = num := high.books
  have length : num = fileLength grow peak := high.length
  have below := high.below
  have top := lt_fileLength positive peak
  cases free with
  | cons p ps =>
      rw [List.length_cons] at books
      refine ⟨by simp only [Alloc.take]; omega, ?_, le_max_right _ _⟩
      refine length.trans (fileLength_eq positive (le_max_left _ _) ?_).symm
      omega
  | nil =>
      rw [List.length_nil] at books
      -- all pages are in use, so there never were more
      obtain rfl : peak = used := by omega
      refine ⟨?_, ?_, le_max_right _ _⟩
      · simp only [Alloc.take, List.length_range']
        omega
      · rw [Nat.max_eq_right (Nat.le_succ _), fileLength_succ positive (by omega)]
        simp only [Alloc.take]
        omega

theorem taken (high : HighWater grow a used peak) (positive : 1 ≤ grow) (n : Nat) :
    HighWater grow (a.taken grow n) (used + n) (max peak (used + n)) := by
  induction n generalizing a used peak with
  | zero =>
      rw [Nat.add_zero, Nat.max_eq_left high.below]
      exact high
  | succ n ih =>
      have rest := ih (high.take positive)
      rw [Alloc.taken, Function.iterate_succ_apply, show used + (n + 1) = used + 1 + n by omega]
      rwa [Nat.max_assoc, Nat.max_eq_right (show used + 1 ≤ used + 1 + n by omega)] at rest

theorem given (high : HighWater grow a used peak) (given : Given a a') {used' : Nat}
    (books : used' + a'.free.length + 1 = a'.num) : HighWater grow a' used' peak := by
  obtain ⟨same, more⟩ := given
  have before := high.books
  have below := high.below
  exact ⟨books, same.trans high.length, by omega⟩

end HighWater

theorem Given.refl (a : Alloc) : Given a a := ⟨rfl, Nat.le_refl _⟩

theorem Given.give {a a' : Alloc} (given : Given a a') (p : Nat) : Given a (a'.give p) :=
  ⟨given.1, Nat.le_succ_of_le given.2⟩

end Alloc

/-! ## Trees -/

namespace PageTree

variable {K V : Type} {h : Nat} [LinearOrder K] [Inhabited K] {few capacity cap : Nat → Nat} {block : Nat}
  {carry : K → K} {k : K} {v : V}

variable (cap block carry) in
theorem overflow_alloc (s : PageTree K V h) (a : Alloc) (posted : List (Posting K)) :
    ∃ n, (overflow cap block carry s a posted).alloc = a.taken block n := by
  rw [overflow]
  split
  · exact ⟨0, rfl⟩
  · exact ⟨1, rfl⟩

/-- Insertion takes pages. -/
theorem grow_alloc (s : PageTree K V h) (a : Alloc) :
    ∃ n, (grow cap block carry k v s a).alloc = a.taken block n := by
  induction h generalizing a with
  | zero => exact overflow_alloc _ _ _ _ _ _
  | succ h ih =>
      obtain ⟨n, below⟩ := ih (s.root.focus k).2.1 a
      rw [grow]
      cases (grow cap block carry k v (s.root.focus k).2.1 a).grown with
      | one c => exact ⟨n, below⟩
      | two l sep r =>
          obtain ⟨n', here⟩ := overflow_alloc cap block carry (branch s.pg (Node.plug _ l ((sep, r) :: _))) _ _
          refine ⟨n' + n, here.trans ?_⟩
          rw [below, Alloc.taken, Alloc.taken, Alloc.taken, Function.iterate_add_apply]

theorem settle_alloc (pg : Nat) (pre : List (PageTree K V h × K)) (l : PageTree K V h) (sep : K)
    (r : PageTree K V h) (post : List (K × PageTree K V h)) (keep : Nat) {a a' : Alloc} (u : List Underflow)
    (given : a.Given a') : a.Given (settle capacity pg pre l sep r post keep a' u).alloc := by
  rw [settle]
  split
  · exact given.give r.pg
  · exact given

theorem settleChild_alloc (pg : Nat) (pre : List (PageTree K V h × K)) (c : PageTree K V h)
    (post : List (K × PageTree K V h)) {a a' : Alloc} (u : List Underflow) (given : a.Given a') :
    a.Given (settleChild capacity pg pre c post a' u).alloc := by
  cases post with
  | nil =>
      simp only [settleChild]
      split
      · exact settle_alloc _ _ _ _ _ _ _ _ given
      · exact given
  | cons e post => exact settle_alloc _ _ _ _ _ _ _ _ given

/-- Deletion gives pages back. -/
theorem shrink_alloc (s : PageTree K V h) (a : Alloc) : a.Given (shrink few capacity k s a).alloc := by
  induction h with
  | zero => exact .refl a
  | succ h ih =>
      have below := ih (s.root.focus k).2.1
      rw [shrink]
      cases (shrink few capacity k (s.root.focus k).2.1 a).shrunk with
      | kept c => exact below
      | lost c =>
          simp only
          split
          · exact below
          · exact settleChild_alloc _ _ _ _ _ below

end PageTree

end SimpleDatabase.Theory
