/- Theory.FreeList -- the bookkeeping of an allocator that grows its file in blocks

`Alloc` is what such an allocator is for: the free pages in the order they will
be handed out, and the number of pages there are.  `take` pops a free page, or
grows the file by a block and hands out the block's first page; `give` pushes a
page back.  Page 0 is the header and never handed out.

`Accounts a live` is the invariant: the pages in use and the free pages together
are each page from 1 on, exactly once.
-/
import Mathlib.Data.List.Perm.Basic
import Mathlib.Data.List.Range
import Mathlib.Data.List.Nodup

namespace SimpleDatabase.Theory

set_option autoImplicit false

/-- The free pages, in the order they are handed out, and the number of pages. -/
structure Alloc where
  free : List Nat
  num : Nat
  deriving DecidableEq

namespace Alloc

/-- Hand out a page, growing by a block of `grow` pages when none is free. -/
def take (grow : Nat) : Alloc → Nat × Alloc
  | ⟨p :: ps, n⟩ => (p, ⟨ps, n⟩)
  | ⟨[], n⟩ => (n, ⟨List.range' (n + 1) (grow - 1), n + grow⟩)

/-- Take a page back. -/
def give (a : Alloc) (p : Nat) : Alloc := ⟨p :: a.free, a.num⟩

/-- The pages in use and the free pages are the pages `1 .. num - 1`, each once. -/
structure Accounts (a : Alloc) (live : List Nat) : Prop where
  pos : 1 ≤ a.num
  perm : (live ++ a.free).Perm (List.range' 1 (a.num - 1))

namespace Accounts

variable {a : Alloc} {live : List Nat}

theorem congr {live' : List Nat} (accounts : Accounts a live) (same : live'.Perm live) :
    Accounts a live' :=
  ⟨accounts.pos, (same.append_right _).trans accounts.perm⟩

theorem nodup (accounts : Accounts a live) : (live ++ a.free).Nodup :=
  accounts.perm.nodup_iff.mpr List.nodup_range'

theorem live_nodup (accounts : Accounts a live) : live.Nodup :=
  (List.nodup_append.mp accounts.nodup).1

theorem free_nodup (accounts : Accounts a live) : a.free.Nodup :=
  (List.nodup_append.mp accounts.nodup).2.1

theorem disjoint (accounts : Accounts a live) {p : Nat} (used : p ∈ live) : p ∉ a.free :=
  fun h => (List.nodup_append.mp accounts.nodup).2.2 p used p h rfl

theorem mem_iff (accounts : Accounts a live) (p : Nat) :
    p ∈ live ∨ p ∈ a.free ↔ 1 ≤ p ∧ p < a.num := by
  have pos := accounts.pos
  rw [← List.mem_append, accounts.perm.mem_iff, List.mem_range'_1]
  omega

theorem live_bounds (accounts : Accounts a live) {p : Nat} (used : p ∈ live) :
    p ≠ 0 ∧ p < a.num := by
  have := (accounts.mem_iff p).mp (.inl used)
  omega

theorem free_bounds (accounts : Accounts a live) {p : Nat} (unused : p ∈ a.free) :
    p ≠ 0 ∧ p < a.num := by
  have := (accounts.mem_iff p).mp (.inr unused)
  omega

/-- A page handed out joins the pages in use. -/
theorem take (accounts : Accounts a live) (grow : Nat) (positive : 1 ≤ grow) :
    Accounts (a.take grow).2 ((a.take grow).1 :: live) := by
  obtain ⟨free, num⟩ := a
  have pos : 1 ≤ num := accounts.pos
  have perm := accounts.perm
  cases free with
  | cons p ps =>
      refine ⟨pos, List.Perm.trans ?_ perm⟩
      simpa [Alloc.take] using List.perm_middle.symm
  | nil =>
      refine ⟨by simp only [Alloc.take]; omega, ?_⟩
      -- the new block is `num` itself and the pages after it
      have block : List.range' 1 (num + grow - 1) =
          List.range' 1 (num - 1) ++ num :: List.range' (num + 1) (grow - 1) := by
        rw [show num + grow - 1 = (num - 1) + (1 + (grow - 1)) by omega, ← List.range'_append_1,
          ← List.range'_append_1, show 1 + (num - 1) = num by omega]
        rfl
      simp only [Alloc.take, block, List.cons_append]
      simp only [List.append_nil] at perm
      exact ((perm.append_right _).cons num).trans List.perm_middle.symm

/-- A page given back leaves the pages in use. -/
theorem give {p : Nat} (accounts : Accounts a (p :: live)) : Accounts (a.give p) live :=
  ⟨accounts.pos, List.perm_middle.trans accounts.perm⟩

theorem take_fresh (accounts : Accounts a live) (grow : Nat) (positive : 1 ≤ grow) :
    (a.take grow).1 ≠ 0 ∧ (a.take grow).1 ∉ live := by
  have after := accounts.take grow positive
  exact ⟨(after.live_bounds (by simp)).1, (List.nodup_cons.mp after.live_nodup).1⟩

end Accounts

end Alloc

end SimpleDatabase.Theory
