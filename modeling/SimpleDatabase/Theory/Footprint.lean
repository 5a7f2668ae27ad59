/- Theory.Footprint -- which blocks a memory holds, and what they hold

A memory maps addresses to blocks.  `Owns fits mem F` says that `F`, a multiset of
addresses with a description each, is exactly what has been allocated: every block
fits its description, no address is listed twice and no block is unlisted.  So a
statement about `F` before and after a piece of code says what the code reads and
writes, that it leaves the rest alone, and that it neither leaks nor frees twice.

`+` puts footprints side by side.  The rules are about the block in front of a sum;
that a sum may be rearranged is the commutativity of `+`.
-/
import Mathlib.Data.Multiset.MapFold
import Mathlib.Data.Multiset.UnionInter
import Mathlib.Logic.Function.Basic

namespace SimpleDatabase.Theory

set_option autoImplicit false

variable {A B D : Type}

/-- The allocated blocks are those of `F`, and each is as described there. -/
structure Owns (fits : B → D → Prop) (mem : A → Option B) (F : Multiset (A × D)) : Prop where
  nodup : (F.map Prod.fst).Nodup
  held : ∀ c ∈ F, ∃ b, mem c.1 = some b ∧ fits b c.2
  listed : ∀ a, mem a ≠ none → a ∈ F.map Prod.fst

namespace Owns

variable {fits : B → D → Prop} {mem : A → Option B} {F R : Multiset (A × D)} {a : A} {d : D}

theorem nil : Owns fits (fun _ : A => none) 0 where
  nodup := by simp
  held := by simp
  listed a some_ := absurd rfl some_

theorem rearrange {F' : Multiset (A × D)} (owns : Owns fits mem F) (same : F = F') : Owns fits mem F' :=
  same ▸ owns

/-- The block in front, as it is described. -/
theorem get (owns : Owns fits mem ({(a, d)} + R)) : ∃ b, mem a = some b ∧ fits b d :=
  owns.held (a, d) (by simp)

/-- Every described block is there. -/
theorem get_of_mem (owns : Owns fits mem F) {c : A × D} (member : c ∈ F) :
    ∃ b, mem c.1 = some b ∧ fits b c.2 := owns.held c member

theorem not_mem (owns : Owns fits mem ({(a, d)} + R)) : a ∉ R.map Prod.fst := by
  have distinct := owns.nodup
  rw [Multiset.singleton_add, Multiset.map_cons, Multiset.nodup_cons] at distinct
  exact distinct.1

/-- Two blocks in different places of a sum are different. -/
theorem ne {a' : A} {d' : D} (owns : Owns fits mem ({(a, d)} + R)) (other : (a', d') ∈ R) : a ≠ a' := by
  rintro rfl
  exact owns.not_mem (Multiset.mem_map.mpr ⟨_, other, rfl⟩)

theorem fresh_not_mem (owns : Owns fits mem F) (fresh : mem a = none) : a ∉ F.map Prod.fst := by
  intro member
  obtain ⟨c, inside, rfl⟩ := Multiset.mem_map.mp member
  obtain ⟨b, there, -⟩ := owns.held c inside
  rw [fresh] at there
  cases there

/-- A block may be described otherwise. -/
theorem describe {e : D} (owns : Owns fits mem ({(a, d)} + R))
    (other : ∀ b, fits b d → fits b e) : Owns fits mem ({(a, e)} + R) where
  nodup := by simpa using owns.nodup
  held c member := by
    rw [Multiset.singleton_add, Multiset.mem_cons] at member
    rcases member with rfl | behind
    · obtain ⟨b, there, fit⟩ := owns.get
      exact ⟨b, there, other b fit⟩
    · exact owns.held c (by simp [behind])
  listed x some_ := by simpa using owns.listed x some_

section Update

variable [DecidableEq A] {b : B} {d' : D}

/-- Writing a block. -/
theorem set (owns : Owns fits mem ({(a, d)} + R)) (fit : fits b d') :
    Owns fits (Function.update mem a (some b)) ({(a, d')} + R) where
  nodup := by simpa using owns.nodup
  held c member := by
    rw [Multiset.singleton_add, Multiset.mem_cons] at member
    rcases member with rfl | behind
    · exact ⟨b, by simp, fit⟩
    · rw [Function.update_of_ne (owns.ne behind).symm]
      exact owns.held c (by simp [behind])
  listed x some_ := by
    by_cases here : x = a
    · simp [here]
    · rw [Function.update_of_ne here] at some_
      simpa using owns.listed x some_

/-- Allocating a block. -/
theorem alloc (owns : Owns fits mem R) (fresh : mem a = none) (fit : fits b d) :
    Owns fits (Function.update mem a (some b)) ({(a, d)} + R) where
  nodup := by
    rw [Multiset.singleton_add, Multiset.map_cons, Multiset.nodup_cons]
    exact ⟨owns.fresh_not_mem fresh, owns.nodup⟩
  held c member := by
    rw [Multiset.singleton_add, Multiset.mem_cons] at member
    rcases member with rfl | behind
    · exact ⟨b, by simp, fit⟩
    · have ne : c.1 ≠ a := by
        rintro rfl
        exact owns.fresh_not_mem fresh (Multiset.mem_map.mpr ⟨c, behind, rfl⟩)
      rw [Function.update_of_ne ne]
      exact owns.held c behind
  listed x some_ := by
    by_cases here : x = a
    · simp [here]
    · rw [Function.update_of_ne here] at some_
      rw [Multiset.singleton_add, Multiset.map_cons, Multiset.mem_cons]
      exact .inr (owns.listed x some_)

/-- Freeing a block. -/
theorem free (owns : Owns fits mem ({(a, d)} + R)) : Owns fits (Function.update mem a none) R where
  nodup := by
    have distinct := owns.nodup
    rw [Multiset.singleton_add, Multiset.map_cons, Multiset.nodup_cons] at distinct
    exact distinct.2
  held c member := by
    rw [Function.update_of_ne (owns.ne member).symm]
    exact owns.held c (by simp [member])
  listed x some_ := by
    have ne : x ≠ a := by
      rintro rfl
      simp at some_
    rw [Function.update_of_ne ne] at some_
    have there := owns.listed x some_
    rw [Multiset.singleton_add, Multiset.map_cons, Multiset.mem_cons] at there
    exact there.resolve_left ne

end Update

end Owns

end SimpleDatabase.Theory
