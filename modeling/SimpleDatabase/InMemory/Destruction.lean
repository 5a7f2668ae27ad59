/- InMemory.Destruction -- `destroy_tree` frees a tree and nothing else -/
import SimpleDatabase.InMemory.Stored

namespace SimpleDatabase.InMemory

open SimpleDatabase.Theory SimpleDatabase.Bpt

set_option autoImplicit false

variable {order h : Nat} {m : Memory} {R : Multiset Cell} {parent next : Ptr} {n : Bpt.Node}

/-- The loop over a leaf's records. -/
theorem freeRecords_spec {recs : List Item} {i : Nat} (fits : i + recs.length ≤ order)
    (listed : ∀ j (inside : j < recs.length), n.pointers (i + j) = recs[j].2.1)
    (holds : Holds order m (recordCells recs + R)) :
    ∃ m', forPointers order (fun p m => m.free p) n i recs.length m = .ok m' ∧ Holds order m' R := by
  induction recs generalizing i m with
  | nil => exact ⟨m, rfl, holds.rearrange (zero_add R)⟩
  | cons r recs ih =>
      rw [List.length_cons] at fits
      rw [recordCells_cons, add_assoc] at holds
      obtain ⟨m₁, freed, holds⟩ := free_spec holds
      obtain ⟨m₂, rest, holds⟩ := ih (i := i + 1) (by omega) (by
        intro j inside
        rw [Nat.add_right_comm]
        exact listed (j + 1) (Nat.succ_lt_succ inside)) holds
      have first : n.pointers i = r.2.1 := listed 0 (Nat.succ_pos _)
      refine ⟨m₂, ?_, holds⟩
      rw [List.length_cons, forPointers, read_array _ (by omega), Exec.ok_bind, first, freed, Exec.ok_bind, rest]

/-- The loop over a node's children, each of which `f` frees if it has some fuel. -/
theorem freeChildren_spec {f : Nat → Ptr → Memory → Exec Memory} {enough : Nat} {cs : List (Tree h)} {i : Nat}
    (frees : ∀ (c : Tree h) (next' : Ptr) (m : Memory) (R : Multiset Cell), Holds order m (cells parent next' c + R) →
      ∃ m', (∀ fuel, enough < fuel → f fuel c.pg m = .ok m') ∧ Holds order m' R)
    (fits : i + cs.length ≤ order) (listed : ∀ j (inside : j < cs.length), n.pointers (i + j) = cs[j].pg)
    (holds : Holds order m (chain (cells parent) next cs + R)) :
    ∃ m', (∀ fuel, enough < fuel → forPointers order (f fuel) n i cs.length m = .ok m') ∧ Holds order m' R := by
  induction cs generalizing i m with
  | nil => exact ⟨m, fun _ _ => rfl, holds.rearrange (zero_add R)⟩
  | cons c cs ih =>
      rw [List.length_cons] at fits
      rw [chain, add_assoc] at holds
      obtain ⟨m₁, freed, holds⟩ := frees c _ m _ holds
      obtain ⟨m₂, rest, holds⟩ := ih (i := i + 1) (by omega) (by
        intro j inside
        rw [Nat.add_right_comm]
        exact listed (j + 1) (Nat.succ_lt_succ inside)) holds
      have first : n.pointers i = c.pg := listed 0 (Nat.succ_pos _)
      refine ⟨m₂, fun fuel le => ?_, holds⟩
      rw [List.length_cons, forPointers, read_array _ (by omega), Exec.ok_bind, first, freed fuel le, Exec.ok_bind,
        rest fuel le]

/-- **Every block of the tree is freed, once.** -/
theorem destroyTreeNodes_spec (order_pos : 1 ≤ order) {s : Tree h}
    (holds : Holds order m (cells parent next s + R)) :
    ∃ m', (∀ fuel, h < fuel → destroyTreeNodes order fuel s.pg m = .ok m') ∧ Holds order m' R := by
  induction h generalizing m R parent next with
  | zero =>
      rw [cells, add_assoc] at holds
      obtain ⟨n, there, leaf, -⟩ := node_leaf holds (front _ _)
      have count := leaf.count
      have fits := leaf.fits
      rw [List.length_map] at count fits
      obtain ⟨m₁, freed, holds⟩ := freeRecords_spec (n := n) (i := 0) (by omega) (by
        intro j inside
        rw [Nat.zero_add, leaf.pointer_at (by rw [List.length_map]; exact inside), List.getElem_map]
        rfl) (holds.rearrange (add_left_comm _ _ _))
      obtain ⟨m₂, freed', holds⟩ := free_spec holds
      refine ⟨m₂, fun fuel le => ?_, holds⟩
      obtain ⟨fuel, rfl⟩ := Nat.exists_eq_add_of_le' le
      rw [destroyTreeNodes, there, Exec.ok_bind, if_pos leaf.tag, count, freed, Exec.ok_bind]
      exact freed'
  | succ h ih =>
      rw [cells, add_assoc] at holds
      obtain ⟨n, there, inner, -⟩ := node_inner holds (front _ _)
      have size := inner.size_lt order_pos
      have count := inner.count
      rw [Theory.Node.size_map] at size count
      obtain ⟨m₁, freed, holds⟩ := freeChildren_spec (n := n) (i := 0) (f := destroyTreeNodes order)
        (fun c next' m R holds => ih holds) (by rw [Theory.Node.children_length]; omega) (by
        intro j inside
        rw [Nat.zero_add, inner.pointer_at (by rw [Theory.Node.children_map, List.length_map]; exact inside)]
        simp only [Theory.Node.children_map, List.getElem_map])
        (holds.rearrange (add_left_comm _ _ _))
      obtain ⟨m₂, freed', holds⟩ := free_spec holds
      refine ⟨m₂, fun fuel le => ?_, holds⟩
      obtain ⟨fuel, rfl⟩ := Nat.exists_eq_add_of_le' (show 1 ≤ fuel by omega)
      rw [Theory.Node.children_length, ← count] at freed
      rw [destroyTreeNodes, there, Exec.ok_bind, if_neg (by rw [inner.tag]; decide), freed fuel (by omega),
        Exec.ok_bind]
      exact freed'

variable {wide : 3 ≤ order} {root : Ptr} {T : Σ h, Tree h}

/-- **`destroy_tree`** leaves the blocks that are not the tree's, and no others. -/
theorem Stored.destroyTree (stored : Stored order wide m root (some T) R) :
    ∃ m', (∀ fuel, T.1 < fuel → Bpt.destroyTree order fuel m root = .ok (null, m')) ∧
      Stored order wide m' null none R := by
  obtain ⟨m', run, holds⟩ := destroyTreeNodes_spec (by omega) stored.holds
  refine ⟨m', fun fuel enough => ?_, rfl, holds.rearrange (zero_add R).symm, by simp⟩
  rw [Bpt.destroyTree, stored.root, Whole.root, run fuel enough]
  rfl

end SimpleDatabase.InMemory
