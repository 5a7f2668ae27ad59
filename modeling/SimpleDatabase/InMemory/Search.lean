/- InMemory.Search -- `find_leaf` and `find` on a tree in memory

`find_leaf` ends in the leaf a search of the tree ends in, after one round for each level
(`findLeafLoop_rounds`); `find` returns where the record of the key is.  Neither needs
the tree to be in order: that the leaf they look into is the only one that may hold the key
is what the order of a valid tree is for (`find?_leafFor`).
-/
import SimpleDatabase.InMemory.Layout

namespace SimpleDatabase.InMemory

open SimpleDatabase.Theory SimpleDatabase.Bpt

set_option autoImplicit false

variable {order h : Nat} {m : Memory} {parent next : Ptr} {R : Multiset Cell}

/-- The blocks of a tree, around the leaf a search ends in. -/
theorem cells_walk (key : Key) (s : Tree h) :
    cells null null s = frame (Path.walk key s .top).1 (s.leafFor key).pg (s.leafFor key).firstLeaf +
      cells (Path.walk key s .top).1.parent (Path.walk key s .top).1.next (s.leafFor key) := by
  rw [← Path.walk_leaf key s .top, ← cells_plug, Path.plug_walk]
  rfl

/-- **The search goes down one level a round.** -/
theorem findLeafLoop_rounds {F : Multiset Cell} (holds : Holds order m F) {s : Tree h}
    (inside : cells parent next s ≤ F) (order_pos : 1 ≤ order) (key : Key) (fuel : Nat) :
    findLeafLoop order m key fuel s.pg =
      if fuel ≤ h then .error .outOfFuel else .ok (s.leafFor key).pg := by
  induction h generalizing parent next fuel with
  | zero =>
      obtain ⟨n, there, leaf, -⟩ := node_leaf holds (Multiset.mem_of_le inside (root_mem s))
      cases fuel with
      | zero => rfl
      | succ fuel =>
          rw [findLeafLoop, there, Exec.ok_bind, if_pos leaf.tag]
          rfl
  | succ h ih =>
      obtain ⟨n, there, inner, -⟩ := node_inner holds (Multiset.mem_of_le inside (root_mem s))
      cases fuel with
      | zero => rfl
      | succ fuel =>
          have child := childFor_eq inner order_pos key
          rw [Theory.Node.focus_map] at child
          obtain ⟨next', below⟩ : ∃ next', cells s.pg next' (s.root.focus key).2.1 ≤ cells parent next s :=
            cells_child (s.root.focus_mem key)
          rw [findLeafLoop, there, Exec.ok_bind, if_neg (by rw [inner.tag]; decide), child, Exec.ok_bind,
            ih (below.trans inside) fuel]
          simp only [Nat.succ_le_succ_iff]
          rfl

theorem findLeaf_spec {F : Multiset Cell} (holds : Holds order m F) {s : Tree h}
    (inside : cells null null s ≤ F) (order_pos : 1 ≤ order) (key : Key) {fuel : Nat} (enough : h < fuel) :
    findLeaf order m fuel s.pg key = .ok (s.leafFor key).pg := by
  have root := Multiset.mem_of_le inside (root_mem s)
  rw [findLeaf, if_neg (ne_null holds root), findLeafLoop_rounds holds inside order_pos, if_neg (by omega)]

/-- Where the record of the key is, `NULL` if there is none. -/
theorem find_leaf_entry {F : Multiset Cell} (holds : Holds order m F) {s : Tree h}
    (inside : cells null null s ≤ F) (order_pos : 1 ≤ order) (key : Key) {fuel : Nat} (enough : h < fuel) :
    find order m fuel s.pg key =
      .ok ((((s.leafFor key).recs.find? fun r => r.1 = key).map fun r => r.2.1).getD null) := by
  have leaf : cells (Path.walk key s .top).1.parent (Path.walk key s .top).1.next (s.leafFor key) ≤ F :=
    (cells_walk key s ▸ Multiset.le_add_left _ _).trans inside
  have member := Multiset.mem_of_le leaf (root_mem _)
  obtain ⟨n, there, leafNode, -⟩ := node_leaf holds member
  rw [find, findLeaf_spec holds inside order_pos key enough, Exec.ok_bind, if_neg (ne_null holds member), there,
    Exec.ok_bind, entryFor_eq leafNode, List.find?_map, Option.map_map]
  rfl

end SimpleDatabase.InMemory
