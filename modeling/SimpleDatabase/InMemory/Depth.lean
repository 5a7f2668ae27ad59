/- InMemory.Depth -- how deep a tree is

A search goes down one level a round, and `height` counts the levels.  As every node that is not
the root is at least half full, there are not many: their number is logarithmic in that of the
keys, and never more than 33.
-/
import SimpleDatabase.InMemory.Output
import SimpleDatabase.Theory.Capacity

namespace SimpleDatabase.InMemory

open SimpleDatabase.Theory SimpleDatabase.Bpt

set_option autoImplicit false

variable {order : Nat} {wide : 3 ≤ order} {m : Memory} {root : Ptr} {t : Σ h, Tree h} {R : Multiset Cell}

theorem two_le_cut {length : Nat} (wide : 3 ≤ length) : 2 ≤ cut length := by
  unfold cut
  split <;> omega

namespace Stored

/-- **`height`** -/
theorem height (stored : Stored order wide m root (some t) R) {fuel : Nat} (enough : t.1 < fuel) :
    Bpt.height order m fuel root = .ok t.1 := by
  rw [stored.root, Whole.root, Bpt.height, firstLeaf_spec stored.holds (by omega) (Multiset.le_add_right _ _) enough]
  rfl

/-- There are no more keys than numbers of 32 bits. -/
theorem length_le (stored : Stored order wide m root (some t) R) : t.2.records.length ≤ 2 ^ 32 := by
  have ascending : ((t.2.records.map Prod.fst).map Int32.toInt).Pairwise (· < ·) :=
    List.pairwise_map.mpr (stored.sorted.imp Int32.lt_iff_toInt_lt.mp)
  have bound := length_le_of_ascending (a := -2 ^ 31) (b := 2 ^ 31 - 1) ascending fun x member => by
    obtain ⟨k, -, rfl⟩ := List.mem_map.mp member
    have low := Int32.le_toInt k
    have high := Int32.toInt_lt k
    omega
  rw [List.length_map, List.length_map] at bound
  exact bound.trans (by decide)

theorem height_le_log (stored : Stored order wide m root (some t) R) :
    t.1 ≤ Nat.log (cut order) (t.2.records.length / (2 * cut (order - 1))) + 1 := by
  have valid := stored.valid t rfl
  have pos := two_le_cut wide
  have bound := PageTree.height_le_log (m := cut order - 1) (fun _ => rfl) ((limits order wide).pos 0) (by omega)
    valid.ordered.fillBelow valid.pos
  rwa [Nat.sub_add_cancel (by omega)] at bound

theorem height_le (stored : Stored order wide m root (some t) R) : t.1 ≤ 32 := by
  have leaf : 1 ≤ cut (order - 1) := cut_pos (by omega)
  have quotient : t.2.records.length / (2 * cut (order - 1)) ≤ 2 ^ 31 :=
    calc t.2.records.length / (2 * cut (order - 1)) ≤ t.2.records.length / 2 :=
        Nat.div_le_div_left (by omega) (by omega)
      _ ≤ 2 ^ 32 / 2 := Nat.div_le_div_right stored.length_le
      _ = 2 ^ 31 := by decide
  calc t.1 ≤ Nat.log (cut order) (t.2.records.length / (2 * cut (order - 1))) + 1 := stored.height_le_log
    _ ≤ Nat.log 2 (2 ^ 31) + 1 :=
      Nat.succ_le_succ ((Nat.log_mono_right quotient).trans (Nat.log_anti_left (by decide) (two_le_cut wide)))
    _ = 32 := by rw [Nat.log_pow (by decide)]

/-- **A search takes one round for each level**, and the levels are logarithmic in the keys; 33
rounds are enough for every tree. -/
theorem find_logarithmic (stored : Stored order wide m root (some t) R) (key : Key) :
    (∀ fuel, Bpt.find order m fuel root key =
        if fuel ≤ t.1 then .error .outOfFuel else .ok (((Whole.item (some t) key).map fun r => r.2.1).getD null)) ∧
      Bpt.height order m (t.1 + 1) root = .ok t.1 ∧
      t.1 ≤ Nat.log (cut order) (t.2.records.length / (2 * cut (order - 1))) + 1 ∧ t.1 ≤ 32 := by
  refine ⟨fun fuel => ?_, stored.height (Nat.lt_succ_self _), stored.height_le_log, stored.height_le⟩
  split
  · next few =>
      rw [Bpt.find, findLeaf, if_neg (stored.root ▸ stored.root_ne_null), stored.root, Whole.root,
        findLeafLoop_rounds stored.holds (Multiset.le_add_right _ _) (by omega), if_pos few, Exec.error_bind]
  · next enough => exact stored.find key (Nat.lt_of_not_le enough)

end Stored

theorem find_logarithmic_sample :
    ∃ (m : Memory) (root : Ptr) (t : Σ h, Tree h),
      (∀ fuel, Bpt.find 3 m fuel root 5 =
        if fuel ≤ t.1 then .error .outOfFuel else .ok (((Whole.item (some t) 5).map fun r => r.2.1).getD null)) ∧
      Bpt.height 3 m (t.1 + 1) root = .ok t.1 ∧
      t.1 ≤ Nat.log (cut 3) (t.2.records.length / (2 * cut (3 - 1))) + 1 ∧ t.1 ≤ 32 := by
  obtain ⟨root, m, t, stored⟩ := sampleCalls_tree
  exact ⟨m, root, t, stored.find_logarithmic 5⟩

end SimpleDatabase.InMemory
