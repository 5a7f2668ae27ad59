/- InMemory.Stored -- a root pointer and the tree it stands for

The global `root` of the source is `NULL` for the empty tree.  `Stored` says that it leads
to a tree, that this tree is a B+ tree of the order given, and that besides the blocks of the
tree exactly those of `R` are allocated.
-/
import SimpleDatabase.InMemory.Search
import SimpleDatabase.Theory.Underflow

namespace SimpleDatabase.InMemory

open SimpleDatabase.Theory SimpleDatabase.Bpt

set_option autoImplicit false

/-- How many keys the nodes of a tree of this order hold. -/
def limits (order : Nat) (wide : 3 ≤ order) : Limits where
  lo h := if h = 0 then cut (order - 1) else cut order - 1
  hi _ := order - 1
  pos h := by
    unfold cut
    split <;> split <;> omega
  leaf := by
    unfold cut
    rw [if_pos rfl]
    split <;> omega
  inner h := by
    unfold cut
    rw [if_neg (Nat.succ_ne_zero h)]
    split <;> omega

/-- A tree or, where there is none, the empty one. -/
abbrev Whole := Option (Σ h, Tree h)

namespace Whole

def root : Whole → Ptr
  | none => null
  | some T => T.2.pg

/-- How many levels there are. -/
def levels : Whole → Nat
  | none => 0
  | some T => T.1 + 1

def blocks : Whole → Multiset Cell
  | none => 0
  | some T => cells null null T.2

/-- What is stored: keys, records and values. -/
def items (T : Whole) : List Item := recordsOf T

/-- The item with a key. -/
def item (T : Whole) (key : Key) : Option Item := T.items.find? fun r => r.1 = key

/-- The value stored under a key. -/
def value (T : Whole) (key : Key) : Option Int32 := (T.item key).map fun r => r.2.2

end Whole

structure Stored (order : Nat) (wide : 3 ≤ order) (m : Memory) (root : Ptr) (T : Whole) (R : Multiset Cell) :
    Prop where
  root : root = T.root
  holds : Holds order m (T.blocks + R)
  valid : ∀ t ∈ T, PageTree.Valid (limits order wide) t.2

variable {order : Nat} {wide : 3 ≤ order} {m : Memory} {root : Ptr} {T : Whole} {R : Multiset Cell}

/-- The records of a tree are among its blocks. -/
theorem record_mem {h : Nat} {parent next : Ptr} {s : Tree h} {r : Item} (member : r ∈ s.records) :
    (r.2.1, Desc.record r.2.2) ∈ cells parent next s := by
  induction h generalizing parent next with
  | zero =>
      rw [PageTree.records_zero] at member
      rw [cells, below_zero, Multiset.mem_add]
      exact .inr (Multiset.mem_coe.mpr (List.mem_map.mpr ⟨r, member, rfl⟩))
  | succ h ih =>
      rw [PageTree.records_succ, List.mem_flatMap] at member
      obtain ⟨c, child, inside⟩ := member
      obtain ⟨next', le⟩ : ∃ next', cells s.pg next' c ≤ cells parent next s := cells_child child
      exact Multiset.mem_of_le le (ih inside)

namespace Stored

/-- Every item's record is there, with its value. -/
theorem record (stored : Stored order wide m root T R) {r : Item} (member : r ∈ T.items) :
    r.2.1 ≠ null ∧ m.record r.2.1 = .ok ⟨r.2.2⟩ := by
  cases T with
  | none => simp [Whole.items, recordsOf] at member
  | some T =>
      have inside : (r.2.1, Desc.record r.2.2) ∈ Whole.blocks (some T) + R :=
        Multiset.mem_add.mpr (.inl (record_mem member))
      obtain ⟨b, there, fits⟩ := stored.holds.get_of_mem inside
      refine ⟨ne_null stored.holds inside, ?_⟩
      cases b with
      | node n => exact fits.elim
      | record x =>
          have fits : x.value = r.2.2 := fits
          rw [Memory.record, there]
          exact congrArg Except.ok (congrArg Record.mk fits)

theorem sorted (stored : Stored order wide m root T R) : (T.items.map Prod.fst).Pairwise (· < ·) := by
  cases T with
  | none => exact List.Pairwise.nil
  | some T => exact (stored.valid T rfl).keys_sorted

/-- **`find` returns where the record of the key is**, `NULL` if there is none, after one round of
its loop for each level. -/
theorem find (stored : Stored order wide m root T R) (key : Key) {fuel : Nat} (enough : T.levels ≤ fuel) :
    Bpt.find order m fuel root key = .ok (((T.item key).map fun r => r.2.1).getD null) := by
  cases T with
  | none =>
      rw [stored.root]
      rfl
  | some T =>
      rw [stored.root, Whole.root, find_leaf_entry stored.holds (Multiset.le_add_right _ _) (by omega) key enough,
        (stored.valid T rfl).find?_leafFor]
      rfl

/-- A key is absent exactly where `find` returns `NULL`. -/
theorem pointer_eq_null (stored : Stored order wide m root T R) (key : Key) :
    ((T.item key).map fun r => r.2.1).getD null = null ↔ key ∉ T.items.map Prod.fst := by
  cases found : T.item key with
  | none =>
      have absent := List.find?_eq_none.mp found
      simpa using fun p v member => absent (key, p, v) member
  | some r =>
      have member := List.mem_of_find?_eq_some found
      have same : r.1 = key := by simpa using List.find?_some found
      have nonNull := (stored.record member).1
      simpa [nonNull, ← same] using ⟨r.2.1, r.2.2, member⟩

end Stored

end SimpleDatabase.InMemory
