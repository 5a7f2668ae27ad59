/- Kernel.Invariant -- what a table file always satisfies

A table holds one store at most (`Represents.unique`): the tree, the links and the free
pages are read off its pages, so what is said of the store is said of the table.

`Packed lo` is the occupancy every run of insertions keeps, whatever becomes of the
separators; `WellFormed` adds search order, and lets pages be as sparse as deletions
leave them.
-/
import SimpleDatabase.Kernel.Realize
import SimpleDatabase.Project5.Bpt

namespace SimpleDatabase.Kernel

open SimpleDatabase.Theory SimpleDatabase.Theory.PageTree SimpleDatabase.Project5 Page

set_option autoImplicit false

/-! ## One table, one store -/

theorem Shape.unique {t : Table} {h h' : Nat} {s : Tree h} {s' : Tree h'} (shape : Shape t s)
    (shape' : Shape t s') (pg : s.pg = s'.pg) : (⟨h, s⟩ : Σ h, Tree h) = ⟨h', s'⟩ := by
  induction h generalizing h' with
  | zero =>
      cases h' with
      | zero =>
          have records := shape.leafPage.records
          rw [pg, shape'.leafPage.records] at records
          rw [eq_leaf s, eq_leaf s', pg, records]
      | succ h' =>
          have tag := shape.leafPage.tag
          rw [pg, shape'.nodePage.tag] at tag
          cases tag
  | succ h ih =>
      cases h' with
      | zero =>
          have tag := shape.nodePage.tag
          rw [pg, shape'.leafPage.tag] at tag
          cases tag
      | succ h' =>
          have node := shape.nodePage.node
          rw [pg, shape'.nodePage.node] at node
          have left : s.root.left.pg = s'.root.left.pg := (congrArg Node.left node).symm
          obtain rfl : h = h' := congrArg Sigma.fst
            (ih (shape.child s.root.left_mem) (shape'.child s'.root.left_mem) left)
          have root : s.root = s'.root := Node.map_inj node.symm fun c child d child' same =>
            eq_of_heq (Sigma.mk.inj (ih (shape.child child) (shape'.child child') same)).2
          rw [eq_branch s, eq_branch s', pg, root]

/-- **A table holds at most one store.** -/
theorem Represents.unique {t : Table} {st st' : Store} (left : Represents t st)
    (right : Represents t st') : st = st' := by
  obtain ⟨tree, a⟩ := st
  obtain ⟨tree', a'⟩ := st'
  have alloc : a = a' := by
    have free := left.heap.chain.unique right.heap.chain
    have num := left.heap.num.symm.trans right.heap.num
    obtain ⟨free, num⟩ := a
    simp_all
  have root := left.root.symm.trans right.root
  have same : tree = tree' := by
    cases tree with
    | none =>
        cases tree' with
        | none => rfl
        | some tree' => exact absurd root.symm (right.inTable rfl).nonzero
    | some tree =>
        cases tree' with
        | none => exact absurd root (left.inTable rfl).nonzero
        | some tree' =>
            exact congrArg some ((left.inTable rfl).shape.unique (right.inTable rfl).shape root)
  rw [alloc, same]

/-! ## Occupancy -/

/-- The number of keys at which a page that is not the root has too few. -/
def minKeys (h : Nat) : Nat := if h = 0 then maxLeafKey / 8 else maxInternalKey / 8

@[simp] theorem minKeys_zero : minKeys 0 = 3 := rfl

@[simp] theorem minKeys_succ (h : Nat) : minKeys (h + 1) = 31 := rfl

/-- No page holds more keys than it has room for, pages below the root hold at least
`lo`, the root holds one, and in each leaf the keys increase. -/
structure PackedTree (lo : Nat → Nat) {h : Nat} (s : Tree h) : Prop where
  below : FillBelow lo maxKeys s
  pos : 1 ≤ s.size
  fits : s.size ≤ maxKeys h
  sorted : LeavesSorted s

/-- What a page that is not the root holds at least: one key more than too few. -/
def least (h : Nat) : Nat := minKeys h + 1

/-- Occupied as deletions leave it, and in search order. -/
structure WellFormedTree {h : Nat} (s : Tree h) : Prop extends PackedTree least s where
  ordered : SearchOrdered s

namespace PackedTree

variable {lo : Nat → Nat} {h : Nat} {s : Tree h}

theorem keyed (packed : PackedTree lo s) (pos : ∀ h, 1 ≤ lo h) : Keyed s :=
  keyed_of_fill pos packed.below packed.pos

/-- No page is overfull. -/
theorem fill (packed : PackedTree lo s) : Fill (fun _ => 0) maxKeys s := by
  have below : FillBelow (fun _ => 0) maxKeys s := by
    cases h with
    | zero => trivial
    | succ h => exact fun c child => (packed.below c child).mono fun _ => Nat.zero_le _
  exact Fill.of_root below (Nat.zero_le _) packed.fits

end PackedTree

theorem least_pos (h : Nat) : 1 ≤ least h := Nat.le_add_left 1 _

/-- In a well-formed tree every subtree lies in the interval its fences leave it. -/
theorem WellFormedTree.within {h : Nat} {s : Tree h} (wellFormed : WellFormedTree s) :
    Within ⊥ ⊤ s :=
  (searchOrdered_iff (wellFormed.keyed least_pos).stocked).mp wellFormed.ordered

theorem WellFormedTree.of_within {h : Nat} {s : Tree h} (packed : PackedTree least s)
    (within : Within ⊥ ⊤ s) : WellFormedTree s :=
  ⟨packed, (searchOrdered_iff (packed.keyed least_pos).stocked).mpr within⟩

namespace Store

/-- Every page of the tree holds a key. -/
def Keyed (st : Store) : Prop := ∀ h s, st.tree = some ⟨h, s⟩ → PageTree.Keyed s

def Packed (lo : Nat → Nat) (st : Store) : Prop := ∀ h s, st.tree = some ⟨h, s⟩ → PackedTree lo s

def WellFormed (st : Store) : Prop := ∀ h s, st.tree = some ⟨h, s⟩ → WellFormedTree s

theorem Packed.keyed {lo : Nat → Nat} (pos : ∀ h, 1 ≤ lo h) {st : Store} (packed : st.Packed lo) :
    st.Keyed := fun h s tree => (packed h s tree).keyed pos

theorem WellFormed.packed {st : Store} (wellFormed : st.WellFormed) : st.Packed least :=
  fun h s tree => (wellFormed h s tree).toPackedTree

end Store

/-- A file that has just been created holds the empty store. -/
theorem freshTable_represents (junk : Page) (t : Table) :
    Represents (freshTable junk t) ⟨none, ⟨[], 1⟩⟩ where
  root := rfl
  heap := ⟨Chain.nil, rfl, ⟨Nat.le_refl 1, List.Perm.refl _⟩⟩
  stored := by simp
  linked := by simp

end SimpleDatabase.Kernel
