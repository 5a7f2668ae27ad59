/- Kernel.Stored -- a tree, stored in the pages of a table

`Shape t s` says that the pages of `t` hold the tree `s`: the page of each node
lists the pages of its children.  `Stored t par s` adds that each page's
`parent_pgnum` is the page that lists it.

Both are properties of the tree's pages alone, so they survive a change of any
other page; that is the only frame argument the operations need.
-/
import SimpleDatabase.Theory.SearchOrder
import SimpleDatabase.Kernel.Disk
import SimpleDatabase.Kernel.Pages

namespace SimpleDatabase.Kernel

open SimpleDatabase.Theory SimpleDatabase.Theory.PageTree SimpleDatabase.Project5 Page

set_option autoImplicit false

/-- A tree of a table file. -/
abbrev Tree (h : Nat) := PageTree Key Value h

/-- The keys a page has room for, by its height in the tree. -/
def maxKeys (h : Nat) : Nat := if h = 0 then maxLeafKey else maxInternalKey

@[simp] theorem maxKeys_zero : maxKeys 0 = 31 := rfl

@[simp] theorem maxKeys_succ (h : Nat) : maxKeys (h + 1) = 248 := rfl

/-- The page has this content. -/
def Holds (p : Page) : Content Key Value → Prop
  | .leaf recs => LeafPage p recs
  | .node n => NodePage p n

/-- The pages of the table hold the tree. -/
def Shape (t : Table) {h : Nat} (s : Tree h) : Prop := All (fun _ pg c => Holds (t pg) c) 0 s

/-- ... and each page knows the page that lists it, `par` for the root. -/
def Stored (t : Table) (par : Pgnum) {h : Nat} (s : Tree h) : Prop :=
  All (fun par pg c => (t pg).parentPgnum = par ∧ Holds (t pg) c) par s

variable {t t' : Table} {par : Pgnum} {h : Nat}

namespace Shape

theorem leafPage {s : Tree 0} (shape : Shape t s) : LeafPage (t s.pg) s.recs := shape

theorem nodePage {s : Tree (h + 1)} (shape : Shape t s) :
    NodePage (t s.pg) (s.root.map Paged.pg) := shape.1

theorem child {s : Tree (h + 1)} (shape : Shape t s) {c : Tree h} (child : c ∈ s.root.children) :
    Shape t c := by
  have below := All.child shape child
  exact below.reparent below.root

theorem leaf {s : Tree h} (shape : Shape t s) {l : Tree 0} (member : l ∈ s.leaves) :
    LeafPage (t l.pg) l.recs := by
  obtain ⟨_, held⟩ := All.leaf shape l member
  exact held

end Shape

namespace Stored

theorem shape {s : Tree h} (stored : Stored t par s) : Shape t s := by
  have held : All (fun _ pg c => Holds (t pg) c) par s := stored.imp fun _ _ _ both => both.2
  exact held.reparent held.root

theorem up {s : Tree h} (stored : Stored t par s) : (t s.pg).parentPgnum = par := stored.root.1

theorem leafPage {s : Tree 0} (stored : Stored t par s) : LeafPage (t s.pg) s.recs := stored.2

theorem nodePage {s : Tree (h + 1)} (stored : Stored t par s) :
    NodePage (t s.pg) (s.root.map Paged.pg) := stored.1.2

/-- The page of a tree's root says how many keys it has ... -/
theorem numofkeys {s : Tree h} (stored : Stored t par s) : (t s.pg).numofkeys = s.size := by
  cases h with
  | zero => exact stored.leafPage.numofkeys
  | succ h => exact stored.nodePage.numofkeys.trans (Node.size_map _ _)

/-- ... and whether it is a leaf. -/
theorem isLeaf_iff {s : Tree h} (stored : Stored t par s) : (t s.pg).isLeaf = 1 ↔ h = 0 := by
  cases h with
  | zero => simp [stored.leafPage.tag]
  | succ h => simp [stored.nodePage.tag]

theorem size_le {s : Tree h} (stored : Stored t par s) : s.size ≤ maxKeys h := by
  cases h with
  | zero => exact stored.leafPage.fits
  | succ h => exact (Node.size_map Paged.pg s.root).symm.trans_le stored.nodePage.fits

/-- Only the tree's own pages matter. -/
theorem frame {s : Tree h} (stored : Stored t par s) (same : ∀ p ∈ s.pages, t' p = t p) :
    Stored t' par s :=
  stored.imp_pages fun pg inside _ _ held => by rwa [same pg inside]

/-- Moving a tree below another page. -/
theorem adopted {s : Tree h} (stored : Stored t par s) {par' : Pgnum} (distinct : s.pages.Nodup)
    (root : t' s.pg = { t s.pg with parentPgnum := par' })
    (same : ∀ p ∈ s.pages, p ≠ s.pg → t' p = t p) : Stored t' par' s := by
  cases h with
  | zero =>
      refine ⟨by rw [root], ?_⟩
      rw [root]
      exact ⟨stored.leafPage.tag, stored.leafPage.records, stored.leafPage.fits⟩
  | succ h =>
      refine ⟨⟨by rw [root], ?_⟩, fun c child => ?_⟩
      · rw [root]
        exact stored.nodePage.reparent par'
      · have below : Stored t s.pg c := stored.2 c child
        refine below.frame fun p inside => same p ?_ ?_
        · exact List.mem_cons_of_mem _ (List.mem_flatMap.mpr ⟨c, child, inside⟩)
        · rintro rfl
          exact (List.nodup_cons.mp distinct).1 (List.mem_flatMap.mpr ⟨c, child, inside⟩)

end Stored

/-! ## Tables -/

/-- The tree of a table, if it has one. -/
abbrev Contents := Option (Σ h, Tree h)

namespace Contents

/-- The page of the root; an empty table has 0 there. -/
def rootPage : Contents → Pgnum
  | none => 0
  | some ⟨_, s⟩ => s.pg

def pages : Contents → List Pgnum
  | none => []
  | some ⟨_, s⟩ => s.pages

def leaves : Contents → List (Tree 0)
  | none => []
  | some ⟨_, s⟩ => s.leaves

def keys : Contents → List Key
  | none => []
  | some ⟨_, s⟩ => s.keys

def records : Contents → List LeafRecord
  | none => []
  | some ⟨_, s⟩ => s.records

end Contents

/-- What a table file is for: a tree, and the bookkeeping of its pages. -/
structure Store where
  tree : Contents
  alloc : Alloc

/-- Following `next_pgnum`. -/
abbrev nextOf (t : Table) (p : Pgnum) : Pgnum := (t p).nextPgnum

/-- The table file holds the store: its root page number is the root's, its pages
hold the tree with every parent, `next_pgnum` leads through the leaves from left to
right and ends in 0, and the other pages are free. -/
structure Represents (t : Table) (st : Store) : Prop where
  root : getRootpgnum t = st.tree.rootPage
  heap : Heap t st.alloc st.tree.pages
  stored : ∀ h s, st.tree = some ⟨h, s⟩ → Stored t 0 s
  linked : ∀ h s, st.tree = some ⟨h, s⟩ → Linked (nextOf t) s.leafPages 0

/-- The root page of the table is the root of the tree, which its pages hold. -/
structure InTable (t : Table) {h : Nat} (s : Tree h) : Prop where
  root : getRootpgnum t = s.pg
  nonzero : s.pg ≠ 0
  shape : Shape t s

theorem Represents.inTable {t : Table} {st : Store} (represents : Represents t st) {h : Nat}
    {s : Tree h} (tree : st.tree = some ⟨h, s⟩) : InTable t s := by
  have root := represents.root
  have heap := represents.heap
  rw [tree] at root heap
  exact ⟨root, heap.live_nonzero s.pg_mem_pages, (represents.stored h s tree).shape⟩

end SimpleDatabase.Kernel
