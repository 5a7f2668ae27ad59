/- Kernel.LeastKey -- where `find_least_key` stops

The code goes down from an internal root by one page, whatever is there.  In a tree
of height at most one that is the first leaf, whose first key is the least of all.
In a taller tree it is an internal page, and its first eight bytes of records are a
separator -- greater than every key in the subtree to its left.
-/
import SimpleDatabase.Kernel.Lookup

namespace SimpleDatabase.Kernel

open SimpleDatabase.Theory SimpleDatabase.Theory.PageTree SimpleDatabase.Project5 Page

set_option autoImplicit false

variable {t : Table}

def Contents.height : Contents → Nat
  | none => 0
  | some ⟨h, _⟩ => h

/-- The smallest key stored, `MAX_KEY_VALUE` for an empty table. -/
def Contents.Least (c : Contents) (k : Key) : Prop :=
  match c with
  | none => k = maxKeyValue
  | some ⟨_, s⟩ => k ∈ s.keys ∧ ∀ x ∈ s.keys, k ≤ x

/-- What `find_least_key` returns: up to height one the first key of all, above that
the first separator of the root's leftmost child. -/
def startKey : Contents → Key
  | none => maxKeyValue
  | some ⟨0, s⟩ => s.keys.headD maxKeyValue
  | some ⟨1, s⟩ => s.keys.headD maxKeyValue
  | some ⟨_ + 2, s⟩ => s.root.left.root.seps.headD maxKeyValue

/-- The first of increasing keys is the least. -/
theorem least_of_head {ks : List Key} (sorted : ks.Pairwise (· < ·)) (some_ : ∃ k, k ∈ ks) (d : Key) :
    ks.headD d ∈ ks ∧ ∀ x ∈ ks, ks.headD d ≤ x := by
  cases ks with
  | nil => simp at some_
  | cons y ys =>
      refine ⟨List.mem_cons_self, ?_⟩
      intro x member
      rcases List.mem_cons.mp member with rfl | later
      · exact le_rfl
      · exact ((List.pairwise_cons.mp sorted).1 x later).le

/-- The page whose first key `find_least_key` returns. -/
theorem findLeastKey_tree {h : Nat} {s : Tree h} (held : InTable t s) :
    findLeastKey t = .ok (leafRecord.get
      (if (t s.pg).isLeaf = 0 then t (t s.pg).leftPgnum else t s.pg) 0).1 := by
  simp only [findLeastKey, held.root, held.nonzero, if_false, fileReadPage,
    Slots.read_ok _ (show 0 < leafRecord.cap by simp), Exec.ok_bind]
  rfl

/-- The first key of a leaf page. -/
theorem Shape.first_key {s : Tree 0} (shape : Shape t s) (stocked : Stocked s) :
    (leafRecord.get (t s.pg) 0).1 = s.keys.headD maxKeyValue := by
  obtain ⟨r, rs, records⟩ := List.exists_cons_of_ne_nil (stocked s (by simp [leaves_zero]))
  rw [shape.leafPage.get (by simp [records])]
  simp [keys, records_zero, records]

theorem Searchable.findLeastKey_eq {c : Contents} (searchable : Searchable t c) :
    findLeastKey t = .ok (startKey c) := by
  match c, searchable with
  | none, empty =>
      have empty : getRootpgnum t = 0 := empty
      simp [findLeastKey, empty, startKey]
  | some ⟨0, s⟩, ⟨held, _, keyed⟩ =>
      have leaf := held.shape.leafPage
      rw [findLeastKey_tree held, if_neg (by rw [leaf.tag]; decide),
        held.shape.first_key keyed.stocked]
      rfl
  | some ⟨1, s⟩, ⟨held, _, keyed⟩ =>
      have node := held.shape.nodePage
      have child := s.root.left_mem
      have down : (t s.pg).leftPgnum = s.root.left.pg := node.left
      have stocked := (keyed.child child).stocked
      have split : s.keys = s.root.left.keys ++ (s.root.recs.map Prod.snd).flatMap keys := by
        rw [PageTree.keys, records_succ, List.map_flatMap]
        exact List.flatMap_cons
      obtain ⟨k, held'⟩ := stocked.exists_key
      obtain ⟨x, xs, first⟩ := List.exists_cons_of_ne_nil (List.ne_nil_of_mem held')
      rw [findLeastKey_tree held, if_pos node.tag, down, (held.shape.child child).first_key stocked]
      simp only [startKey, split, first, List.cons_append, List.headD_cons]
  | some ⟨h + 2, s⟩, ⟨held, _, keyed⟩ =>
      have node := held.shape.nodePage
      have below := (held.shape.child s.root.left_mem).nodePage
      have down : (t s.pg).leftPgnum = s.root.left.pg := node.left
      obtain ⟨e, es, shape⟩ := List.exists_cons_of_length_pos (keyed.child s.root.left_mem).root
      -- the first separator is read as the key of a leaf record
      have key := congrArg Prod.fst (below.get (i := 0) (by simp [Node.map, shape]))
      simp only [Node.map, shape, List.map_cons, List.getElem_cons_zero] at key
      rw [findLeastKey_tree held, if_pos node.tag, down, first_key, key]
      simp [startKey, Node.seps, shape]

/-- One page too high: the key returned is above a stored one, although not above all. -/
theorem startKey_tall {h : Nat} {s : Tree (h + 2)} (ordered : SearchOrdered s) (keyed : Keyed s) :
    (∃ x ∈ s.keys, x < startKey (some ⟨h + 2, s⟩)) ∧ ∃ x ∈ s.keys, startKey (some ⟨h + 2, s⟩) ≤ x := by
  have child := s.root.left_mem
  have below := ordered.2.2 s.root.left child
  obtain ⟨e, es, shape⟩ := List.exists_cons_of_length_pos (keyed.child child).root
  have start : startKey (some ⟨h + 2, s⟩) = e.1 := by simp [startKey, Node.seps, shape]
  have adjacent := below.2.1
  rw [shape] at adjacent
  have first : s.root.left.root.left ∈ s.root.left.root.children := Node.left_mem _
  have second : e.2 ∈ s.root.left.root.children := by simp [Node.children, shape]
  have inside : ∀ d ∈ s.root.left.root.children, ∀ x ∈ d.keys, x ∈ s.keys := fun d under x held =>
    (mem_keys_succ s x).mpr ⟨_, child, (mem_keys_succ _ x).mpr ⟨d, under, held⟩⟩
  rw [start]
  obtain ⟨x, low⟩ := ((keyed.child child).child first).stocked.exists_key
  obtain ⟨y, high⟩ := ((keyed.child child).child second).stocked.exists_key
  exact ⟨⟨x, inside _ first x low, adjacent.1 x low⟩, ⟨y, inside _ second y high, adjacent.2.1 y high⟩⟩

/-- `find_least_key` is right up to height one. -/
theorem Searchable.least_iff {c : Contents} (searchable : Searchable t c)
    (sorted : ∀ l ∈ c.leaves, l.keys.Pairwise (· < ·)) :
    (∃ k, findLeastKey t = .ok k ∧ c.Least k) ↔ c.height ≤ 1 := by
  have run : (∃ k, findLeastKey t = .ok k ∧ c.Least k) ↔ c.Least (startKey c) := by
    simp [searchable.findLeastKey_eq]
  rw [run]
  match c, searchable with
  | none, _ => simp [startKey, Contents.Least, Contents.height]
  | some ⟨h, s⟩, ⟨_, ordered, keyed⟩ =>
      have stocked := keyed.stocked
      have increasing := ((searchOrdered_iff stocked).mp ordered).keys_sorted stocked sorted
      have first := least_of_head increasing stocked.exists_key maxKeyValue
      match h, s with
      | 0, s => exact iff_of_true first (Nat.zero_le 1)
      | 1, s => exact iff_of_true first (Nat.le_refl 1)
      | h + 2, s =>
          obtain ⟨⟨x, member, above⟩, -⟩ := startKey_tall ordered keyed
          refine iff_of_false (fun least => ?_) (by simp [Contents.height])
          exact absurd (least.2 x member) (not_le.mpr above)

/-- **`find_least_key` returns the minimum exactly in tables of height at most one.** -/
theorem findLeastKey_iff {c : Contents} (searchable : Searchable t c)
    (sorted : ∀ l ∈ c.leaves, l.keys.Pairwise (· < ·)) :
    (∃ k, findLeastKey t = .ok k ∧ c.Least k) ↔ c.height ≤ 1 :=
  searchable.least_iff sorted

/-- The least key of a root over two leaves. -/
theorem findLeastKey_sample :
    ∃ k, findLeastKey (tableOf sampleStore) = .ok k ∧ sampleStore.tree.Least k :=
  (findLeastKey_iff sampleTable_searchable (by
    simp [sampleStore, Contents.leaves, sampleTree, leaves_succ, leaves_zero, Node.children, keys,
      records_zero])).mpr (Nat.le_refl 1)

/-- Two levels above the leaves. -/
def tallTree : Tree 2 :=
  branch 1 ⟨branch 2 ⟨leaf 3 [(1, default)], [(5, leaf 4 [(5, default)])]⟩,
    [(9, branch 5 ⟨leaf 6 [(9, default)], [(12, leaf 7 [(12, default)])]⟩)]⟩

def tallStore : Store := ⟨some ⟨2, tallTree⟩, ⟨[], 8⟩⟩

theorem tallStore_sound : tallStore.Sound where
  accounts := ⟨by decide, by decide⟩
  fits := by
    rintro _ _ ⟨⟩
    simp [tallTree, Fill, Node.children, size, Node.size]

theorem tallTable_searchable : Searchable (tableOf tallStore) tallStore.tree := by
  refine ⟨(tableOf_represents tallStore_sound).inTable rfl, ?_, ?_⟩
  · simp [tallTree, SearchOrdered, Node.Adjacent, Node.children, Node.seps, keys, records_zero,
      records_succ]
  · simp [tallTree, Keyed, All, content, Content.size, Node.size, Node.children, Node.map]

/-- In the taller tree it returns 5, although 1 is stored. -/
theorem findLeastKey_tall_wrong :
    ¬ ∃ k, findLeastKey (tableOf tallStore) = .ok k ∧ tallStore.tree.Least k := by
  rw [tallTable_searchable.least_iff (by
    simp [tallStore, Contents.leaves, tallTree, leaves_succ, leaves_zero, Node.children, keys,
      records_zero])]
  decide

end SimpleDatabase.Kernel
