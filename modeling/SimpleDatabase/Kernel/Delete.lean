/- Kernel.Delete -- `db_delete` on a whole table

A deletion that has come to the root's page ends in `adjust_root`: a root without a key
gives its page back, and its only child, if it has one, becomes the root.  `dbDelete_held`
says that the table then holds `Store.delete`; what that does to a store's invariants is
`shrink`'s business.
-/
import SimpleDatabase.Kernel.Deletion
import SimpleDatabase.Kernel.Lookup

namespace SimpleDatabase.Kernel

open SimpleDatabase.Theory SimpleDatabase.Theory.PageTree SimpleDatabase.Project5 Page

set_option autoImplicit false

/-! ## Well-formed stores as maps -/

/-- In a well-formed store the records are what a search finds. -/
theorem Store.WellFormed.lookup_iff {st : Store} (wellFormed : st.WellFormed) (k : Key) (v : Value) :
    st.lookup k = some v ↔ (k, v) ∈ st.tree.records := by
  obtain ⟨tree, a⟩ := st
  cases tree with
  | none => simp [Store.lookup, Contents.records]
  | some tree =>
      obtain ⟨h, s⟩ := tree
      have tree := wellFormed h s rfl
      show Kernel.lookup s k = some v ↔ (k, v) ∈ s.records
      constructor
      · intro found
        exact List.mem_flatMap.mpr ⟨_, s.leafFor_mem k, List.mem_of_find?_eq_some (lookup_first found)⟩
      · intro record
        obtain ⟨l, member, inside⟩ := List.mem_flatMap.mp record
        have held : k ∈ l.keys := (mem_keys_iff l k).mpr ⟨v, by rwa [records_zero]⟩
        have route := leafFor_of_held tree.ordered (tree.keyed least_pos) member held
        obtain ⟨v', first⟩ := find?_isSome_of_mem held
        -- a sorted leaf has one record with the key
        have sorted := tree.sorted l member
        have unique : v' = v := by
          have other := List.mem_of_find?_eq_some first
          rw [keys, records_zero, List.pairwise_map] at sorted
          have apart := sorted.imp (S := fun x y : LeafRecord => x.1 ≠ y.1) fun less => ne_of_lt less
          have symmetric : Std.Symm fun x y : LeafRecord => x.1 ≠ y.1 := ⟨fun _ _ ne => Ne.symm ne⟩
          by_contra different
          exact apart.forall other inside (fun same => different (Prod.mk.inj same).2) rfl
        rw [Kernel.lookup, route, first, unique]
        rfl

/-! ## At the root -/

/-- The store of a tree whose root may be left without a key. -/
def dropRoot : {h : Nat} → Tree h → Alloc → Store
  | 0, s, a => if 0 < s.size then ⟨some ⟨0, s⟩, a⟩ else ⟨none, a.give s.pg⟩
  | h + 1, s, a =>
      if 0 < s.size then ⟨some ⟨h + 1, s⟩, a⟩ else ⟨some ⟨h, s.root.left⟩, a.give s.pg⟩

section Root

variable {u : Table} {a : Alloc} {h : Nat}

/-- The last record of the table is gone. -/
theorem adjustRoot_leaf {s : Tree 0} (graft : Grafted u a 0 0 [] ⟨s, []⟩) (empty : s.size = 0) :
    Represents (adjustRoot u s.pg) ⟨none, a.give s.pg⟩ := by
  have stored := graft.single_up
  have books : Heap u a [s.pg] := graft.heap
  have run : adjustRoot u s.pg = setRootpgnum (fileFreePage u s.pg) 0 := by
    simp only [adjustRoot, fileReadPage, stored.numofkeys, stored.leafPage.tag, empty]
    rfl
  rw [run]
  exact ⟨getRootpgnum_setRootpgnum _ _, books.freed.1.setRoot 0, by simp, by simp⟩

/-- The only child of the root becomes the root. -/
theorem adjustRoot_node {s : Tree (h + 1)} (graft : Grafted u a 0 0 [] ⟨s, []⟩) (empty : s.size = 0) :
    Represents (adjustRoot u s.pg) ⟨some ⟨h, s.root.left⟩, a.give s.pg⟩ := by
  have stored := graft.single_up
  obtain ⟨c, single⟩ : ∃ c, s.root = ⟨c, []⟩ :=
    ⟨s.root.left, congrArg (Node.mk s.root.left) (List.eq_nil_of_length_eq_zero empty)⟩
  have below := graft.opened
  have left := stored.nodePage.left
  rw [single] at below left ⊢
  have left : (u s.pg).leftPgnum = c.pg := left
  -- the table before the old root's page is given back
  obtain ⟨w, hw⟩ : ∃ w, w = adoptAll (setRootpgnum u c.pg) [c.pg] 0 := ⟨_, rfl⟩
  have run : adjustRoot u s.pg = fileFreePage w s.pg := by
    simp only [adjustRoot, fileReadPage, stored.numofkeys, stored.nodePage.tag, empty, left, hw]
    rfl
  have live : Heap u a (s.pg :: c.pages) := below.heap.perm
    (by simpa using (List.perm_append_singleton s.pg c.pages).symm)
  have used : c.pg ∈ s.pg :: c.pages := List.mem_cons_of_mem _ (pg_mem_pages c)
  have adopted := (live.setRoot c.pg).adopted
    (show ∀ d ∈ [c.pg], d ∈ s.pg :: c.pages by simpa using used) 0
  rw [← hw] at adopted
  obtain ⟨after, kept, root, -⟩ := adopted.1.freed
  have same : ∀ d ∈ (⟨c, []⟩ : Node Key (Tree h)).children, ∀ p ∈ d.pages, fileFreePage w s.pg p =
      if p ∈ [c].map Paged.pg then { u p with parentPgnum := 0 } else u p := by
    intro d child p inside
    obtain rfl : d = c := by simpa using child
    rw [kept p inside, hw, adoptAll_apply,
      setRootpgnum_other _ _ (live.live_nonzero (List.mem_cons_of_mem _ inside))]
    rfl
  rw [run]
  refine represents_some ?_ ⟨fun d child => ?_, by simpa using after, below.adopted_linked same⟩
  · rw [root, adopted.2]
    exact getRootpgnum_setRootpgnum _ _
  · obtain rfl : d = c := by simpa using child
    exact (below.adopted (by simp) same (by simp)).1 (by simp)

/-- **`adjust_root` is `dropRoot`.** -/
theorem adjustRoot_spec {s : Tree h} (root : getRootpgnum u = s.pg)
    (graft : Grafted u a 0 0 [] ⟨s, []⟩) : Represents (adjustRoot u s.pg) (dropRoot s a) := by
  have count := graft.single_up.numofkeys
  by_cases some_ : 0 < s.size
  · have run : adjustRoot u s.pg = u := by
      simp only [adjustRoot, fileReadPage, count, if_pos some_]
    rw [run]
    cases h <;> rw [dropRoot, if_pos some_] <;> exact represents_some root graft
  · have empty : s.size = 0 := Nat.eq_zero_of_not_pos some_
    cases h with
    | zero =>
        rw [dropRoot, if_neg some_]
        exact adjustRoot_leaf graft empty
    | succ h =>
        rw [dropRoot, if_neg some_]
        exact adjustRoot_node graft empty

end Root

/-! ## `db_delete` -/

namespace Store

/-- The store without the record found with the key. -/
def delete (st : Store) (k : Key) : Store :=
  match st.tree with
  | none => st
  | some ⟨h, s⟩ =>
      let d := shrinkTree k s st.alloc
      match d.shrunk with
      | .lost s' => dropRoot s' d.alloc
      | .kept s' => ⟨some ⟨h, s'⟩, d.alloc⟩

/-- The pages below the root that a deletion settles with a neighbour. -/
def underflows (st : Store) (k : Key) : List Underflow :=
  match st.tree with
  | none => []
  | some ⟨_, s⟩ => (shrinkTree k s st.alloc).underflows

end Store

section Delete

variable {t : Table} {st : Store} {k : Key} {v : Value}

/-- **`db_delete` of a stored key is `Store.delete`.** -/
theorem dbDelete_held (represents : Represents t st) (wellFormed : st.WellFormed)
    (found : st.lookup k = some v) (smooth : ∀ x ∈ st.underflows k, Underflow.Smooth x) :
    ∃ t', Returns (fun fuel => dbDelete .layout fuel t k) (0, t') ∧ Represents t' (st.delete k) := by
  obtain ⟨tree, a⟩ := st
  cases tree with
  | none => simp [Store.lookup] at found
  | some tree =>
      obtain ⟨h, s⟩ := tree
      have held := represents.inTable rfl
      have graft := represents.grafted
      have tree := wellFormed h s rfl
      have keyed := tree.keyed least_pos
      have value : findValue (t (s.leafFor k).pg) k = .ok (some v) := by
        rw [findValue_leafFor held.shape k]
        exact congrArg _ found
      obtain ⟨u, out⟩ := shrink_deletion graft (held.root ▸ List.mem_cons_self) keyed tree.ordered
        (lookup_held found) smooth
      have descent := findLeafPage_eq held keyed k
      have came := out.deletesTo
      have grafted := out.grafted
      have page : (shrinkTree k s a).shrunk.tree.pg = s.pg := shrink_pg keyed a
      have root : getRootpgnum u = (shrinkTree k s a).shrunk.tree.pg :=
        out.root.trans (held.root.trans page.symm)
      simp only [Store.delete]
      cases shrunk : (shrinkTree k s a).shrunk with
      | kept s' =>
          rw [shrunk] at came grafted root
          obtain ⟨c, path, ends⟩ := came
          exact ⟨u, dbDelete_of_held descent value (path.returns ends), represents_some root grafted⟩
      | lost s' =>
          rw [shrunk] at came grafted root
          obtain ⟨t', key, path, removed⟩ := came
          have nonzero : s'.pg ≠ 0 := grafted.nonzero (by simp [Shrunk.tree])
          have ends : DeleteCall.Ends .layout ⟨t', s'.pg, key⟩ (adjustRoot u s'.pg) :=
            removed.ends_at_root nonzero root
          exact ⟨adjustRoot u s'.pg, dbDelete_of_held descent value (path.returns ends),
            adjustRoot_spec root grafted⟩

/-! ## What a deletion keeps -/

theorem few_pos (h : Nat) : 1 ≤ minKeys h := by
  cases h <;> simp

theorem least_le_capacity (h : Nat) : least h ≤ mergeBelow h / 2 := by
  cases h <;> simp [least]

/-- A tree that is well-formed, but for a root that may have no key. -/
structure LooseTree {h : Nat} (s : Tree h) : Prop where
  below : FillBelow least maxKeys s
  fits : s.size ≤ maxKeys h
  sorted : LeavesSorted s
  within : Within ⊥ ⊤ s

section Keeps

variable {h : Nat} {s : Tree h}

theorem LooseTree.wellFormed (loose : LooseTree s) (pos : 1 ≤ s.size) : WellFormedTree s :=
  WellFormedTree.of_within ⟨loose.below, pos, loose.fits, loose.sorted⟩ loose.within

theorem WellFormedTree.shrunk (wellFormed : WellFormedTree s) (held : k ∈ (s.leafFor k).keys)
    (a : Alloc) : LooseTree (shrinkTree k s a).shrunk.tree := by
  have size := shrink_size minKeys capacity_two wellFormed.pos held a
  obtain ⟨within, sorted⟩ := shrink_within few_pos least_le_capacity capacity_le_room wellFormed.within
    wellFormed.sorted wellFormed.below wellFormed.pos held a
  exact ⟨shrink_fill few_pos least_le_capacity capacity_le_room wellFormed.below wellFormed.pos held a,
    ((Shrunk.size_le _).trans size.le).trans wellFormed.fits, sorted, within⟩

/-- A root without a key is dropped, and the tree below it has one. -/
theorem LooseTree.dropRoot (loose : LooseTree s) (a : Alloc) : (dropRoot s a).WellFormed := by
  by_cases pos : 0 < s.size
  · intro h' s' same
    cases h <;> rw [Kernel.dropRoot, if_pos pos] at same <;> cases same <;> exact loose.wellFormed pos
  · cases h with
    | zero =>
        rw [Kernel.dropRoot, if_neg pos]
        exact fun _ _ same => nomatch same
    | succ h =>
        rw [Kernel.dropRoot, if_neg pos]
        rintro _ _ ⟨⟩
        have child := s.root.left_mem
        have fill := loose.below _ child
        have empty : s.root.recs = [] := List.eq_nil_of_length_eq_zero (Nat.eq_zero_of_not_pos pos)
        have within := loose.within
        simp only [Within, empty] at within
        exact WellFormedTree.of_within ⟨fill.below, (least_pos h).trans fill.root.1, fill.root.2,
          loose.sorted.child child⟩ within

theorem dropRoot_records (s : Tree h) (a : Alloc) : (dropRoot s a).tree.records = s.records := by
  by_cases pos : 0 < s.size
  · cases h <;> rw [dropRoot, if_pos pos] <;> rfl
  · have empty := Nat.eq_zero_of_not_pos pos
    cases h with
    | zero =>
        rw [dropRoot, if_neg pos, records_zero]
        exact (List.eq_nil_of_length_eq_zero empty).symm
    | succ h =>
        have single : s.root.recs = [] := List.eq_nil_of_length_eq_zero empty
        rw [dropRoot, if_neg pos, records_succ, Node.children, single]
        simp [Contents.records]

end Keeps

/-- **Deletion keeps a store well-formed.** -/
theorem Store.WellFormed.delete (wellFormed : st.WellFormed) (found : st.lookup k = some v) :
    (st.delete k).WellFormed := by
  obtain ⟨tree, a⟩ := st
  cases tree with
  | none => simp [Store.lookup] at found
  | some tree =>
      obtain ⟨h, s⟩ := tree
      have tree := wellFormed h s rfl
      have held := lookup_held found
      have loose := tree.shrunk held a
      have size := shrink_size minKeys capacity_two tree.pos held a
      simp only [Store.delete]
      cases shrunk : (shrinkTree k s a).shrunk with
      | lost s' =>
          rw [shrunk] at loose
          exact loose.dropRoot _
      | kept s' =>
          rw [shrunk] at loose
          rw [shrinkTree] at shrunk
          rw [shrunk] at size
          rintro _ _ ⟨⟩
          exact loose.wellFormed (tree.pos.trans size.ge)

/-- **Deletion takes out the record found with the key, and no other comes or goes.** -/
theorem Store.WellFormed.delete_records (wellFormed : st.WellFormed) (found : st.lookup k = some v) :
    st.tree.records.Perm ((k, v) :: (st.delete k).tree.records) := by
  obtain ⟨tree, a⟩ := st
  cases tree with
  | none => simp [Store.lookup] at found
  | some tree =>
      obtain ⟨h, s⟩ := tree
      have keyed := (wellFormed h s rfl).keyed least_pos
      have records := shrink_records minKeys capacity_two keyed a (lookup_first found)
      simp only [Store.delete]
      cases shrunk : (shrinkTree k s a).shrunk with
      | lost s' =>
          rw [shrinkTree] at shrunk
          rw [shrunk] at records
          rw [dropRoot_records]
          exact records
      | kept s' =>
          rw [shrinkTree] at shrunk
          rw [shrunk] at records
          exact records

/-- **`db_delete` of a stored key keeps a well-formed table well-formed** and takes out
exactly its record, if every internal page the cascade settles can be merged. -/
theorem dbDelete_wellFormed (represents : Represents t st) (wellFormed : st.WellFormed)
    (stored : (k, v) ∈ st.tree.records)
    (coalesce : ∀ x ∈ st.underflows k, 1 ≤ x.height → x.keys + x.neighbor < maxInternalKey / 2) :
    ∃ t' st', Returns (fun fuel => dbDelete .layout fuel t k) (0, t') ∧ Represents t' st' ∧
      st'.WellFormed ∧ st.tree.records.Perm ((k, v) :: st'.tree.records) := by
  have found := (wellFormed.lookup_iff k v).mpr stored
  obtain ⟨t', run, after⟩ := dbDelete_held represents wellFormed found fun x member above _ =>
    coalesce x member above
  exact ⟨t', st.delete k, run, after, wellFormed.delete found, wellFormed.delete_records found⟩

end Delete

/-- A root over two leaves that have as few keys as they may. -/
def sparseTree : Tree 1 :=
  branch 1 ⟨leaf 2 [(1, default), (2, default), (3, default), (4, default)],
    [(5, leaf 3 [(5, default), (6, default), (7, default), (8, default)])]⟩

def sparseStore : Store := ⟨some ⟨1, sparseTree⟩, ⟨[], 4⟩⟩

theorem sparseStore_sound : sparseStore.Sound where
  accounts := ⟨by decide, by decide⟩
  fits := by
    rintro _ _ ⟨⟩
    simp [sparseTree, Fill, Node.children, size, Node.size]

theorem sparseStore_wellFormed : sparseStore.WellFormed := by
  rintro _ _ ⟨⟩
  refine ⟨⟨?_, by decide, by decide, ?_⟩, ?_⟩
  · simp [sparseTree, FillBelow, Fill, Node.children, size, least]
  · simp only [LeavesSorted]
    decide
  · simp [sparseTree, SearchOrdered, Node.Adjacent, Node.children, Node.seps, keys, records_zero]

/-- Deleting a key merges the two leaves, and the one page left becomes the root. -/
theorem dbDelete_wellFormed_sparse :
    ∃ t' st', Returns (fun fuel => dbDelete .layout fuel (tableOf sparseStore) 2) (0, t') ∧
      Represents t' st' ∧ st'.WellFormed ∧
      sparseStore.tree.records.Perm ((2, default) :: st'.tree.records) :=
  dbDelete_wellFormed (tableOf_represents sparseStore_sound) sparseStore_wellFormed (by decide) (by decide)

end SimpleDatabase.Kernel
