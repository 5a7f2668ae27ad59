/- Kernel.Insert -- `db_insert` on a whole table

An insertion that has come to the root either ends there or puts a new root over the
two trees the old one became.  `dbInsert_new` says that the table then holds
`Store.insert`; what that does to a store's invariants is `grow`'s business.
-/
import SimpleDatabase.Kernel.Insertion
import SimpleDatabase.Kernel.Invariant

namespace SimpleDatabase.Kernel

open SimpleDatabase.Theory SimpleDatabase.Theory.PageTree SimpleDatabase.Project5 Page

set_option autoImplicit false

/-! ## At the root -/

section Root

variable {t : Table} {a : Alloc} {h : Nat}

/-- The page of a new root. -/
theorem newRoot_page (junk : Page) (l : Pgnum) (sep : Key) (r : Pgnum) :
    NodePage { internalRecord.put (makeInternalPage junk) 0 (sep, r) with
      nextPgnum := l, numofkeys := 1 } ⟨l, [(sep, r)]⟩ := by
  refine NodePage.of_slots rfl rfl rfl (show 1 ≤ 248 by decide) ?_
  intro i only
  have only : i < 1 := only
  obtain rfl : i = 0 := by omega
  rfl

/-- A new root over the two trees the old one became. -/
theorem insertIntoNewRoot_spec {l r : Tree h} {sep : Key}
    (graft : Grafted t a 0 0 [] ⟨l, [(sep, r)]⟩) (junk : Page) :
    ∃ t', insertIntoNewRoot junk t l.pg sep r.pg = .ok t' ∧
      Represents t' ⟨some ⟨h + 1, branch (Heap.take a).1 ⟨l, [(sep, r)]⟩⟩, (Heap.take a).2⟩ := by
  obtain ⟨page, after, kept, -⟩ := graft.heap.alloc
  obtain ⟨nonzero, fresh⟩ := graft.heap.accounts.take_fresh freepageGrowRate (by decide)
  obtain ⟨new, hnew⟩ : ∃ new, new = (Heap.take a).1 := ⟨_, rfl⟩
  rw [← hnew] at page after fresh nonzero ⊢
  obtain ⟨rootPage, hroot⟩ : ∃ p, p = { internalRecord.put (makeInternalPage junk) 0 (sep, r.pg) with
    nextPgnum := l.pg, numofkeys := 1 } := ⟨_, rfl⟩
  obtain ⟨w, hw⟩ : ∃ w, w = fileWritePage (fileAllocPage t).2 new rootPage := ⟨_, rfl⟩
  have run : insertIntoNewRoot junk t l.pg sep r.pg =
      .ok (setRootpgnum (adoptAll w [l.pg, r.pg] new) new) := by
    rw [insertIntoNewRoot, Slots.write_ok _ (by decide)]
    simp only [Exec.ok_bind, page, hw, hroot]
    rfl
  have listed : ∀ c ∈ [l.pg, r.pg],
      c ∈ (⟨l, [(sep, r)]⟩ : Node Key (Tree h)).children.flatMap pages := by
    intro c member
    simp only [List.mem_cons, List.not_mem_nil, or_false] at member
    rcases member with rfl | rfl <;> simp [pg_mem_pages]
  have books : Heap w (Heap.take a).2
      (new :: ((⟨l, [(sep, r)]⟩ : Node Key (Tree h)).children.flatMap pages ++ [])) :=
    hw ▸ after.write List.mem_cons_self rootPage
  have live : ∀ c ∈ [l.pg, r.pg],
      c ∈ new :: ((⟨l, [(sep, r)]⟩ : Node Key (Tree h)).children.flatMap pages ++ []) := fun c member =>
    List.mem_cons_of_mem _ (List.mem_append_left _ (listed c member))
  have adopted := books.adopted live new
  have inside : ∀ c ∈ (⟨l, [(sep, r)]⟩ : Node Key (Tree h)).children, ∀ p ∈ c.pages,
      setRootpgnum (adoptAll w [l.pg, r.pg] new) new p =
        if p ∈ [l, r].map Paged.pg then { t p with parentPgnum := new } else t p := by
    intro c child p member
    have live : p ∈ (⟨l, [(sep, r)]⟩ : Node Key (Tree h)).children.flatMap pages ++ [] :=
      List.mem_append_left _ (List.mem_flatMap.mpr ⟨c, child, member⟩)
    have ne : p ≠ new := fun same => fresh (same ▸ live)
    have written : w p = t p := by
      rw [hw, fileWritePage, Function.update_of_ne ne, kept p live]
    rw [setRootpgnum_other _ _ (graft.heap.live_nonzero live), adoptAll_apply, written]
    rfl
  have atNew : setRootpgnum (adoptAll w [l.pg, r.pg] new) new new = rootPage := by
    have absent : new ∉ [l.pg, r.pg] := fun member =>
      fresh (List.mem_append_left _ (listed new member))
    rw [setRootpgnum_other _ _ nonzero, adoptAll_other _ _ absent, hw]
    simp [fileWritePage]
  refine ⟨_, run, represents_some (getRootpgnum_setRootpgnum _ _) (Grafted.closed ⟨fun c child => ?_, ?_,
    graft.adopted_linked inside⟩ ?_ ?_)⟩
  · have both : ∀ c ∈ [l, r], c ∈ (⟨l, [(sep, r)]⟩ : Node Key (Tree h)).children := by simp
    exact (graft.adopted both inside child).1 (by simpa using child)
  · exact (adopted.1.setRoot new).perm List.perm_middle
  · rw [atNew, hroot]
    exact newRoot_page junk l.pg sep r.pg
  · rw [atNew, hroot]
    rfl

/-- The first record of an empty table. -/
theorem startNewTree_spec (represents : Represents t ⟨none, a⟩) (junk : Page) (k : Key) (v : Value) :
    ∃ root, startNewTree junk k v = .ok root ∧
      Represents (fileWritePage (setRootpgnum (fileAllocPage t).2 (fileAllocPage t).1) (fileAllocPage t).1 root)
        ⟨some ⟨0, leaf (Heap.take a).1 [(k, v)]⟩, (Heap.take a).2⟩ := by
  have books : Heap t a [] := represents.heap
  obtain ⟨page, after, -, -⟩ := books.alloc
  obtain ⟨nonzero, -⟩ := books.accounts.take_fresh freepageGrowRate (by decide)
  rw [page]
  obtain ⟨new, hnew⟩ : ∃ new, new = (Heap.take a).1 := ⟨_, rfl⟩
  rw [← hnew] at after nonzero ⊢
  obtain ⟨root, hroot⟩ : ∃ p, p = { leafRecord.put (makeLeafPage junk) 0 (k, v) with
    parentPgnum := 0, numofkeys := 1 } := ⟨_, rfl⟩
  have run : startNewTree junk k v = .ok root := by
    rw [startNewTree, Slots.write_ok _ (by decide), hroot]
    rfl
  have here : fileWritePage (setRootpgnum (fileAllocPage t).2 new) new root new = root := by
    simp [fileWritePage]
  refine ⟨root, run, represents_some ?_ ⟨fun c child => ?_, ?_, ?_⟩⟩
  · rw [(SameHeader.write _ nonzero).rootpgnum]
    exact getRootpgnum_setRootpgnum _ _
  · obtain rfl : c = leaf new [(k, v)] := by simpa using child
    show (fileWritePage _ new _ new).parentPgnum = 0 ∧ LeafPage (fileWritePage _ new _ new) [(k, v)]
    rw [here, hroot]
    refine ⟨rfl, LeafPage.of_slots rfl rfl (show 1 ≤ 31 by decide) ?_⟩
    intro i only
    have only : i < 1 := only
    obtain rfl : i = 0 := by omega
    rfl
  · exact (after.setRoot new).write List.mem_cons_self _
  · show nextOf _ new = 0 ∧ True
    rw [nextOf, here, hroot]
    exact ⟨rfl, trivial⟩

end Root

/-! ## `db_insert` -/

namespace Store

/-- The store with a record whose key the leaf does not hold yet. -/
def insert (st : Store) (k : Key) (v : Value) : Store :=
  match st.tree with
  | none => ⟨some ⟨0, leaf (Heap.take st.alloc).1 [(k, v)]⟩, (Heap.take st.alloc).2⟩
  | some ⟨h, s⟩ =>
      let g := growTree k v s st.alloc
      match g.grown with
      | .one s' => ⟨some ⟨h, s'⟩, g.alloc⟩
      | .two l sep r =>
          ⟨some ⟨h + 1, branch (Heap.take g.alloc).1 ⟨l, [(sep, r)]⟩⟩, (Heap.take g.alloc).2⟩

/-- The separators an insertion sends up, as they were before an `int` carried them. -/
def posted (st : Store) (k : Key) (v : Value) : List (Posting Key) :=
  match st.tree with
  | none => []
  | some ⟨_, s⟩ => (growTree k v s st.alloc).posted

end Store

section Insert

variable {t : Table} {st : Store} {k : Key} {v : Value}

/-- **`db_insert` of a new key is `Store.insert`.** -/
theorem dbInsert_new (represents : Represents t st) (keyed : st.Keyed) (new : st.lookup k = none)
    (heap : Nat → Page) :
    ∃ t', Returns (fun fuel => dbInsert heap fuel t k v) (0, t') ∧ Represents t' (st.insert k v) := by
  obtain ⟨tree, a⟩ := st
  cases tree with
  | none =>
      have empty : getRootpgnum t = 0 := represents.root
      obtain ⟨root, made, after⟩ := startNewTree_spec represents (heap headerPagenum) k v
      refine ⟨_, Returns.of_forall fun fuel => ?_, after⟩
      simp only [dbInsert, if_pos empty, made]
      rfl
  | some tree =>
      obtain ⟨h, s⟩ := tree
      have held := represents.inTable rfl
      have graft := represents.grafted
      have nonempty : getRootpgnum t ≠ 0 := held.root ▸ held.nonzero
      have missing : findValue (t (s.leafFor k).pg) k = .ok none := by
        rw [findValue_leafFor held.shape k]
        exact congrArg _ new
      obtain ⟨u, out⟩ := insert_outcome heap graft k v
      have finish : ∀ t', Returns (fun fuel => insertAtLeaf heap fuel t (s.leafFor k).pg k v) t' →
          Returns (fun fuel => dbInsert heap fuel t k v) (0, t') := by
        intro t' inserted
        exact dbInsert_of_absent (findLeafPage_eq held (keyed h s rfl) k) missing nonempty inserted
      have came := out.comesTo
      have grafted := out.grafted
      simp only [Store.insert]
      cases grown : (growTree k v s a).grown with
      | one s' =>
          rw [grown] at came grafted
          obtain ⟨n, run⟩ := came
          have page : (growTree k v s a).grown.node.left.pg = s.pg := grow_pg s a
          rw [grown] at page
          exact ⟨u, finish u (Returns.of_le n run),
            represents_some (out.root.trans (held.root.trans page.symm)) grafted⟩
      | two l sep r =>
          rw [grown] at came grafted
          obtain ⟨n, run⟩ := came
          obtain ⟨t', made, after⟩ := insertIntoNewRoot_spec grafted (heap 0)
          refine ⟨t', finish t' (Returns.of_le (n + 1) fun fuel => ?_), after⟩
          rw [← Nat.add_assoc, Nat.add_right_comm]
          exact (run (fuel + 1)).trans (by simp only [insertIntoParent, if_true, made])

end Insert

/-! ## What an insertion keeps -/

section Keeps

variable {h : Nat} {k : Key} {v : Value}

theorem half_room (h : Nat) : 2 ≤ maxKeys h := by
  cases h <;> simp

theorem half_pos (h : Nat) : 1 ≤ maxKeys h / 2 := by
  cases h <;> simp

theorem least_le_half (h : Nat) : least h ≤ maxKeys h / 2 := by
  cases h <;> simp [least]

variable {lo : Nat → Nat} {s : Tree h} {a : Alloc}

/-- A tree that did not split is packed as before. -/
theorem PackedTree.grown_one (packed : PackedTree lo s) (half : ∀ h, lo h ≤ maxKeys h / 2)
    (new : k ∉ (s.leafFor k).keys) {s' : Tree h} (one : (growTree k v s a).grown = .one s') :
    PackedTree lo s' := by
  have filled := grow_fill freepageGrowRate throughInt k v half half_room packed.below packed.fits a
  have sorted := grow_leavesSorted freepageGrowRate throughInt v packed.fill packed.sorted new a
  simp only [growTree] at one
  rw [one] at filled sorted
  obtain ⟨below, low, fits⟩ := filled s' (by simp [Grown.node])
  have pos := packed.pos
  have room := half_pos h
  exact ⟨below, by omega, fits, sorted s' (by simp [Grown.node])⟩

/-- The two halves of a tree that did are packed under a new root. -/
theorem PackedTree.grown_two (packed : PackedTree lo s) (half : ∀ h, lo h ≤ maxKeys h / 2)
    (new : k ∉ (s.leafFor k).keys) {l r : Tree h} {sep : Key}
    (two : (growTree k v s a).grown = .two l sep r) (p : Pgnum) :
    PackedTree lo (branch p ⟨l, [(sep, r)]⟩) := by
  have filled := grow_fill freepageGrowRate throughInt k v half half_room packed.below packed.fits a
  have sorted := grow_leavesSorted freepageGrowRate throughInt v packed.fill packed.sorted new a
  have full := grow_full freepageGrowRate throughInt k v packed.fill a
  simp only [growTree] at two
  rw [two] at filled sorted full
  have full := full (by simp [Grown.node, Node.size])
  have spread : Node.splice [] ⟨l, [(sep, r)]⟩ [] = (⟨l, [(sep, r)]⟩ : Node Key (Tree h)) := rfl
  refine ⟨?_, Nat.le_refl 1, show 1 ≤ 248 by decide, ?_⟩
  · intro c child
    obtain ⟨below, low, fits⟩ := filled c child
    have := half h
    exact Fill.of_root below (by omega) fits
  · rw [← spread, leavesSorted_splice]
    exact ⟨by simp, sorted, by simp⟩

end Keeps

section Store

variable {st : Store} {lo : Nat → Nat} {k : Key} {v : Value}

theorem Store.Packed.insert (packed : st.Packed lo) (half : ∀ h, lo h ≤ maxKeys h / 2)
    (new : st.lookup k = none) : (st.insert k v).Packed lo := by
  obtain ⟨tree, a⟩ := st
  cases tree with
  | none =>
      rintro h s ⟨⟩
      refine ⟨trivial, Nat.le_refl 1, show 1 ≤ 31 by decide, ?_⟩
      intro l member
      rw [leaves_zero, List.mem_singleton] at member
      simp [member, keys, records_zero]
  | some tree =>
      obtain ⟨h, s⟩ := tree
      have packed := packed h s rfl
      have absent := (lookup_eq_none_iff s k).mp new
      intro h' s' same
      simp only [Store.insert] at same
      cases grown : (growTree k v s a).grown with
      | one s₁ =>
          rw [grown] at same
          cases same
          exact packed.grown_one half absent grown
      | two l sep r =>
          rw [grown] at same
          cases same
          exact packed.grown_two half absent grown _

/-- **An insertion adds its record, and no other record comes or goes.** -/
theorem Store.Packed.insert_records (packed : st.Packed lo) :
    ((st.insert k v).tree.records).Perm ((k, v) :: st.tree.records) := by
  obtain ⟨tree, a⟩ := st
  cases tree with
  | none => exact List.Perm.of_eq (by simp [Store.insert, Contents.records, records_zero])
  | some tree =>
      obtain ⟨h, s⟩ := tree
      have records := grow_records freepageGrowRate throughInt k v (packed h s rfl).fill a
      simp only [Store.insert]
      cases grown : (growTree k v s a).grown with
      | one s₁ =>
          rw [show (grow maxKeys freepageGrowRate throughInt k v s a).grown = .one s₁ from grown] at records
          simpa [Grown.node, Contents.records] using records
      | two l sep r =>
          rw [show (grow maxKeys freepageGrowRate throughInt k v s a).grown = .two l sep r from grown]
            at records
          simpa [Grown.node, Contents.records, records_succ] using records

end Store

/-! ## Runs of insertions -/

/-- `db_insert` of any key returns, and the table holds the store with the record, or
the same store if the leaf of the key holds it. -/
theorem dbInsert_spec {t : Table} {st : Store} (represents : Represents t st) (keyed : st.Keyed)
    (heap : Nat → Page) (k : Key) (v : Value) :
    ∃ t', Returns (fun fuel => dbInsert heap fuel t k v) (0, t') ∧
      if (st.lookup k).isSome then t' = t else Represents t' (st.insert k v) := by
  cases found : st.lookup k with
  | none =>
      obtain ⟨t', run, after⟩ := dbInsert_new (v := v) represents keyed found heap
      exact ⟨t', run, by simpa using after⟩
  | some old =>
      obtain ⟨tree, a⟩ := st
      cases tree with
      | none => simp [Store.lookup] at found
      | some tree =>
          obtain ⟨h, s⟩ := tree
          have held := represents.inTable rfl
          refine ⟨t, dbInsert_of_descent (v := old) (findLeafPage_eq held (keyed h s rfl) k) ?_
            (held.root ▸ held.nonzero) heap v, by simp⟩
          rw [findValue_leafFor held.shape k]
          exact congrArg _ found

/-- One call of `db_insert` that returns. -/
def InsertStep (t : Table) (record : Key × Value) (t' : Table) : Prop :=
  ∃ heap r, Returns (fun fuel => dbInsert heap fuel t record.1 record.2) (r, t')

/-- The pages of the table are at least half full, and links, parents and books agree. -/
def HalfFull (t : Table) (st : Store) : Prop :=
  Represents t st ∧ st.Packed fun h => maxKeys h / 2

/-- A call of `db_insert` on such a table returns one, with one record more at most. -/
theorem HalfFull.insert {t : Table} {st : Store} (halfFull : HalfFull t st) (heap : Nat → Page)
    (k : Key) (v : Value) :
    ∃ t' st', Returns (fun fuel => dbInsert heap fuel t k v) (0, t') ∧ HalfFull t' st' ∧
      st'.tree.records.Perm
        (if (st.lookup k).isSome then st.tree.records else (k, v) :: st.tree.records) := by
  obtain ⟨represents, packed⟩ := halfFull
  obtain ⟨t', run, after⟩ := dbInsert_spec represents (packed.keyed half_pos) heap k v
  cases found : st.lookup k with
  | none =>
      rw [found] at after
      exact ⟨t', st.insert k v, run, ⟨by simpa using after, packed.insert (fun _ => Nat.le_refl _) found⟩,
        by simpa using packed.insert_records⟩
  | some old =>
      rw [found] at after
      obtain rfl : t' = t := by simpa using after
      exact ⟨t', st, run, ⟨represents, packed⟩, by simp⟩

theorem halfFull_fresh (junk : Page) (t : Table) :
    HalfFull (freshTable junk t) ⟨none, ⟨[], 1⟩⟩ :=
  ⟨freshTable_represents junk t, fun _ _ tree => nomatch tree⟩

theorem HalfFull.step (t : Table) (record : Key × Value) (t' : Table)
    (halfFull : ∃ st, HalfFull t st) (step : InsertStep t record t') : ∃ st, HalfFull t' st := by
  obtain ⟨st, halfFull⟩ := halfFull
  obtain ⟨heap, r, run⟩ := step
  obtain ⟨u, st', run', after, -⟩ := halfFull.insert heap record.1 record.2
  cases run.unique run'
  exact ⟨st', after⟩

/-- **After any run of insertions the page graph is sound**, whatever the separators:
the pages hold one tree, at least half full, every leaf sorted, every page below its
parent, the leaves linked in order and the other pages free.  And the next insertion
adds its record, unless the leaf of the key holds it, and no other comes or goes. -/
theorem insertRun_halfFull {junk : Page} {t₀ t : Table} {records : List (Key × Value)}
    (run : Run InsertStep (freshTable junk t₀) records t) :
    ∃ st, HalfFull t st ∧ ∀ heap k v, ∃ t' st',
      Returns (fun fuel => dbInsert heap fuel t k v) (0, t') ∧ HalfFull t' st' ∧
        st'.tree.records.Perm
          (if (st.lookup k).isSome then st.tree.records else (k, v) :: st.tree.records) := by
  obtain ⟨st, halfFull⟩ := run.invariant HalfFull.step ⟨_, halfFull_fresh junk t₀⟩
  exact ⟨st, halfFull, fun heap k v => halfFull.insert heap k v⟩

/-- One key more than a leaf has room for. -/
def smallRecords : List (Key × Value) := (List.range 32).map fun i => (Int64.ofNat i, default)

/-- The last key splits the leaf, and then a key comes that is already there. -/
theorem insertRun_halfFull_split : ∃ t, Run InsertStep (freshTable default default)
      (smallRecords ++ [(5, default)]) t ∧ ∃ st, HalfFull t st ∧
    ∀ heap k v, ∃ t' st', Returns (fun fuel => dbInsert heap fuel t k v) (0, t') ∧ HalfFull t' st' ∧
      st'.tree.records.Perm
        (if (st.lookup k).isSome then st.tree.records else (k, v) :: st.tree.records) := by
  obtain ⟨t, run⟩ := Run.exists_of_progress HalfFull.step
    (fun t record halfFull => by
      obtain ⟨st, halfFull⟩ := halfFull
      obtain ⟨t', st', run, -⟩ := halfFull.insert (fun _ => default) record.1 record.2
      exact ⟨t', _, _, run⟩)
    ⟨_, halfFull_fresh default default⟩ (smallRecords ++ [(5, default)])
  exact ⟨t, run, insertRun_halfFull run⟩

/-! ## Search order -/

section Order

variable {st : Store} {k : Key} {v : Value}

/-- **Insertion keeps a store well-formed**, if every separator sent up still
separates after an `int` has carried it. -/
theorem Store.WellFormed.insert (wellFormed : st.WellFormed) (absent : k ∉ st.tree.keys)
    (survive : ∀ p ∈ st.posted k v, Survives throughInt p) : (st.insert k v).WellFormed := by
  have new := Store.lookup_of_absent absent
  have packed := wellFormed.packed.insert (v := v) least_le_half new
  obtain ⟨tree, a⟩ := st
  cases tree with
  | none =>
      intro h s same
      refine WellFormedTree.of_within (packed h s same) ?_
      cases same
      intro x member
      exact ⟨bot_le, WithTop.coe_lt_top x⟩
  | some tree =>
      obtain ⟨h, s⟩ := tree
      have before := wellFormed h s rfl
      have within := grow_within freepageGrowRate throughInt v (a := a) least_le_half half_room
        least_pos before.within before.below before.pos before.fits before.sorted
        ((lookup_eq_none_iff s k).mp new) ⟨bot_le, WithTop.coe_lt_top k⟩ survive
      intro h' s' same
      refine WellFormedTree.of_within (packed h' s' same) ?_
      simp only [Store.insert] at same
      cases grown : (growTree k v s a).grown with
      | one s₁ =>
          rw [grown] at same
          cases same
          simp only [growTree] at grown
          rw [grown] at within
          exact within
      | two l sep r =>
          rw [grown] at same
          cases same
          simp only [growTree] at grown
          rw [grown] at within
          exact within

end Order

/-- **`db_insert` of a key not stored keeps a well-formed table well-formed**, if each
separator the splits send up is one an `int` holds, and adds exactly its record. -/
theorem dbInsert_wellFormed {t : Table} {st : Store} (represents : Represents t st)
    (wellFormed : st.WellFormed) {k : Key} (absent : k ∉ st.tree.keys) (v : Value)
    (fits : ∀ p ∈ st.posted k v, throughInt p.sep = p.sep) (heap : Nat → Page) :
    ∃ t' st', Returns (fun fuel => dbInsert heap fuel t k v) (0, t') ∧ Represents t' st' ∧
      st'.WellFormed ∧ st'.tree.records.Perm ((k, v) :: st.tree.records) := by
  obtain ⟨t', run, after⟩ := dbInsert_new (v := v) represents (wellFormed.packed.keyed least_pos)
    (Store.lookup_of_absent absent) heap
  refine ⟨t', st.insert k v, run, after, wellFormed.insert absent fun p member separates => ?_,
    wellFormed.packed.insert_records⟩
  rwa [fits p member]

/-- A root page that is a full leaf, with the keys `base`, `2 * base`, .... -/
def fullLeaf (base : Key) : Tree 0 :=
  leaf 1 ((List.range 31).map fun i => (base * Int64.ofNat (i + 1), default))

def fullStore (base : Key) : Store := ⟨some ⟨0, fullLeaf base⟩, ⟨[2, 3], 4⟩⟩

theorem fullStore_sound (base : Key) : (fullStore base).Sound where
  accounts := ⟨show 1 ≤ 4 by decide, List.Perm.refl [1, 2, 3]⟩
  fits := by
    rintro _ _ ⟨⟩
    simp [fullLeaf, Fill, size]

/-- Small keys go up unharmed when the full page splits. -/
theorem dbInsert_wellFormed_small :
    ∃ t' st', Returns (fun fuel => dbInsert (fun _ => default) fuel (tableOf (fullStore 1)) 32 default)
        (0, t') ∧ Represents t' st' ∧ st'.WellFormed ∧
      st'.tree.records.Perm ((32, default) :: (fullStore 1).tree.records) :=
  dbInsert_wellFormed (tableOf_represents (fullStore_sound 1)) (by
      rintro _ _ ⟨⟩
      exact ⟨⟨trivial, by decide, by decide, by simp only [LeavesSorted, leaves_zero]; decide⟩, trivial⟩)
    (by decide) default (by decide) _

end SimpleDatabase.Kernel
