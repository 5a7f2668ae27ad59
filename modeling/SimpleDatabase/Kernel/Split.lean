/- Kernel.Split -- splitting a full page in two

What `insert_into_leaf_after_splitting` and `insert_into_node_after_splitting` do
up to the call of `insert_into_parent`: a page is allocated, the records with the
new one among them are cut in two around the middle, and the children that moved
are told their new parent.  No other page in use changes.
-/
import SimpleDatabase.Kernel.Disk
import SimpleDatabase.Kernel.Pages

namespace SimpleDatabase.Kernel

open SimpleDatabase.Theory SimpleDatabase.Project5 Page

set_option autoImplicit false

/-! ## Telling children their parent -/

/-- Give each of the pages `cs` the parent `pg`. -/
def adoptAll (t : Table) (cs : List Pgnum) (pg : Pgnum) : Table :=
  cs.foldl (fun t c => setParent t c pg) t

theorem setParent_apply (t : Table) (c pg p : Pgnum) :
    setParent t c pg p = if p = c then { t p with parentPgnum := pg } else t p := by
  by_cases same : p = c <;> simp [setParent, fileReadPage, fileWritePage, same]

theorem adoptAll_apply (t : Table) (cs : List Pgnum) (pg p : Pgnum) :
    adoptAll t cs pg p = if p ∈ cs then { t p with parentPgnum := pg } else t p := by
  induction cs generalizing t with
  | nil => rfl
  | cons c cs ih =>
      rw [show adoptAll t (c :: cs) pg = adoptAll (setParent t c pg) cs pg from rfl, ih,
        setParent_apply]
      by_cases here : p = c <;> by_cases later : p ∈ cs <;> simp [here, later]

theorem adoptAll_append (t : Table) (cs ds : List Pgnum) (pg : Pgnum) :
    adoptAll t (cs ++ ds) pg = adoptAll (adoptAll t cs pg) ds pg := by
  simp [adoptAll]

theorem adoptAll_other (t : Table) {cs : List Pgnum} (pg : Pgnum) {p : Pgnum} (other : p ∉ cs) :
    adoptAll t cs pg p = t p := by
  rw [adoptAll_apply, if_neg other]

theorem Heap.adopted {t : Table} {a : Alloc} {live : List Pgnum} (heap : Heap t a live)
    {cs : List Pgnum} (used : ∀ c ∈ cs, c ∈ live) (pg : Pgnum) :
    Heap (adoptAll t cs pg) a live ∧ getRootpgnum (adoptAll t cs pg) = getRootpgnum t := by
  have same : ∀ p, p ∉ live → adoptAll t cs pg p = t p := fun p other =>
    adoptAll_other t pg fun member => other (used p member)
  exact ⟨heap.frame same, SameHeader.rootpgnum (same _ heap.header_not_live)⟩

/-! ## Leaves -/

/-- The records of a full leaf with a new one in its place. -/
def leafWith (recs : List LeafRecord) (key : Key) (value : Value) : List LeafRecord :=
  recs.insertIdx (recs.findIdx fun r => ¬ r.1 < key) (key, value)

theorem leafWith_length (recs : List LeafRecord) (key : Key) (value : Value) :
    (leafWith recs key value).length = recs.length + 1 := by
  rw [leafWith, List.length_insertIdx, if_pos List.findIdx_le_length]

/-- The two pages a full leaf is written back as. -/
theorem splitLeaf_run {t : Table} {pgnum : Pgnum} {recs : List LeafRecord}
    (leaf : LeafPage (t pgnum) recs) (full : recs.length = maxLeafKey) (junk : Page) (key : Key)
    (value : Value) :
    ∃ left right sep, splitLeaf junk t pgnum key value =
        .ok ⟨fileWritePage (fileWritePage (fileAllocPage t).2 pgnum left) (fileAllocPage t).1 right,
          (t pgnum).parentPgnum, sep.toInt32, (fileAllocPage t).1⟩ ∧
      sep ∈ ((leafWith recs key value).drop 15).head?.map Prod.fst ∧
      LeafPage left ((leafWith recs key value).take 15) ∧
      left.parentPgnum = (t pgnum).parentPgnum ∧ left.nextPgnum = (fileAllocPage t).1 ∧
      LeafPage right ((leafWith recs key value).drop 15) ∧
      right.parentPgnum = (t pgnum).parentPgnum ∧ right.nextPgnum = (t pgnum).nextPgnum := by
  have full : recs.length = 31 := full
  have number : (t pgnum).numofkeys = 31 := leaf.numofkeys.trans full
  have records := leaf.view
  rw [number] at records
  have length := leafWith_length recs key value
  -- the records with the new one, in the scratch array
  obtain ⟨i, hi⟩ : ∃ i, i = recs.findIdx fun r => ¬ r.1 < key := ⟨_, rfl⟩
  have scan := leafRecord.find_eq (t pgnum) (fun r => ¬ r.1 < key) 31 (by simp)
  rw [records, ← hi] at scan
  have bound : i ≤ 31 := by
    rw [← full, hi]
    exact List.findIdx_le_length
  obtain ⟨s, around, -, all⟩ := (tempRecord LeafRecord maxLeafKey).copyAround_insert leafRecord
    (t pgnum) (fun _ => default) (key, value) bound (by simp) (by simp [tempRecord])
  rw [records, show recs.insertIdx i (key, value) = leafWith recs key value by rw [hi]; rfl] at all
  obtain ⟨temp, written⟩ : ∃ temp, (tempRecord LeafRecord maxLeafKey).write s i (key, value) = .ok temp ∧
      (tempRecord LeafRecord maxLeafKey).view temp 32 = leafWith recs key value :=
    ⟨_, Slots.write_ok _ (show i < (tempRecord LeafRecord maxLeafKey).cap by simp [tempRecord]; omega), all⟩
  -- its two halves, copied out
  obtain ⟨old, copyOld, oldHeader, oldRecords⟩ := leafRecord.copyUp_fill
    (tempRecord LeafRecord maxLeafKey) temp { t pgnum with numofkeys := 0 } 0 (maxLeafKey / 2)
    (by decide) (by decide)
  obtain ⟨new, copyNew, newHeader, newRecords⟩ := leafRecord.copyUp_fill
    (tempRecord LeafRecord maxLeafKey) temp (makeLeafPage junk) (maxLeafKey / 2)
    (maxLeafKey + 1 - maxLeafKey / 2) (by decide) (by decide)
  have oldHeader : old.toHeader = { (t pgnum).toHeader with numofkeys := 0 } := oldHeader
  have newHeader : new.toHeader = (makeLeafPage junk).toHeader := newHeader
  have oldRecords : leafRecord.view old 15 = (leafWith recs key value).take 15 := by
    rw [← written.2, Slots.view_take _ _ (by omega)]
    exact oldRecords
  have newRecords : leafRecord.view new 17 = (leafWith recs key value).drop 15 := by
    rw [← written.2]
    exact newRecords
  obtain ⟨first, rest, split⟩ : ∃ r rs, (leafWith recs key value).drop 15 = r :: rs :=
    List.exists_cons_of_length_pos (by rw [List.length_drop]; omega)
  have head : leafRecord.get new 0 = first := by
    rw [split] at newRecords
    exact (List.cons.inj newRecords).1
  have oldNumber := congrArg Header.numofkeys oldHeader
  have oldNext := congrArg Header.nextPgnum oldHeader
  have oldParent := congrArg Header.parentPgnum oldHeader
  have newNumber := congrArg Header.numofkeys newHeader
  refine ⟨{ old with numofkeys := 15, nextPgnum := (fileAllocPage t).1 },
    { new with numofkeys := 17, nextPgnum := (t pgnum).nextPgnum, parentPgnum := (t pgnum).parentPgnum },
    first.1, ?_, by simp [split], ⟨?_, oldRecords, ?_⟩, oldParent, rfl,
    ⟨congrArg Header.isLeaf newHeader, newRecords, ?_⟩, rfl, rfl⟩
  · simp only [splitLeaf, fileReadPage]
    rw [number, scan]
    simp only [Exec.ok_bind, around, written.1]
    rw [copyOld, Exec.ok_bind, copyNew, Exec.ok_bind,
      Slots.read_ok _ (show 0 < leafRecord.cap by simp), Exec.ok_bind, oldNumber, oldNext, oldParent,
      newNumber, ← head]
    rfl
  · exact (congrArg Header.isLeaf oldHeader).trans leaf.tag
  · rw [List.length_take]
    omega
  · rw [List.length_drop]
    omega

/-- **A full leaf splits after 15 of its 32 records**; the separator is a copy of
the sixteenth key. -/
theorem splitLeaf_spec {t : Table} {a : Alloc} {live : List Pgnum} (heap : Heap t a live)
    {pgnum : Pgnum} (used : pgnum ∈ live) {recs : List LeafRecord}
    (leaf : LeafPage (t pgnum) recs) (full : recs.length = maxLeafKey) (junk : Page) (key : Key)
    (value : Value) :
    ∃ u sep, splitLeaf junk t pgnum key value =
        .ok ⟨u, (t pgnum).parentPgnum, sep.toInt32, (Heap.take a).1⟩ ∧
      sep ∈ ((leafWith recs key value).drop 15).head?.map Prod.fst ∧
      LeafPage (u pgnum) ((leafWith recs key value).take 15) ∧
      (u pgnum).parentPgnum = (t pgnum).parentPgnum ∧ (u pgnum).nextPgnum = (Heap.take a).1 ∧
      LeafPage (u (Heap.take a).1) ((leafWith recs key value).drop 15) ∧
      (u (Heap.take a).1).parentPgnum = (t pgnum).parentPgnum ∧
      (u (Heap.take a).1).nextPgnum = (t pgnum).nextPgnum ∧
      (∀ p ∈ live, p ≠ pgnum → u p = t p) ∧
      Heap u (Heap.take a).2 ((Heap.take a).1 :: live) ∧ getRootpgnum u = getRootpgnum t := by
  obtain ⟨page, after, kept, root⟩ := heap.alloc
  obtain ⟨nonzero, fresh⟩ := heap.accounts.take_fresh freepageGrowRate (by decide)
  obtain ⟨left, right, sep, run, first, oldLeaf, oldParent, oldNext, newLeaf, newParent, newNext⟩ :=
    splitLeaf_run leaf full junk key value
  rw [page] at run oldNext
  obtain ⟨new, hnew⟩ : ∃ new, new = (Heap.take a).1 := ⟨_, rfl⟩
  rw [← hnew] at run oldNext after fresh nonzero ⊢
  have other : pgnum ≠ new := fun same => fresh (same ▸ used)
  obtain ⟨u, hu⟩ : ∃ u, u = fileWritePage (fileWritePage (fileAllocPage t).2 pgnum left) new right :=
    ⟨_, rfl⟩
  have atOld : u pgnum = left := by simp [hu, fileWritePage, other]
  have atNew : u new = right := by simp [hu, fileWritePage]
  refine ⟨u, sep, hu ▸ run, first, ?_, ?_, ?_, ?_, ?_, ?_, fun p member ne => ?_, ?_, ?_⟩
  · rwa [atOld]
  · rwa [atOld]
  · rwa [atOld]
  · rwa [atNew]
  · rwa [atNew]
  · rwa [atNew]
  · have ne' : p ≠ new := fun same => fresh (same ▸ member)
    rw [hu, ← kept p member]
    simp [fileWritePage, ne, ne']
  · rw [hu]
    exact (after.write (List.mem_cons_of_mem _ used) left).write List.mem_cons_self right
  · rw [hu, (SameHeader.write right nonzero).rootpgnum,
      (SameHeader.write left (heap.live_nonzero used)).rootpgnum, root]

/-! ## Internal pages -/

/-- The loop over the records of a new page. -/
theorem reparent_spec (page : Page) (pg : Pgnum) (i n : Nat) (t : Table) (inside : i + n ≤ 248) :
    reparent page pg i n t =
      .ok (adoptAll t (((internalRecord.view page (i + n)).drop i).map Prod.snd) pg) := by
  induction n generalizing i t with
  | zero =>
      rw [List.drop_eq_nil_of_le (by simp)]
      rfl
  | succ n ih =>
      have first : internalRecord.read page i = .ok (internalRecord.get page i) :=
        Slots.read_ok _ (show i < 248 by omega)
      rw [reparent, first, Exec.ok_bind, ih (i + 1) _ (by omega), Slots.view_drop, List.map_cons]
      rfl

/-- The two pages a full internal page is written back as, and the children that
get a new parent. -/
theorem splitNode_run {t : Table} {old : Pgnum} {n : Node Key Pgnum} (node : NodePage (t old) n)
    (full : n.size = maxInternalKey) {i : Nat} (inside : i ≤ n.size) (junk : Page) (key : Key)
    (right : Pgnum) {l r : Node Key Pgnum} {m : Key}
    (halves : n.insertAt i key right = Node.join l m r) (width : l.size = maxInternalKey / 2) :
    ∃ leftPage rightPage, splitNode junk t old i key right =
        .ok ⟨fileWritePage (adoptAll (fileAllocPage (fileWritePage t old leftPage)).2
            (r.recs.map Prod.snd ++ [r.left]) (fileAllocPage (fileWritePage t old leftPage)).1)
            (fileAllocPage (fileWritePage t old leftPage)).1 rightPage,
          (t old).parentPgnum, m.toInt32, (fileAllocPage (fileWritePage t old leftPage)).1⟩ ∧
      NodePage leftPage l ∧ leftPage.parentPgnum = (t old).parentPgnum ∧
      NodePage rightPage r ∧ rightPage.parentPgnum = (t old).parentPgnum := by
  have full : n.size = 248 := full
  have width : l.recs.length = 124 := width
  have number : (t old).numofkeys = 248 := node.numofkeys.trans full
  have records := node.records
  rw [number] at records
  -- the records with the new one, in the scratch array
  obtain ⟨s, around, -, all⟩ := (tempRecord InternalRecord maxInternalKey).copyAround_insert
    internalRecord (t old) (fun _ => default) (key, right) (n := 248) (show i ≤ 248 by omega)
    (by decide) (by decide)
  have joined : n.recs.insertIdx i (key, right) = l.recs ++ (m, r.left) :: r.recs :=
    congrArg Node.recs halves
  rw [records, joined] at all
  have rest : r.recs.length = 124 := by
    have := congrArg List.length joined
    rw [List.length_insertIdx, if_pos (show i ≤ n.recs.length from inside),
      show n.recs.length = 248 from full] at this
    simp only [List.length_append, List.length_cons] at this
    omega
  obtain ⟨temp, written, view⟩ : ∃ temp,
      (tempRecord InternalRecord maxInternalKey).write s i (key, right) = .ok temp ∧
      (tempRecord InternalRecord maxInternalKey).view temp 249 = l.recs ++ (m, r.left) :: r.recs :=
    ⟨_, Slots.write_ok _ (show i < 249 by omega), all⟩
  -- its two halves, copied out
  obtain ⟨oldPage, copyOld, oldHeader, oldRecords⟩ := internalRecord.copyUp_fill
    (tempRecord InternalRecord maxInternalKey) temp { t old with numofkeys := 0 } 0
    (maxInternalKey / 2) (by decide) (by decide)
  obtain ⟨newPage, copyNew, newHeader, newRecords⟩ := internalRecord.copyUp_fill
    (tempRecord InternalRecord maxInternalKey) temp (makeInternalPage junk) (maxInternalKey / 2 + 1)
    (maxInternalKey + 1 - (maxInternalKey / 2 + 1)) (by decide) (by decide)
  have oldHeader : oldPage.toHeader = { (t old).toHeader with numofkeys := 0 } := oldHeader
  have newHeader : newPage.toHeader = (makeInternalPage junk).toHeader := newHeader
  have oldRecords : internalRecord.view oldPage 124 = l.recs := by
    have taken : (l.recs ++ (m, r.left) :: r.recs).take (maxInternalKey / 2) = l.recs :=
      List.take_left' width
    rw [← taken, ← view,
      Slots.view_take _ _ (by omega)]
    exact oldRecords
  have newRecords : internalRecord.view newPage 124 = r.recs := by
    have dropped := congrArg (List.drop 125) view
    rw [show (125 : Nat) = l.recs.length + 1 by omega, List.drop_append] at dropped
    simp only [Nat.add_sub_cancel_left, List.drop_succ_cons, List.drop_zero,
      List.drop_eq_nil_of_le (Nat.le_succ _), List.nil_append] at dropped
    rw [← dropped, width]
    exact newRecords
  have middle : (tempRecord InternalRecord maxInternalKey).read temp (maxInternalKey / 2) =
      .ok (m, r.left) := by
    have there : ((tempRecord InternalRecord maxInternalKey).view temp 249)[124]? =
        some (m, r.left) := by
      rw [view, List.getElem?_append_right (by omega), width]
      rfl
    obtain ⟨_, same⟩ := List.getElem?_eq_some_iff.mp there
    rw [Slots.view_getElem] at same
    rw [Slots.read_ok _ (by decide)]
    exact congrArg Except.ok same
  have oldNumber := congrArg Header.numofkeys oldHeader
  have oldNext := congrArg Header.nextPgnum oldHeader
  have oldParent := congrArg Header.parentPgnum oldHeader
  have newNumber := congrArg Header.numofkeys newHeader
  have left := congrArg Node.left halves
  refine ⟨{ oldPage with numofkeys := 124 },
    { newPage with numofkeys := 124, nextPgnum := r.left, parentPgnum := (t old).parentPgnum },
    ?_, ⟨?_, ?_, ?_⟩, oldParent, ⟨congrArg Header.isLeaf newHeader, ?_, ?_⟩, rfl⟩
  · simp only [splitNode, fileReadPage]
    rw [number, around, Exec.ok_bind, written, Exec.ok_bind, copyOld, Exec.ok_bind, middle,
      Exec.ok_bind, copyNew, Exec.ok_bind, oldNumber, oldParent, newNumber,
      reparent_spec _ _ 0 _ _ (Nat.le_add_right 124 124), Exec.ok_bind, adoptAll_append, ← newRecords]
    rfl
  · exact (congrArg Header.isLeaf oldHeader).trans node.tag
  · exact congrArg₂ Node.mk (oldNext.trans (node.left.trans left)) oldRecords
  · show l.recs.length ≤ 248
    omega
  · exact congrArg₂ Node.mk rfl newRecords
  · show r.recs.length ≤ 248
    omega

/-- **A full internal page splits around record 124 of its 249**, and the children
after it get the new page as their parent.  The separator goes up as an `int`. -/
theorem splitNode_spec {t : Table} {a : Alloc} {live : List Pgnum} (heap : Heap t a live)
    {old : Pgnum} (used : old ∈ live) {n : Node Key Pgnum} (node : NodePage (t old) n)
    (full : n.size = maxInternalKey) {i : Nat} (inside : i ≤ n.size) (junk : Page) (key : Key)
    (right : Pgnum) {l r : Node Key Pgnum} {m : Key}
    (halves : n.insertAt i key right = Node.join l m r) (width : l.size = maxInternalKey / 2)
    (children : ∀ c ∈ (n.insertAt i key right).children, c ∈ live ∧ c ≠ old) :
    ∃ u, splitNode junk t old i key right =
        .ok ⟨u, (t old).parentPgnum, m.toInt32, (Heap.take a).1⟩ ∧
      NodePage (u old) l ∧ (u old).parentPgnum = (t old).parentPgnum ∧
      NodePage (u (Heap.take a).1) r ∧ (u (Heap.take a).1).parentPgnum = (t old).parentPgnum ∧
      (∀ p ∈ live, p ≠ old → u p =
        if p ∈ r.children then { t p with parentPgnum := (Heap.take a).1 } else t p) ∧
      Heap u (Heap.take a).2 ((Heap.take a).1 :: live) ∧ getRootpgnum u = getRootpgnum t := by
  obtain ⟨leftPage, rightPage, run, oldNode, oldParent, newNode, newParent⟩ :=
    splitNode_run node full inside junk key right halves width
  have wrote := heap.write used leftPage
  obtain ⟨page, after, kept, root⟩ := wrote.alloc
  obtain ⟨nonzero, fresh⟩ := heap.accounts.take_fresh freepageGrowRate (by decide)
  rw [page] at run
  obtain ⟨new, hnew⟩ : ∃ new, new = (Heap.take a).1 := ⟨_, rfl⟩
  rw [← hnew] at run after fresh nonzero ⊢
  have moved : ∀ c, c ∈ r.recs.map Prod.snd ++ [r.left] ↔ c ∈ r.children := fun c => by
    simp [Node.children, or_comm]
  have inUse : ∀ c ∈ r.children, c ∈ live ∧ c ≠ old := fun c member =>
    children c (by rw [halves, Node.children_join]; exact List.mem_append_right _ member)
  have live : ∀ c ∈ r.recs.map Prod.snd ++ [r.left], c ∈ new :: live := fun c member =>
    List.mem_cons_of_mem _ (inUse c ((moved c).mp member)).1
  have adopted := after.adopted live new
  obtain ⟨u, hu⟩ : ∃ u, u = fileWritePage (adoptAll (fileAllocPage (fileWritePage t old leftPage)).2
    (r.recs.map Prod.snd ++ [r.left]) new) new rightPage := ⟨_, rfl⟩
  have other : old ≠ new := fun same => fresh (same ▸ used)
  have atOld : u old = leftPage := by
    have stays : old ∉ r.recs.map Prod.snd ++ [r.left] := fun member =>
      (inUse old ((moved old).mp member)).2 rfl
    have written : fileWritePage t old leftPage old = leftPage := by simp [fileWritePage]
    rw [hu, fileWritePage, Function.update_of_ne other, adoptAll_other _ _ stays, kept old used,
      written]
  have atNew : u new = rightPage := by simp [hu, fileWritePage]
  refine ⟨u, hu ▸ run, ?_, ?_, ?_, ?_, fun p member ne => ?_, ?_, ?_⟩
  · rwa [atOld]
  · rwa [atOld]
  · rwa [atNew]
  · rwa [atNew]
  · have ne' : p ≠ new := fun same => fresh (same ▸ member)
    have written : fileWritePage t old leftPage p = t p := by simp [fileWritePage, ne]
    rw [hu, fileWritePage, Function.update_of_ne ne', adoptAll_apply, kept p member, written]
    simp only [moved]
  · rw [hu]
    exact adopted.1.write List.mem_cons_self rightPage
  · rw [hu, (SameHeader.write rightPage nonzero).rootpgnum, adopted.2, root,
      (SameHeader.write leftPage (heap.live_nonzero used)).rootpgnum]

/-! ## What a split conserves -/

/-- The call of `insert_into_parent` hands on the node `n`, in two pages and the
separator between them, and only children that moved have a new parent. -/
def Conserves (t : Table) (live : List Pgnum) (old : Pgnum) (n : Node Key Pgnum) (s : Split) :
    Prop :=
  ∃ l r, NodePage (s.table old) l ∧ NodePage (s.table s.newPgnum) r ∧
    n.interleaved = l.interleaved ++ .inr s.sep.toInt64 :: r.interleaved ∧
    l.size + r.size = maxInternalKey ∧
    ∀ p ∈ live, p ≠ old →
      s.table p = if p ∈ r.children then { t p with parentPgnum := s.newPgnum } else t p

/-- A full internal page and a record to go into it, after the child `left`. -/
structure Overfull (t : Table) (live : List Pgnum) (old : Pgnum) (pre : List (Pgnum × Key))
    (left : Pgnum) (post : List InternalRecord) (right : Pgnum) : Prop where
  used : old ∈ live
  node : NodePage (t old) (Node.plug pre left post)
  full : (Node.plug pre left post).size = maxInternalKey
  distinct : (Node.plug pre left post).children.Nodup
  parents : ∀ c ∈ (Node.plug pre left post).children,
    c ∈ live ∧ c ≠ old ∧ (t c).parentPgnum = old
  right_used : right ∈ live
  right_new : right ≠ old ∧ right ∉ (Node.plug pre left post).children

/-- A split conserves the node exactly if the separator it posts fits the `int`. -/
theorem Overfull.conserves_iff {t : Table} {a : Alloc} {live : List Pgnum} (heap : Heap t a live)
    {old left right : Pgnum} {pre : List (Pgnum × Key)} {post : List InternalRecord}
    (excess : Overfull t live old pre left post right) (junk : Page) (key : Key) :
    (∃ i s, getRightIndex (t old) left = .ok i ∧ splitNode junk t old i key right = .ok s ∧
        Conserves t live old (Node.plug pre left ((key, right) :: post)) s) ↔
      ∀ m ∈ (Node.plug pre left ((key, right) :: post)).seps[124]?, m.toInt32.toInt64 = m := by
  have inserted := Node.insertAt_plug pre left post key right
  have full : (Node.plug pre left post).size = 248 := excess.full
  have width : (Node.plug pre left ((key, right) :: post)).size = 249 := by
    rw [Node.size_plug] at full ⊢
    simp only [List.length_cons]
    omega
  obtain ⟨l, m, r, halves, half, -⟩ := Node.exists_join
    (n := Node.plug pre left ((key, right) :: post)) (i := 124) (by omega)
  have rest : r.size = 124 := by
    rw [halves, Node.size_join] at width
    omega
  have children : ∀ c ∈ (Node.plug pre left ((key, right) :: post)).children,
      c ∈ live ∧ c ≠ old := by
    intro c member
    rw [Node.children_plug] at member
    have existing := excess.parents c
    rw [Node.children_plug] at existing
    by_cases new : c = right
    · exact new ▸ ⟨excess.right_used, excess.right_new.1⟩
    · have : c ∈ List.map Prod.fst pre ++ left :: List.map Prod.snd post := by
        simp only [List.map_cons, List.mem_append, List.mem_cons] at member ⊢
        tauto
      exact ⟨(existing this).1, (existing this).2.1⟩
  have inside : pre.length ≤ (Node.plug pre left post).size := by
    rw [Node.size_plug]
    omega
  obtain ⟨u, run, oldNode, -, newNode, -, moved, -, -⟩ := splitNode_spec heap excess.used excess.node
    excess.full inside junk key right (inserted.trans halves) half (inserted ▸ children)
  have index := getRightIndex_eq excess.node excess.distinct
  have middle : (Node.plug pre left ((key, right) :: post)).seps[124]? = some m := by
    have half : l.seps.length = 124 := by rw [Node.seps_length, half]
    rw [halves, Node.seps_join, List.getElem?_append_right (by omega), half]
    rfl
  rw [middle]
  constructor
  · rintro ⟨i, s, found, ran, l', r', oldNode', newNode', same, -⟩ k hk
    rw [Option.mem_some_iff] at hk
    subst hk
    cases index.symm.trans found
    cases run.symm.trans ran
    -- the pages hold one node each, so only the separator can differ
    rw [halves, Node.interleaved_join, ← oldNode'.node.symm.trans oldNode.node,
      ← newNode'.node.symm.trans newNode.node] at same
    have := (List.append_cancel_left same)
    simp only [List.cons.injEq, Sum.inr.injEq] at this
    exact this.1.symm
  · intro fits
    refine ⟨_, _, index, run, l, r, oldNode, newNode, ?_, ?_, moved⟩
    · rw [fits m (Option.mem_some_iff.mpr rfl), halves, Node.interleaved_join]
    · show _ = 248
      omega

/-- **Splitting an internal page conserves it exactly if the separator that goes up
is one an `int` holds**: the 125th of the 249 in order. -/
theorem splitNode_conserves_iff {t : Table} {a : Alloc} {live : List Pgnum} (heap : Heap t a live)
    {old left right : Pgnum} {pre : List (Pgnum × Key)} {post : List InternalRecord}
    (excess : Overfull t live old pre left post right) (junk : Page) (key : Key) :
    (∃ i s, getRightIndex (t old) left = .ok i ∧ splitNode junk t old i key right = .ok s ∧
        Conserves t live old (Node.plug pre left ((key, right) :: post)) s) ↔
      ∀ m ∈ (Node.plug pre left ((key, right) :: post)).seps[124]?, m.toInt32.toInt64 = m :=
  excess.conserves_iff heap junk key

/-! ## A full page -/

section FullPage

variable (base : Key)

/-- Page 1 is full: the leftmost child 2, then the separators `base`, `base + 1`,
..., and the children 3 to 250.  Page 251 is in use too, and page 252 is free. -/
def fullTable : Table := fun p =>
  if p = 0 then { (default : Page) with parentPgnum := 252, numofpages := 253 }
  else if p = 1 then { (default : Page) with
    isLeaf := 0, numofkeys := 248, nextPgnum := 2
    slotKey := fun i => base + Int64.ofNat i
    slotChild := fun i => i + 3 }
  else if p = 252 then { (default : Page) with parentPgnum := 0 }
  else { (default : Page) with parentPgnum := 1 }

/-- The records of page 1. -/
def fullRecords : List InternalRecord :=
  (List.range 248).map fun i => (base + Int64.ofNat i, i + 3)

theorem fullTable_heap : Heap (fullTable base) ⟨[252], 253⟩ (List.range' 1 251) where
  chain := Chain.cons (show (252 : Nat) ≠ 0 by decide) Chain.nil
  num := rfl
  accounts := ⟨by decide, List.Perm.of_eq (List.range'_1_concat (s := 1) (n := 251)).symm⟩

theorem fullTable_overfull :
    Overfull (fullTable base) (List.range' 1 251) 1 [] 2 (fullRecords base) 251 := by
  have children : (Node.plug [] 2 (fullRecords base)).children = List.range' 2 249 := by
    simp only [Node.plug_nil, Node.children_mk, fullRecords, List.map_map]
    rw [List.range'_succ, List.range'_eq_map_range]
    simp [Function.comp_def, Nat.add_comm]
  refine ⟨by simp, ⟨rfl, rfl, by simp [Node.size, fullRecords]⟩, by simp [Node.size, fullRecords],
    ?_, ?_, by simp, by decide, ?_⟩
  · rw [children]
    exact List.nodup_range'
  · rw [children]
    intro (c : Nat) member
    rw [List.mem_range'_1] at member
    refine ⟨List.mem_range'_1.mpr (by omega), (by omega : (c : Nat) ≠ 1), ?_⟩
    simp [fullTable, show c ≠ 0 by omega, show c ≠ 1 by omega, show c ≠ 252 by omega]
  · rw [children, List.mem_range'_1]
    omega

/-- The middle separator, once 0 has been inserted before all others. -/
theorem fullRecords_middle :
    (Node.plug [] 2 ((0, 251) :: fullRecords base)).seps[124]? = some (base + 123) := by
  simp only [Node.plug_nil, Node.seps_mk, fullRecords, List.map_cons, List.map_map,
    List.getElem?_cons_succ, List.getElem?_map]
  rw [List.getElem?_range (by decide)]
  rfl

end FullPage

/-- Small keys survive the `int`, and the split conserves the page. -/
theorem splitNode_conserves_small :
    ∃ i s, getRightIndex (fullTable 1 1) 2 = .ok i ∧ splitNode default (fullTable 1) 1 i 0 251 = .ok s ∧
      Conserves (fullTable 1) (List.range' 1 251) 1 (Node.plug [] 2 ((0, 251) :: fullRecords 1)) s := by
  refine (splitNode_conserves_iff (fullTable_heap 1) (fullTable_overfull 1) default 0).mpr ?_
  rw [fullRecords_middle]
  rintro _ ⟨⟩
  decide

/-- Keys from `2 ^ 32` on do not: the separator that goes up is another number. -/
theorem splitNode_large_not_conserved :
    ¬ ∃ i s, getRightIndex (fullTable 4294967296 1) 2 = .ok i ∧
      splitNode default (fullTable 4294967296) 1 i 0 251 = .ok s ∧
      Conserves (fullTable 4294967296) (List.range' 1 251) 1
        (Node.plug [] 2 ((0, 251) :: fullRecords 4294967296)) s := by
  rw [(fullTable_overfull 4294967296).conserves_iff (fullTable_heap 4294967296) default 0,
    fullRecords_middle]
  intro fits
  exact absurd (fits (4294967296 + 123) rfl) (by decide)

end SimpleDatabase.Kernel
