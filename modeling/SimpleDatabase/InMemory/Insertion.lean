/- InMemory.Insertion -- `insert` on a tree in memory

The cascade of splits goes up the path that the search came down: a page with room ends it, a
full one is cut in two and hands the new half to its parent (`insertIntoParent_spec`).  What it
does to memory is followed block by block; that the tree it leaves is what `Theory.Overflow`
says is an `Overflows`, from which `Stored.insert` takes the order, the fill and the items.
-/
import SimpleDatabase.InMemory.Stored
import SimpleDatabase.Theory.Overflow

namespace SimpleDatabase.InMemory

open SimpleDatabase.Theory SimpleDatabase.Bpt

set_option autoImplicit false

variable {order h : Nat} {m : Memory} {R : Multiset Cell} (heap : Malloc)

/-- A node of two children. -/
theorem innerNode_two (wide : 2 ≤ order) {n : Bpt.Node} (tag : n.isLeaf = false) (empty : n.numKeys = 0)
    (l r : Ptr) (k : Key) :
    InnerNode order
      { n with
        keys := Function.update n.keys 0 k
        pointers := Function.update (Function.update n.pointers 0 l) 1 r, numKeys := n.numKeys + 1, parent := null }
      ⟨l, [(k, r)]⟩ where
  tag := tag
  fits := by
    show 1 ≤ order - 1
    omega
  count := congrArg (· + 1) empty
  keys := by simp [Theory.Node.size, shown, List.range_succ]
  pointers := by simp [Theory.Node.size, Theory.Node.children, shown, List.range_succ]

theorem insertIntoNewRoot_spec (wide : 2 ≤ order) {l r : Tree h} {k : Key}
    (holds : Holds order m (cells null r.firstLeaf l + (cells null null r + R))) :
    ∃ pg m', insertIntoNewRoot order heap m l.pg k r.pg = .ok (pg, m') ∧
      Holds order m' (cells null null (PageTree.branch pg ⟨l, [(k, r)]⟩) + R) := by
  obtain ⟨there, holds⟩ := alloc_node heap holds (n := newNode heap m) rfl
  have node := innerNode_two wide (n := newNode heap m) rfl rfl l.pg r.pg k
  obtain ⟨m₁, set, holds⟩ := setNode_spec holds there (e := .inner null ⟨l.pg, [(k, r.pg)]⟩) ⟨node, rfl⟩
  obtain ⟨m₂, adopt, holds⟩ := setParent_spec (holds.rearrange (add_left_comm _ _ _)) (heap.place m)
  have holds : Holds order m₂ (cells null null r + (cells (heap.place m) r.firstLeaf l +
      ({(heap.place m, .inner null ⟨l.pg, [(k, r.pg)]⟩)} + R))) := holds.rearrange (by ac_rfl)
  obtain ⟨m₃, adopt', holds⟩ := setParent_spec holds (heap.place m)
  refine ⟨heap.place m, m₃, ?_, holds.rearrange ?_⟩
  · simp only [insertIntoNewRoot, makeNode]
    rw [there, Exec.ok_bind, write_array _ _ (by omega), Exec.ok_bind, write_array _ _ (by omega), Exec.ok_bind,
      write_array _ _ (by omega), Exec.ok_bind]
    rw [set, Exec.ok_bind, adopt, Exec.ok_bind, adopt', Exec.ok_bind]
    rfl
  · have root : cells null null (PageTree.branch (heap.place m) ⟨l, [(k, r)]⟩) =
        {(heap.place m, .inner null ⟨l.pg, [(k, r.pg)]⟩)} +
          (cells (heap.place m) r.firstLeaf l + (cells (heap.place m) null r + 0)) := rfl
    rw [root, add_zero]
    ac_rfl

/-! ## One round of the cascade -/

variable {p parent next right : Ptr} {nd : Theory.Node Key Ptr} {i : Nat} {k : Key}

/-- A node with room. -/
theorem insertIntoNode_spec (holds : Holds order m ({(p, .inner parent nd)} + R)) (inside : i ≤ nd.size)
    (room : nd.size < order - 1) (k : Key) (right : Ptr) :
    ∃ m', insertIntoNode order m p i k right = .ok m' ∧
      Holds order m' ({(p, .inner parent (nd.insertAt i k right))} + R) := by
  obtain ⟨n, there, inner, up⟩ := node_inner holds (front _ _)
  obtain ⟨n', run, inner', same⟩ := nodeWith_spec inner inside k right room
  obtain ⟨m', set, holds⟩ := setNode_spec holds there (e := .inner parent (nd.insertAt i k right))
    ⟨inner', same.trans up⟩
  refine ⟨m', ?_, holds⟩
  rw [insertIntoNode, there, Exec.ok_bind, run, Exec.ok_bind, set]

/-- A full node: it is cut in two before the round goes on with its parent. -/
theorem insertIntoNodeAfterSplitting_step (wide : 2 ≤ order) {whole : Theory.Node Key (Tree h)}
    (holds : Holds order m ({(p, .inner parent nd)} + (chain (cells p) next whole.children + R)))
    (inside : i ≤ nd.size) (full : nd.size = order - 1) (inserted : nd.insertAt i k right = whole.map Paged.pg) :
    ∃ l k' r q m', whole = Theory.Node.join l k' r ∧ l.size = cut order - 1 ∧
      (∀ fuel root, insertIntoNodeAfterSplitting order heap (fuel + 1) m root p i k right =
        insertIntoParent order heap fuel m' root p k' q) ∧
      Holds order m' (cells parent r.left.firstLeaf (PageTree.branch p l) +
        (cells parent next (PageTree.branch q r) + R)) := by
  have size : whole.size = order := by
    rw [← Theory.Node.size_map Paged.pg, ← inserted, size_insertAt nd inside, full]
    omega
  have le := cut_le order
  obtain ⟨l, k', r, joined, half, -⟩ := Theory.Node.exists_join (n := whole) (i := cut order - 1) (by omega)
  obtain ⟨n, there, inner, up⟩ := node_inner holds (front _ _)
  have tag : (newNode heap m).isLeaf = false := rfl
  obtain ⟨halves, run, old, new, key, oldUp, newUp⟩ :=
    nodeHalves_spec inner full wide (heap.keys m) (heap.pointers m) tag rfl inside
      (l := l.map Paged.pg) (r := r.map Paged.pg)
      (by rw [inserted, joined, Theory.Node.map_join]) (by rw [Theory.Node.size_map, half])
  obtain ⟨thereNew, holds⟩ := alloc_node heap holds (n := newNode heap m) rfl
  rw [joined, Theory.Node.children_join, chain_append] at holds
  -- the two halves are written, ...
  have holds := holds.rearrange (add_left_comm _ _ _)
  obtain ⟨n₀, there₀, -⟩ := node_inner holds (front _ _)
  obtain ⟨m₁, set, holds⟩ := setNode_spec holds there₀ (e := .inner parent (l.map Paged.pg))
    ⟨old, oldUp.trans up⟩
  have holds := holds.rearrange (add_left_comm _ _ _)
  obtain ⟨n₁, there₁, -⟩ := node_loose holds (front _ _)
  obtain ⟨m₂, set', holds⟩ := setNode_spec holds there₁ (e := .inner parent (r.map Paged.pg))
    ⟨new, newUp.trans up⟩
  -- ... and the new one's children get it as their parent
  obtain ⟨A, before⟩ : ∃ A, A = chain (cells p) ((r.children.map PageTree.firstLeaf).headD next) l.children :=
    ⟨_, rfl⟩
  obtain ⟨P, oldCell⟩ : ∃ P, P = ({(p, .inner parent (l.map Paged.pg))} : Multiset Cell) := ⟨_, rfl⟩
  obtain ⟨Q, newCell⟩ : ∃ Q, Q = ({(heap.place m, .inner parent (r.map Paged.pg))} : Multiset Cell) := ⟨_, rfl⟩
  rw [← before, ← oldCell, ← newCell] at holds
  have holds : Holds order m₂ (chain (cells p) next r.children + (Q + (P + (A + R)))) :=
    holds.rearrange (by ac_rfl)
  obtain ⟨m₃, adopt, holds⟩ := adoptAll_spec new (by omega) (q := heap.place m) holds
  refine ⟨l, k', r, heap.place m, m₃, joined, half, fun fuel root => ?_, ?_⟩
  · simp only [insertIntoNodeAfterSplitting, makeNode]
    rw [there, Exec.ok_bind, thereNew, Exec.ok_bind, run, Exec.ok_bind, set, Exec.ok_bind, set', Exec.ok_bind,
      adopt, Exec.ok_bind, key]
  · apply holds.rearrange
    rw [cells_branch, cells_branch, oldCell, newCell, before]
    have next_ : (r.children.map PageTree.firstLeaf).headD next = r.left.firstLeaf := rfl
    rw [next_]
    ac_rfl

/-! ## The cascade -/

/-- The node above two pages in the place of one, and what the call looks at there. -/
theorem insertIntoParent_opens (order_pos : 1 ≤ order) {pre : List (Tree h × Key)} {l r : Tree h}
    {post : List (Key × Tree h)} {up : Hole (h + 1)} (k : Key)
    (holds : Holds order m (frame (.under p pre post up) l.pg l.firstLeaf +
      (cells p r.firstLeaf l + (cells p (Path.under p pre post up).next r + R)))) :
    ∃ nd : Theory.Node Key Ptr,
      nd.insertAt (pagesBefore pre).length k r.pg = (Theory.Node.plug pre l ((k, r) :: post)).map Paged.pg ∧
      (pagesBefore pre).length ≤ nd.size ∧ nd.size ≤ order - 1 ∧
      Holds order m ({(p, .inner up.parent nd)} +
        (chain (cells p) up.next (Theory.Node.plug pre l ((k, r) :: post)).children +
          (frame up p ((pre.map fun e => e.1.firstLeaf).headD l.firstLeaf) + R))) ∧
      ∀ fuel root, insertIntoParent order heap (fuel + 1) m root l.pg k r.pg =
        if nd.size < order - 1 then do
          let m ← insertIntoNode order m p (pagesBefore pre).length k r.pg
          return (root, m)
        else insertIntoNodeAfterSplitting order heap fuel m root p (pagesBefore pre).length k r.pg := by
  obtain ⟨nd, node⟩ : ∃ nd, nd = Theory.Node.plug (pagesBefore pre) l.pg (pagesAfter post) := ⟨_, rfl⟩
  have holds : Holds order m ({(p, .inner up.parent nd)} +
      (chain (cells p) up.next (Theory.Node.plug pre l ((k, r) :: post)).children +
        (frame up p ((pre.map fun e => e.1.firstLeaf).headD l.firstLeaf) + R))) := by
    apply holds.rearrange
    rw [frame, chain_two, node, Path.next]
    ac_rfl
  have distinct : nd.children.Nodup := by
    have all := pages_nodup holds ((Multiset.le_add_right _ _).trans (Multiset.le_add_left _ _))
    rw [node]
    refine List.Nodup.sublist ?_ all
    simp only [Theory.Node.children_plug, pagesBefore, pagesAfter, List.map_append, List.map_map, List.map_cons]
    exact List.Sublist.append_left ((List.sublist_cons_self _ _).cons_cons _) _
  obtain ⟨x, there, -, above⟩ : ∃ x, m.node l.pg = .ok x ∧ Fits order (.node x) (rootDesc p r.firstLeaf l) ∧
      x.parent = p := by
    apply node_root holds
    rw [chain_two]
    simp [cells]
  obtain ⟨n, there', inner, -⟩ := node_inner holds (front _ _)
  have left : getLeftIndex order n l.pg = .ok (pagesBefore pre).length := by
    rw [getLeftIndex_eq inner order_pos, node]
    exact congrArg Except.ok (Theory.Node.children_findIdx_plug (node ▸ distinct))
  refine ⟨nd, ?_, ?_, inner.fits, holds, fun fuel root => ?_⟩
  · rw [node, Theory.Node.insertAt_plug, map_plug]
    rfl
  · rw [node, Theory.Node.size_plug]
    omega
  · rw [insertIntoParent, there, Exec.ok_bind, above, if_neg (ne_null holds (front _ _)), there', Exec.ok_bind, left,
      Exec.ok_bind, inner.count]

/-- **Two pages in the place of one.**  By induction on the path up; in each round the two
pages are already in memory, with the parent of the one. -/
theorem insertIntoParent_spec (wide : 3 ≤ order) (path : Hole h) {l r : Tree h}
    (holds : Holds order m (frame path l.pg l.firstLeaf +
      (cells path.parent r.firstLeaf l + (cells path.parent path.next r + R)))) :
    ∃ T m', Returns (fun fuel => insertIntoParent order heap fuel m (path.rootPage l.pg) l.pg k r.pg) (T.2.pg, m') ∧
      Holds order m' (cells null null T.2 + R) ∧ Posts (limits order wide) path l k r T := by
  induction path generalizing m k with
  | top =>
      have holds : Holds order m (cells null r.firstLeaf l + (cells null null r + R)) :=
        holds.rearrange (Multiset.zero_add _)
      obtain ⟨n, there, -, orphan⟩ := node_root holds (Multiset.mem_of_le (Multiset.le_add_right _ _) (root_mem l))
      obtain ⟨pg, m', run, holds⟩ := insertIntoNewRoot_spec heap (by omega) (k := k) holds
      refine ⟨⟨_, PageTree.branch pg ⟨l, [(k, r)]⟩⟩, m', Returns.of_le 1 fun fuel => ?_, holds, pg, rfl⟩
      rw [insertIntoParent, there, Exec.ok_bind, if_pos orphan, run]
      rfl
  | @under h p pre post up ih =>
      obtain ⟨nd, inserted, index, fits, holds, opened⟩ := insertIntoParent_opens heap (by omega) k holds
      have size := congrArg Theory.Node.size inserted
      rw [size_insertAt nd index, Theory.Node.size_map] at size
      by_cases room : nd.size < order - 1
      · obtain ⟨m', run, holds⟩ := insertIntoNode_spec holds index room k r.pg
        refine ⟨up.plug (PageTree.branch p (Theory.Node.plug pre l ((k, r) :: post))), m',
          Returns.of_le 1 fun fuel => ?_, ?_, .fits up ?_⟩
        · rw [opened, if_pos room, run, Exec.ok_bind, Path.plug_pg]
          rfl
        · apply holds.rearrange
          rw [cells_plug, cells_branch, inserted, firstLeaf_plug]
          ac_rfl
        · show (Theory.Node.plug pre l ((k, r) :: post)).size ≤ order - 1
          omega
      · obtain ⟨l', k', r', q, m₁, joined, half, step, holds⟩ :=
          insertIntoNodeAfterSplitting_step heap (by omega) holds index (by omega) inserted
        have first : (PageTree.branch p l').firstLeaf = (pre.map fun e => e.1.firstLeaf).headD l.firstLeaf := by
          rw [← firstLeaf_plug (p := p) pre l ((k, r) :: post), joined]
          rfl
        have holds : Holds order m₁ (frame up p (PageTree.branch p l').firstLeaf +
            (cells up.parent r'.left.firstLeaf (PageTree.branch p l') +
              (cells up.parent up.next (PageTree.branch q r') + R))) := by
          apply holds.rearrange
          rw [first]
          ac_rfl
        obtain ⟨T, m', ⟨enough, run⟩, holds, posts⟩ :=
          ih (k := k') (l := PageTree.branch p l') (r := PageTree.branch q r') holds
        refine ⟨T, m', ⟨enough + 2, fun fuel le => ?_⟩, holds,
          Overflows.of_posts ?_ ⟨?_, ?_, fun zero => absurd zero (Nat.succ_ne_zero _)⟩ posts⟩
        · obtain ⟨fuel, rfl⟩ := Nat.exists_eq_add_of_le' le
          exact (opened _ _).trans ((if_neg room).trans ((step _ _).trans (run _ (Nat.le_add_left _ _))))
        · show order - 1 < (Theory.Node.plug pre l ((k, r) :: post)).size
          omega
        · exact congrArg (PageTree.branch p) joined
        · show l'.size = if h + 1 = 0 then cut (order - 1) else cut order - 1
          rw [if_neg (Nat.succ_ne_zero h), half]

/-! ## Leaves -/

variable {recs : List Entry} {key : Key} {pointer : Ptr} {value : Int32}

theorem insertIntoLeaf_spec (holds : Holds order m ({(p, .leaf parent next recs)} + R))
    (room : recs.length < order - 1) (key : Key) (pointer : Ptr) :
    ∃ m', insertIntoLeaf order m p key pointer = .ok m' ∧
      Holds order m' ({(p, .leaf parent next (leafEntries recs key pointer))} + R) := by
  obtain ⟨n, there, leaf, up⟩ := node_leaf holds (front _ _)
  obtain ⟨n', run, leaf', same⟩ := leafWith_spec leaf key pointer room
  obtain ⟨m', set, holds⟩ := setNode_spec holds there (e := .leaf parent next (leafEntries recs key pointer))
    ⟨leaf', same.trans up⟩
  refine ⟨m', ?_, holds⟩
  rw [insertIntoLeaf, there, Exec.ok_bind, run, Exec.ok_bind, set]

/-- A full leaf: it is cut in two, and the new one is linked in behind it. -/
theorem insertIntoLeafAfterSplitting_step (wide : 2 ≤ order)
    (holds : Holds order m ({(p, .leaf parent next recs)} + R)) (full : recs.length = order - 1) (key : Key)
    (pointer : Ptr) :
    ∃ q k' m', k' ∈ ((leafEntries recs key pointer).drop (cut (order - 1))).head?.map Prod.fst ∧
      (∀ fuel root, insertIntoLeafAfterSplitting order heap fuel m root p key pointer =
        insertIntoParent order heap fuel m' root p k' q) ∧
      Holds order m' ({(p, .leaf parent q ((leafEntries recs key pointer).take (cut (order - 1))))} +
        ({(q, .leaf parent next ((leafEntries recs key pointer).drop (cut (order - 1))))} + R)) := by
  obtain ⟨thereNew, holds⟩ := alloc_node heap holds (n := { newNode heap m with isLeaf := true }) rfl
  have holds := holds.rearrange (add_left_comm _ _ _)
  obtain ⟨n, there, leaf, up⟩ := node_leaf holds (front _ _)
  have tag : ({ newNode heap m with isLeaf := true } : Bpt.Node).isLeaf = true := rfl
  obtain ⟨halves, run, old, new, key', oldUp, newUp⟩ :=
    leafHalves_spec leaf full wide (heap.keys (makeLeaf heap m).2) (heap.pointers (makeLeaf heap m).2)
      tag rfl (heap.place m) key pointer
  obtain ⟨m₁, set, holds⟩ := setNode_spec holds there
    (e := .leaf parent (heap.place m) ((leafEntries recs key pointer).take (cut (order - 1)))) ⟨old, oldUp.trans up⟩
  have holds := holds.rearrange (add_left_comm _ _ _)
  obtain ⟨n₁, there₁, -⟩ := node_loose holds (front _ _)
  obtain ⟨m₂, set', holds⟩ := setNode_spec holds there₁
    (e := .leaf parent next ((leafEntries recs key pointer).drop (cut (order - 1)))) ⟨new, newUp.trans up⟩
  refine ⟨heap.place m, halves.key, m₂, key', fun fuel root => ?_, holds.rearrange (add_left_comm _ _ _)⟩
  simp only [insertIntoLeafAfterSplitting, makeLeaf] at run ⊢
  rw [there, Exec.ok_bind, thereNew, Exec.ok_bind, run, Exec.ok_bind, set, Exec.ok_bind, set', Exec.ok_bind]

/-- The new item's entry. -/
theorem entries_insertRecord (s : Tree 0) (key : Key) (pointer : Ptr) (value : Int32) :
    (PageTree.insertRecord key (pointer, value) s).recs.map entry = leafEntries (s.recs.map entry) key pointer := by
  rw [PageTree.insertRecord, PageTree.recs_leaf, leafEntries, List.map_insertIdx, List.findIdx_map]
  rfl

/-- The new item's record. -/
theorem recordCells_insertRecord (s : Tree 0) :
    recordCells (PageTree.insertRecord key (pointer, value) s).recs =
      {(pointer, .record value)} + recordCells s.recs := by
  have perm : (PageTree.insertRecord key (pointer, value) s).recs.Perm ((key, pointer, value) :: s.recs) :=
    List.perm_insertIdx _ _ List.findIdx_le_length
  exact Multiset.coe_eq_coe.mpr (perm.map _)

/-! ## Insertion -/

/-- The leaf the search ends in, with or without room. -/
theorem insertIntoTree_spec (wide : 3 ≤ order) (path : Hole 0) (s : Tree 0) (key : Key)
    (holds : Holds order m ({(pointer, .record value)} +
      (frame path s.pg s.firstLeaf + (cells path.parent path.next s + R)))) :
    ∃ n T m', m.node s.pg = .ok n ∧
      Overflows (limits order wide) path (PageTree.insertRecord key (pointer, value) s) T ∧
      Holds order m' (cells null null T.2 + R) ∧
      if n.numKeys < order - 1 then
        insertIntoLeaf order m s.pg key pointer = .ok m' ∧ T.2.pg = path.rootPage s.pg
      else
        Returns (fun fuel => insertIntoLeafAfterSplitting order heap fuel m (path.rootPage s.pg) s.pg key pointer)
          (T.2.pg, m') := by
  have holds : Holds order m ({(s.pg, .leaf path.parent path.next (s.recs.map entry))} +
      (recordCells (PageTree.insertRecord key (pointer, value) s).recs + (frame path s.pg s.firstLeaf + R))) := by
    apply holds.rearrange
    rw [recordCells_insertRecord, cells, rootDesc, below_zero]
    ac_rfl
  obtain ⟨n, there, leaf, -⟩ := node_leaf holds (front _ _)
  have fits := leaf.fits
  have count := leaf.count
  rw [List.length_map] at fits count
  by_cases room : n.numKeys < order - 1
  · obtain ⟨m', run, holds⟩ := insertIntoLeaf_spec holds (by rw [List.length_map]; omega) key pointer
    refine ⟨n, path.plug (PageTree.insertRecord key (pointer, value) s), m', there, .fits path ?_, ?_, ?_⟩
    · rw [PageTree.insertRecord_size]
      show s.recs.length + 1 ≤ order - 1
      omega
    · apply holds.rearrange
      rw [cells_plug, cells, rootDesc, below_zero, entries_insertRecord]
      simp only [PageTree.insertRecord, PageTree.pg_leaf, PageTree.firstLeaf]
      ac_rfl
    · rw [if_pos room]
      exact ⟨run, Path.plug_pg _ _⟩
  · have full : (s.recs.map entry).length = order - 1 := by
      rw [List.length_map]
      omega
    obtain ⟨c, half⟩ : ∃ c, c = cut (order - 1) := ⟨_, rfl⟩
    obtain ⟨recs, all⟩ : ∃ recs, recs = (PageTree.insertRecord key (pointer, value) s).recs := ⟨_, rfl⟩
    have length : recs.length = s.recs.length + 1 := by rw [all]; exact PageTree.insertRecord_size s
    obtain ⟨q, k', m₁, first, step, holds⟩ :=
      insertIntoLeafAfterSplitting_step heap (by omega) holds full key pointer
    rw [← entries_insertRecord s key pointer value, ← all, ← half, ← List.map_drop] at first
    rw [← entries_insertRecord s key pointer value, ← all, ← half, ← List.map_take, ← List.map_drop,
      ← List.take_append_drop c recs, recordCells_append, List.take_append_drop] at holds
    have holds : Holds order m₁ (frame path s.pg s.pg +
        (cells path.parent q (PageTree.leaf s.pg (recs.take c)) +
          (cells path.parent path.next (PageTree.leaf q (recs.drop c)) + R))) := by
      apply holds.rearrange
      simp only [cells, rootDesc, below_zero, PageTree.pg_leaf, PageTree.recs_leaf, PageTree.firstLeaf]
      ac_rfl
    obtain ⟨T, m', returns, holds, posts⟩ :=
      insertIntoParent_spec heap wide path (k := k') (l := PageTree.leaf s.pg (recs.take c))
        (r := PageTree.leaf q (recs.drop c)) holds
    refine ⟨n, T, m', there, Overflows.of_posts ?_ ⟨?_, ?_, fun _ => ?_⟩ posts, holds, ?_⟩
    · rw [PageTree.insertRecord_size]
      show order - 1 < s.recs.length + 1
      omega
    · show PageTree.insertRecord key (pointer, value) s = PageTree.leaf s.pg (recs.take c ++ recs.drop c)
      rw [List.take_append_drop, all]
      rfl
    · show (recs.take c).length = cut (order - 1)
      have := cut_le (order - 1)
      rw [List.length_take, length, ← half]
      omega
    · rw [PageTree.keys, PageTree.records_zero, PageTree.recs_leaf, List.head?_map]
      rw [List.head?_map, Option.map_map] at first
      exact first
    · rw [if_neg room]
      simp only [step]
      exact returns

theorem startNewTree_spec (wide : 2 ≤ order) (holds : Holds order m ({(pointer, .record value)} + R))
    (key : Key) :
    ∃ q m', startNewTree order heap m key pointer = .ok (q, m') ∧
      Holds order m' (cells null null (PageTree.leaf q [(key, pointer, value)]) + R) := by
  obtain ⟨there, holds⟩ := alloc_node heap holds (n := { newNode heap m with isLeaf := true }) rfl
  obtain ⟨n', new⟩ : ∃ n' : Bpt.Node, n' = { newNode heap m with
      isLeaf := true, keys := Function.update (heap.keys m) 0 key
      pointers := Function.update (Function.update (heap.pointers m) 0 pointer) (order - 1) null
      parent := null, numKeys := 0 + 1 } := ⟨_, rfl⟩
  have leaf : LeafNode order n' null [(key, pointer)] := by
    rw [new]
    refine ⟨rfl, ?_, rfl, ?_, ?_, Function.update_self _ _ _⟩
    · show 1 ≤ order - 1
      omega
    · simp [shown]
    · have other : (0 : Nat) ≠ order - 1 := by omega
      simp [shown, Function.update_of_ne other]
  obtain ⟨m', set, holds⟩ := setNode_spec holds there (x := n') (e := .leaf null null [(key, pointer)])
    ⟨leaf, by rw [new]⟩
  refine ⟨heap.place m, m', ?_, holds.rearrange ?_⟩
  · rw [new] at set
    simp only [startNewTree, makeLeaf]
    rw [there, Exec.ok_bind, write_array _ _ (by omega), Exec.ok_bind, write_array _ _ (by omega), Exec.ok_bind,
      write_array _ _ (by omega), Exec.ok_bind]
    simp only [newNode] at set ⊢
    rw [set]
    rfl
  · exact (add_assoc _ _ _).symm

variable {root : Ptr} {T : Whole}

/-- A new key and the empty tree. -/
theorem Stored.insert_first {wide : 3 ≤ order} (stored : Stored order wide m root none R) (key : Key) (value : Int32) :
    ∃ q m', Returns (fun fuel => Bpt.insert order heap fuel m root key value) (q, m') ∧
      Stored order wide m' q (some ⟨0, PageTree.leaf q [(key, heap.place m, value)]⟩) R := by
  obtain ⟨q, m', run, holds⟩ := startNewTree_spec heap (by omega)
    ((makeRecord_spec heap stored.holds value).rearrange (congrArg _ (zero_add R))) key
  have isNull := (stored.pointer_eq_null key).mpr List.not_mem_nil
  refine ⟨q, m', .of_forall fun fuel => ?_, rfl, holds, ?_⟩
  · show Bpt.insert order heap fuel m root key value = _
    rw [Bpt.insert, stored.find key (Nat.zero_le fuel), Exec.ok_bind, isNull, if_neg (not_not_intro rfl), stored.root]
    exact run
  · rintro t ⟨⟩
    exact PageTree.valid_single _ _ _ _

/-- A new key and a tree. -/
theorem Stored.insert_new {wide : 3 ≤ order} {s : Tree h} (stored : Stored order wide m root (some ⟨h, s⟩) R)
    {key : Key} (absent : key ∉ (Whole.items (some ⟨h, s⟩)).map Prod.fst) (value : Int32) :
    ∃ m' T, Returns (fun fuel => Bpt.insert order heap fuel m root key value) (T.2.pg, m') ∧
      Stored order wide m' T.2.pg (some T) R ∧
      T.2.records.Perm ((key, heap.place m, value) :: Whole.items (some ⟨h, s⟩)) := by
  have isNull := (stored.pointer_eq_null key).mpr absent
  have valid := stored.valid ⟨h, s⟩ rfl
  have holds := makeRecord_spec heap stored.holds value
  have inside : cells null null s ≤ {(heap.place m, Desc.record value)} + (Whole.blocks (some ⟨h, s⟩) + R) :=
    (Multiset.le_add_right _ R).trans (Multiset.le_add_left _ _)
  have leaf := fun fuel (enough : h < fuel) => findLeaf_spec holds inside (by omega) key enough
  have nonNull : root ≠ null := by
    rw [stored.root]
    exact ne_null holds (Multiset.mem_of_le inside (root_mem s))
  obtain ⟨n, T, m', there, overflows, holds, run⟩ :=
    insertIntoTree_spec heap wide (Path.walk key s .top).1 (s.leafFor key) key (R := R) (holds.rearrange (by
        rw [Whole.blocks, cells_walk key s, makeRecord]
        ac_rfl))
  rw [Path.walk_rootPage] at run
  obtain ⟨valid', perm⟩ := overflows.insert valid absent
  have opened : ∀ fuel, h < fuel → Bpt.insert order heap fuel m root key value =
      if n.numKeys < order - 1 then do
        let m ← insertIntoLeaf order (makeRecord heap m value).2 (s.leafFor key).pg key (heap.place m)
        return (s.pg, m)
      else insertIntoLeafAfterSplitting order heap fuel (makeRecord heap m value).2 s.pg (s.leafFor key).pg key
        (heap.place m) := by
    intro fuel enough
    rw [Bpt.insert, stored.find key enough, Exec.ok_bind, isNull, if_neg (not_not_intro rfl)]
    simp only [if_neg nonNull]
    rw [stored.root, Whole.root, leaf fuel enough, Exec.ok_bind, there, Exec.ok_bind]
    rfl
  refine ⟨m', T, ?_, ⟨rfl, holds, ?_⟩, perm⟩
  · by_cases room : n.numKeys < order - 1
    · rw [if_pos room] at run
      refine ⟨h + 1, fun fuel enough => (opened fuel enough).trans ?_⟩
      rw [if_pos room, run.1, run.2]
      rfl
    · rw [if_neg room] at run
      obtain ⟨enough, run⟩ := run
      refine ⟨max enough (h + 1), fun fuel le => (opened fuel ((le_max_right _ _).trans le)).trans ?_⟩
      rw [if_neg room]
      exact run fuel ((le_max_left _ _).trans le)
  · rintro t ⟨⟩
    exact valid'

/-- **`insert`**: a key that is there is left alone, a new one gets a record of its own; no other
record moves. -/
theorem Stored.insert {wide : 3 ≤ order} (stored : Stored order wide m root T R) (key : Key) (value : Int32) :
    ∃ root' m' T', Returns (fun fuel => Bpt.insert order heap fuel m root key value) (root', m') ∧
      Stored order wide m' root' T' R ∧
      if key ∈ T.items.map Prod.fst then root' = root ∧ m' = m ∧ T' = T
      else T'.items.Perm ((key, heap.place m, value) :: T.items) := by
  by_cases held : key ∈ T.items.map Prod.fst
  · simp only [if_pos held]
    have nonNull := mt (stored.pointer_eq_null key).mp (not_not_intro held)
    refine ⟨root, m, T, ⟨T.levels, fun fuel enough => ?_⟩, stored, rfl, rfl, rfl⟩
    show Bpt.insert order heap fuel m root key value = _
    rw [Bpt.insert, stored.find key enough, Exec.ok_bind, if_pos nonNull]
    rfl
  · simp only [if_neg held]
    cases T with
    | none =>
        obtain ⟨q, m', run, stored'⟩ := stored.insert_first heap key value
        exact ⟨q, m', _, run, stored', List.Perm.refl _⟩
    | some t =>
        obtain ⟨m', T, run, stored', perm⟩ := stored.insert_new heap held value
        exact ⟨_, m', some T, run, stored', perm⟩

end SimpleDatabase.InMemory
