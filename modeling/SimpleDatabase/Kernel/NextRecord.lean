/- Kernel.NextRecord -- where `get_next_record` goes

The descent ends in one leaf and the scan in one slot of it; what follows that slot
along the chain of leaves is what `get_next_record` returns (`getNextRecord_scan`).

A key of the tree is found in its own slot, and the next record is the next key.  The
scan is not bounded by `numofkeys`, so a key the tree does not hold is found too where
a slot behind the last record has kept it; else the scan runs out of the page.
-/
import SimpleDatabase.Kernel.LeastKey

namespace SimpleDatabase.Kernel

open SimpleDatabase.Theory SimpleDatabase.Theory.PageTree SimpleDatabase.Project5 Page

set_option autoImplicit false

/-- A search-ordered tree whose leaves are sorted and chained from left to right. -/
structure ChainedTree (t : Table) {h : Nat} (s : Tree h) : Prop where
  held : InTable t s
  ordered : SearchOrdered s
  keyed : Keyed s
  sorted : LeavesSorted s
  chain : Chain (nextOf t) s.firstLeaf s.leafPages

/-- The keys a cursor that stands at `key` has not passed: of those greater, the ones outside the
leaf a search for `key` ends in. -/
def beyond {h : Nat} (s : Tree h) (key : Key) : List Key :=
  s.keys.filter fun x => key < x ∧ x ∉ (s.leafFor key).keys

/-- The keys in the slots of the page a search for `key` ends in, in use or not. -/
def slotKeys (t : Table) {h : Nat} (s : Tree h) (key : Key) : List Key :=
  (leafRecord.view (t (s.leafFor key).pg) maxLeafKey).map Prod.fst

theorem mem_slotKeys {t : Table} {h : Nat} (s : Tree h) (key k : Key) :
    k ∈ slotKeys t s key ↔ ∃ i < 31, (leafRecord.get (t (s.leafFor key).pg) i).1 = k := by
  simp [slotKeys, Slots.view]

/-- The least key greater than `key`, or the marker if there is none. -/
def Successor (keys : List Key) (key next : Key) : Prop :=
  IsLeast {x | x ∈ keys ∧ key < x} next ∨ (∀ x ∈ keys, x ≤ key) ∧ next = maxKeyValue

/-- The records that `get_next_record` reads are in use: those the scan passes, up to `index` in the
page that the descent ends in, and the next one, there or at the start of the next page. -/
structure ReadsInUse (t : Table) (pgnum : Pgnum) (index : Nat) : Prop where
  leaf : (t pgnum).isLeaf = 1
  scan : index < (t pgnum).numofkeys
  next : (t pgnum).numofkeys ≤ index + 1 → (t pgnum).nextPgnum ≠ 0 →
    (t (t pgnum).nextPgnum).isLeaf = 1 ∧ 0 < (t (t pgnum).nextPgnum).numofkeys

/-- In increasing keys the successor comes next. -/
theorem successor_of_split {keys before after : List Key} {key : Key} (sorted : keys.Pairwise (· < ·))
    (split : keys = before ++ key :: after) : Successor keys key (after.headD maxKeyValue) := by
  subst split
  obtain ⟨-, later, apart⟩ := List.pairwise_append.mp sorted
  rw [List.pairwise_cons] at later
  have below : ∀ x ∈ before, x < key := fun x member => apart x member key List.mem_cons_self
  have only : ∀ x ∈ before ++ key :: after, key < x → x ∈ after := by
    intro x member above
    rcases List.mem_append.mp member with first | last
    · exact absurd (below x first) above.asymm
    · exact (List.mem_cons.mp last).resolve_left above.ne'
  cases after with
  | nil =>
      refine .inr ⟨fun x member => not_lt.mp fun above => ?_, rfl⟩
      exact List.not_mem_nil (only x member above)
  | cons y ys =>
      refine .inl ⟨⟨by simp, later.1 y List.mem_cons_self⟩, fun x inside => ?_⟩
      rcases List.mem_cons.mp (only x inside.1 inside.2) with rfl | rest
      · exact le_rfl
      · exact ((List.pairwise_cons.mp later.2).1 x rest).le

namespace ChainedTree

variable {t : Table} {h : Nat} {s : Tree h}

theorem within (chained : ChainedTree t s) : Within ⊥ ⊤ s :=
  (searchOrdered_iff chained.keyed.stocked).mp chained.ordered

theorem keys_sorted (chained : ChainedTree t s) : s.keys.Pairwise (· < ·) :=
  chained.within.keys_sorted chained.keyed.stocked chained.sorted

/-- The first key of a leaf page. -/
theorem first_key (chained : ChainedTree t s) {l : Tree 0} (member : l ∈ s.leaves) :
    (leafRecord.get (t l.pg) 0).1 = l.keys.headD maxKeyValue ∧ l.keys ≠ [] := by
  have stocked : Stocked l := fun l' same => by
    rw [List.mem_singleton.mp same]
    exact chained.keyed.stocked l member
  refine ⟨Shape.first_key (chained.held.shape.leaf member) stocked, ?_⟩
  obtain ⟨k, held⟩ := stocked.exists_key
  exact List.ne_nil_of_mem held

section Scan

variable {key : Key} {pre post : List (Tree 0)}

/-- The page after a leaf, 0 after the last. -/
theorem next_leaf (chained : ChainedTree t s) {l : Tree 0} (split : s.leaves = pre ++ l :: post) :
    (t l.pg).nextPgnum = (post.map Paged.pg).headD 0 := by
  have linked := chained.chain.linked
  rw [leafPages, split, List.map_append, Linked.append_iff] at linked
  exact linked.2.1

/-- Where the scan ends in a slot, the next record is what follows that slot. -/
theorem getNextRecord_scan (chained : ChainedTree t s) (split : s.leaves = pre ++ s.leafFor key :: post)
    {i : Nat} (scan : leafRecord.seek (t (s.leafFor key).pg) (fun r => r.1 = key) = .ok i) :
    Returns (fun fuel => getNextRecord fuel t key)
      (((s.leafFor key).keys.drop (i + 1) ++ post.flatMap keys).headD maxKeyValue) := by
  have leaf := chained.held.shape.leaf (s.leafFor_mem key)
  have next := chained.next_leaf split
  have count : (s.leafFor key).keys.length = (s.leafFor key).recs.length := by
    simp [keys, records_zero]
  refine (findLeafPage_eq chained.held chained.keyed key).bind (Returns.of_forall fun _ => ?_)
  simp only [fileReadPage, scan, Exec.ok_bind, leaf.numofkeys, next]
  by_cases last : i + 1 ≥ (s.leafFor key).recs.length
  · rw [if_pos last, List.drop_eq_nil_of_le (by omega), List.nil_append]
    cases post with
    | nil => rfl
    | cons l post =>
        have member : l ∈ s.leaves := by simp [split]
        obtain ⟨first, some_⟩ := chained.first_key member
        obtain ⟨x, xs, shape⟩ := List.exists_cons_of_ne_nil some_
        have nonnull : l.pg ≠ 0 := fun zero =>
          chained.chain.nonnull (zero ▸ List.mem_map_of_mem member)
        simp only [List.map_cons, List.headD_cons, if_neg nonnull]
        rw [Slots.read_ok _ (by simp), Exec.ok_bind, first, List.flatMap_cons, shape]
        rfl
  · have inside : i + 1 < (s.leafFor key).recs.length := by omega
    have fits := leaf.length_le
    rw [if_neg last, Slots.read_ok _ (by simp only [leafRecord_cap]; omega), Exec.ok_bind,
      leaf.get inside, List.drop_eq_getElem_cons (by omega)]
    simp [keys, records_zero]

/-- Where the scan runs out of the page, so does `get_next_record`. -/
theorem getNextRecord_lost (chained : ChainedTree t s)
    (scan : leafRecord.seek (t (s.leafFor key).pg) (fun r => r.1 = key) = .error .outOfBounds) :
    Stuck fun fuel => getNextRecord fuel t key := by
  refine Stuck.after (findLeafPage_eq chained.held chained.keyed key)
    (Stuck.of_forall (e := .outOfBounds) fun _ => ?_)
  simp only [fileReadPage, scan, Exec.error_bind]

end Scan

/-- The scan for a key of the tree stops at its own slot in its own leaf. -/
theorem scan_held (chained : ChainedTree t s) {key : Key} (held : key ∈ s.keys) :
    ∃ i, leafRecord.seek (t (s.leafFor key).pg) (fun r => r.1 = key) = .ok i ∧
      i < (s.leafFor key).recs.length ∧
      (s.leafFor key).keys = (s.leafFor key).keys.take i ++ key :: (s.leafFor key).keys.drop (i + 1) := by
  obtain ⟨l, member, inside⟩ : ∃ l ∈ s.leaves, key ∈ l.keys := by
    rwa [keys_eq_flatMap, List.mem_flatMap] at held
  rw [leafFor_of_held chained.ordered chained.keyed member inside]
  have leaf := chained.held.shape.leaf member
  obtain ⟨v, record⟩ := (mem_keys_iff l key).mp inside
  rw [records_zero] at record
  obtain ⟨scan, low⟩ := leafRecord.seek_eq (t l.pg) (fun r => r.1 = key) (t l.pg).numofkeys
    (leaf.numofkeys ▸ leaf.fits) ⟨_, leaf.view.symm ▸ record, by simp⟩
  rw [leaf.view] at scan low
  rw [leaf.numofkeys] at low
  have bound : l.recs.findIdx (fun r => r.1 = key) < l.keys.length := by
    simpa [keys, records_zero] using low
  have at_ : l.keys[l.recs.findIdx fun r => r.1 = key] = key := by
    simpa [keys, records_zero] using List.findIdx_getElem (w := low)
  refine ⟨_, scan, low, ?_⟩
  conv_lhs => rw [← List.take_append_drop (l.recs.findIdx fun r => r.1 = key) l.keys]
  rw [List.drop_eq_getElem_cons bound, at_]

/-- The next record after a key of the tree is the next key, `MAX_KEY_VALUE` after the last. -/
theorem getNextRecord_held (chained : ChainedTree t s) {before after : List Key} {key : Key}
    (split : s.keys = before ++ key :: after) :
    Returns (fun fuel => getNextRecord fuel t key) (after.headD maxKeyValue) := by
  have member : key ∈ s.keys := by simp [split]
  obtain ⟨i, scan, -, here⟩ := chained.scan_held member
  obtain ⟨pre, post, around⟩ := List.append_of_mem (s.leafFor_mem key)
  have run := chained.getNextRecord_scan around scan
  -- the slot found is the key's place among all keys
  have whole : s.keys = (pre.flatMap keys ++ (s.leafFor key).keys.take i) ++
      key :: ((s.leafFor key).keys.drop (i + 1) ++ post.flatMap keys) := by
    rw [keys_eq_flatMap, around, List.flatMap_append, List.flatMap_cons]
    conv_lhs => rw [here]
    simp only [List.append_assoc, List.cons_append]
  have distinct : s.keys.Nodup := chained.keys_sorted.imp fun lt => lt.ne
  rw [whole, List.nodup_middle, List.nodup_cons, List.mem_append, not_or] at distinct
  obtain ⟨-, -, same⟩ := (List.append_cons_inj_of_notMem distinct.1.1 distinct.1.2).mp
    (whole.symm.trans split)
  exact same ▸ run

/-- They are the keys of the later leaves. -/
theorem beyond_eq (chained : ChainedTree t s) (key : Key) : ∃ before pre post,
    s.leaves = pre ++ s.leafFor key :: post ∧ beyond s key = post.flatMap keys ∧
      s.keys = before ++ beyond s key := by
  obtain ⟨pre, post, split, smaller, greater⟩ :=
    leaves_around chained.within chained.keyed.stocked key
  have whole : s.keys = (pre.flatMap keys ++ (s.leafFor key).keys) ++ post.flatMap keys := by
    rw [keys_eq_flatMap, split, List.flatMap_append, List.flatMap_cons, List.append_assoc]
  have apart := chained.keys_sorted
  rw [whole, List.pairwise_append] at apart
  have same : beyond s key = post.flatMap keys := by
    rw [beyond, whole, List.filter_append, List.filter_eq_nil_iff.mpr, List.nil_append,
      List.filter_eq_self.mpr]
    · intro x member
      obtain ⟨l, place, held⟩ := List.mem_flatMap.mp member
      simp only [decide_eq_true_eq]
      exact ⟨greater l place x held, fun inside =>
        lt_irrefl x (apart.2.2 x (List.mem_append_right _ inside) x member)⟩
    · intro x member
      simp only [decide_eq_true_eq, not_and, not_not]
      intro above
      rcases List.mem_append.mp member with first | inside
      · obtain ⟨l, place, held⟩ := List.mem_flatMap.mp first
        exact absurd (smaller l place x held) above.asymm
      · exact inside
  exact ⟨_, pre, post, split, same, same ▸ whole⟩

/-- A key that is left over in a slot but not in the tree: on to the next leaf. -/
theorem getNextRecord_left (chained : ChainedTree t s) {key : Key} (absent : key ∉ s.keys)
    (there : key ∈ slotKeys t s key) :
    Returns (fun fuel => getNextRecord fuel t key) ((beyond s key).headD maxKeyValue) := by
  obtain ⟨-, pre, post, split, same, -⟩ := chained.beyond_eq key
  rcases leafRecord.seek_cases (t (s.leafFor key).pg) (fun r => r.1 = key) with
    ⟨i, scan, inside, stop⟩ | ⟨-, none_⟩
  · have run := chained.getNextRecord_scan split scan
    -- the slot is behind the leaf's last record
    have behind : (s.leafFor key).keys.length ≤ i := by
      by_contra inside'
      have leaf := chained.held.shape.leaf (s.leafFor_mem key)
      have held : i < (s.leafFor key).recs.length := by
        simpa [keys, records_zero] using inside'
      rw [leaf.get held] at stop
      have found : ((s.leafFor key).recs[i]).1 ∈ (s.leafFor key).keys := by
        rw [keys, records_zero]
        exact List.mem_map_of_mem (List.getElem_mem held)
      rw [of_decide_eq_true stop] at found
      exact absent (mem_keys_of_leaf (s.leafFor_mem key) found)
    rw [List.drop_eq_nil_of_le (by omega), List.nil_append, ← same] at run
    exact run
  · obtain ⟨i, inside, at_⟩ := (mem_slotKeys s key key).mp there
    exact absurd at_ (by simpa using none_ i inside)

/-- A key in no slot of its page: the scan does not end there. -/
theorem getNextRecord_absent (chained : ChainedTree t s) {key : Key} (absent : key ∉ slotKeys t s key) :
    Stuck fun fuel => getNextRecord fuel t key := by
  rcases leafRecord.seek_cases (t (s.leafFor key).pg) (fun r => r.1 = key) with
    ⟨i, -, inside, stop⟩ | ⟨scan, -⟩
  · exact absurd ((mem_slotKeys s key key).mpr ⟨i, inside, of_decide_eq_true stop⟩) absent
  · exact chained.getNextRecord_lost scan

/-- **`get_next_record` is the in-order successor**, and reads records in use only. -/
theorem getNextRecord_successor (chained : ChainedTree t s) {key : Key} (stored : key ∈ s.keys) :
    (∃ next, Returns (fun fuel => getNextRecord fuel t key) next ∧ Successor s.keys key next) ∧
    ∃ pgnum index, Returns (fun fuel => findLeafPage fuel t key) pgnum ∧
      leafRecord.seek (t pgnum) (fun r => r.1 = key) = .ok index ∧ ReadsInUse t pgnum index := by
  obtain ⟨before, after, split⟩ := List.append_of_mem stored
  refine ⟨⟨_, chained.getNextRecord_held split, successor_of_split chained.keys_sorted split⟩, ?_⟩
  obtain ⟨i, scan, inside, -⟩ := chained.scan_held stored
  obtain ⟨pre, post, around⟩ := List.append_of_mem (s.leafFor_mem key)
  have leaf := chained.held.shape.leaf (s.leafFor_mem key)
  refine ⟨_, i, findLeafPage_eq chained.held chained.keyed key, scan, leaf.tag,
    leaf.numofkeys ▸ inside, fun _ more => ?_⟩
  have next := chained.next_leaf around
  cases post with
  | nil => exact absurd next more
  | cons l post =>
      have member : l ∈ s.leaves := by simp [around]
      have there := chained.held.shape.leaf member
      rw [next, List.map_cons, List.headD_cons, there.numofkeys]
      exact ⟨there.tag, List.length_pos_iff.mpr (chained.keyed.stocked l member)⟩

end ChainedTree

/-- The tree of a table, if it is ordered. -/
theorem Represents.chainedTree {t : Table} {st : Store} (represents : Represents t st) {h : Nat}
    {s : Tree h} (tree : st.tree = some ⟨h, s⟩) (ordered : SearchOrdered s) (keyed : Keyed s)
    (sorted : LeavesSorted s) : ChainedTree t s := by
  have heap := represents.heap
  rw [tree] at heap
  obtain ⟨rest, first⟩ := s.leafPages_head
  refine ⟨represents.inTable tree, ordered, keyed, sorted, ?_, represents.linked h s tree, fun zero => ?_⟩
  · rw [first]
    rfl
  · exact heap.live_nonzero (s.leafPages_subset zero) rfl

theorem sampleTree_chained : ChainedTree (tableOf sampleStore) sampleTree := by
  obtain ⟨-, ordered, keyed⟩ := sampleTable_searchable
  have sorted : LeavesSorted sampleTree := by
    simp [LeavesSorted, sampleTree, leaves_succ, leaves_zero, Node.children, keys, records_zero]
  exact (tableOf_represents sampleStore_sound).chainedTree rfl ordered keyed sorted

/-- From the only key of a leaf to the first of the next leaf. -/
theorem getNextRecord_successor_sample :
    (∃ next, Returns (fun fuel => getNextRecord fuel (tableOf sampleStore) 1) next ∧
      Successor sampleTree.keys 1 next) ∧
    ∃ pgnum index, Returns (fun fuel => findLeafPage fuel (tableOf sampleStore) 1) pgnum ∧
      leafRecord.seek (tableOf sampleStore pgnum) (fun r => r.1 = 1) = .ok index ∧
      ReadsInUse (tableOf sampleStore) pgnum index :=
  sampleTree_chained.getNextRecord_successor (by decide)

end SimpleDatabase.Kernel
