/- InMemory.Ranges -- the leaves in a row, and `find_range`

`Row F next ls` says that the leaves `ls` are linked as `pointers[order - 1]` links them; those
of a tree are (`row_leaves`).  So `find_range` comes by every item from where it starts on.
It does not always start: if all keys of the first leaf are smaller than `key_start`, it
returns nothing, whatever the next leaves hold (`Stored.findRange`).
-/
import SimpleDatabase.InMemory.Calls
import SimpleDatabase.Theory.Ascending

namespace SimpleDatabase.InMemory

open SimpleDatabase.Theory SimpleDatabase.Bpt

set_option autoImplicit false

/-! ## The leaves in a row -/

/-- Every leaf is there and points to the next one, the last one to `next`. -/
def Row (F : Multiset Cell) (next : Ptr) : List (Tree 0) → Prop
  | [] => True
  | l :: ls =>
      (∃ parent, (l.pg, Desc.leaf parent ((ls.map Paged.pg).headD next) (l.recs.map entry)) ∈ F) ∧ Row F next ls

variable {order h : Nat} {m : Memory} {F : Multiset Cell} {next : Ptr}

theorem row_append (ls rs : List (Tree 0)) :
    Row F next (ls ++ rs) ↔ Row F ((rs.map Paged.pg).headD next) ls ∧ Row F next rs := by
  induction ls with
  | nil => simp [Row]
  | cons l ls ih =>
      simp only [List.cons_append, Row, ih, List.map_append, and_assoc]
      cases ls <;> rfl

/-- The first page of the rest of a row. -/
theorem firstLeaf_headD (cs : List (Tree h)) :
    ((cs.flatMap PageTree.leaves).map Paged.pg).headD next = (cs.map PageTree.firstLeaf).headD next := by
  cases cs with
  | nil => rfl
  | cons c cs =>
      obtain ⟨rest, first⟩ : ∃ rest, c.leaves.map Paged.pg = c.firstLeaf :: rest := PageTree.leafPages_head c
      rw [List.flatMap_cons, List.map_append, first]
      rfl

/-- The leaves of neighbours. -/
theorem row_chain {q : Ptr} (cs : List (Tree h))
    (each : ∀ (c : Tree h) (parent next : Ptr), cells parent next c ≤ F → Row F next c.leaves)
    (inside : chain (cells q) next cs ≤ F) : Row F next (cs.flatMap PageTree.leaves) := by
  induction cs with
  | nil => trivial
  | cons c cs ih =>
      rw [chain] at inside
      rw [List.flatMap_cons, row_append, firstLeaf_headD]
      exact ⟨each c q _ ((Multiset.le_add_right _ _).trans inside), ih ((Multiset.le_add_left _ _).trans inside)⟩

/-- **The leaves of a tree are in a row.** -/
theorem row_leaves (s : Tree h) (parent next : Ptr) (inside : cells parent next s ≤ F) : Row F next s.leaves := by
  induction h generalizing parent next with
  | zero => exact ⟨⟨parent, Multiset.mem_of_le inside (root_mem s)⟩, trivial⟩
  | succ h ih =>
      rw [PageTree.leaves_succ]
      refine row_chain s.root.children ih (q := s.pg) ?_
      rw [cells, below_succ] at inside
      exact (Multiset.le_add_left _ _).trans inside

/-! ## Storing what is found -/

/-- The arrays of the caller, if they are large enough. -/
def arrays (size : Nat) (found : List Entry) : Exec (List Entry) :=
  if found.length ≤ size then .ok found else .error .outOfBounds

theorem arrays_fit {size : Nat} {found : List Entry} (fits : found.length ≤ size) : arrays size found = .ok found :=
  if_pos fits

theorem arrays_full {size : Nat} {found : List Entry} (full : size < found.length) :
    arrays size found = .error .outOfBounds := if_neg (by omega)

/-- The loop over a leaf's keys from `i` on. -/
theorem rangeLoop_spec {n : Bpt.Node} {recs : List Entry} (leaf : LeafNode order n next recs) (size : Nat)
    (keyEnd : Key) {i rounds : Nat} (place : i + rounds = recs.length) {found : List Entry}
    (fits : found.length ≤ size) :
    rangeLoop order size n keyEnd i rounds found =
      arrays size (found ++ (recs.drop i).takeWhile fun r => r.1 ≤ keyEnd) := by
  induction rounds generalizing i found with
  | zero =>
      rw [rangeLoop, List.drop_eq_nil_of_le (by omega), List.takeWhile_nil, List.append_nil, arrays_fit fits]
  | succ rounds ih =>
      have inside : i < recs.length := by omega
      have room := leaf.fits
      rw [rangeLoop, read_array _ (by omega), Exec.ok_bind, leaf.key_at inside, List.drop_eq_getElem_cons inside]
      by_cases small : recs[i].1 ≤ keyEnd
      · rw [if_pos small, read_array _ (by omega), Exec.ok_bind, leaf.pointer_at inside, returnEntry,
          List.takeWhile_cons_of_pos (by simpa using small)]
        by_cases more : found.length < size
        · rw [if_pos more, Exec.ok_bind, ih (by omega) (by simpa using Nat.succ_le_of_lt more), List.append_assoc]
          rfl
        · rw [if_neg more, Exec.error_bind, arrays_full (by simp; omega)]
      · rw [if_neg small, List.takeWhile_cons_of_neg (by simpa using small), List.append_nil, arrays_fit fits]
        rfl

/-- The loop over a row. -/
theorem rangeLeaves_spec (holds : Holds order m F) (order_pos : 1 ≤ order) (size : Nat) (keyEnd : Key)
    {ls : List (Tree 0)} (row : Row F null ls) {found : List Entry} (fits : found.length ≤ size) {fuel : Nat}
    (enough : ls.length < fuel) :
    rangeLeaves order m size keyEnd fuel ((ls.map Paged.pg).headD null) 0 found =
      arrays size (found ++ ls.flatMap fun l => (l.recs.map entry).takeWhile fun r => r.1 ≤ keyEnd) := by
  induction ls generalizing found fuel with
  | nil =>
      obtain ⟨fuel, rfl⟩ := Nat.exists_eq_add_of_le' enough
      rw [List.flatMap_nil, List.append_nil, arrays, if_pos fits]
      rfl
  | cons l ls ih =>
      obtain ⟨fuel, rfl⟩ := Nat.exists_eq_add_of_le' (Nat.one_le_of_lt enough)
      obtain ⟨⟨parent, member⟩, rest⟩ := row
      obtain ⟨n, there, leaf, -⟩ := node_leaf holds member
      have nonNull := ne_null holds member
      have run := rangeLoop_spec leaf size keyEnd (show 0 + n.numKeys = _ by rw [leaf.count, zero_add]) fits
      rw [List.drop_zero] at run
      rw [List.map_cons, List.headD_cons, rangeLeaves, if_neg nonNull, there, Exec.ok_bind, Nat.sub_zero, run,
        List.flatMap_cons, ← List.append_assoc]
      by_cases all : (found ++ (l.recs.map entry).takeWhile fun r => r.1 ≤ keyEnd).length ≤ size
      · rw [arrays_fit all, Exec.ok_bind, read_array _ (by omega), Exec.ok_bind, leaf.next,
          ih rest all (by simpa using enough)]
      · rw [arrays_full (Nat.lt_of_not_le all), Exec.error_bind,
          arrays_full (by rw [List.length_append]; omega)]

/-! ## `find_range` -/

/-- What is stored under the keys from `a` to `b`. -/
def within (a b : Key) (recs : List Item) : List Entry := (recs.map entry).filter fun r => a ≤ r.1 ∧ r.1 ≤ b

section Sorted

variable {recs : List Item}

theorem keys_entry (recs : List Item) : (recs.map entry).map Prod.fst = recs.map Prod.fst := by
  rw [List.map_map]
  rfl

/-- What the loop takes of a leaf whose keys are all in range below. -/
theorem takeWhile_within {a b : Key} (sorted : (recs.map Prod.fst).Pairwise (· < ·))
    (above : ∀ k ∈ recs.map Prod.fst, a < k) :
    (recs.map entry).takeWhile (fun r => r.1 ≤ b) = within a b recs := by
  rw [← keys_entry] at sorted above
  have down := descends_of_ascending sorted (q := fun k => decide (k ≤ b)) fun x y le small => by
    simpa using le.trans (by simpa using small)
  rw [down.takeWhile_eq, within]
  refine List.filter_congr fun r member => ?_
  simp [(above r.1 (List.mem_map_of_mem member)).le]

/-- What the loop takes of a leaf from its first key on that is not too small. -/
theorem drop_takeWhile_within (a b : Key) (sorted : (recs.map Prod.fst).Pairwise (· < ·)) :
    ((recs.map entry).drop ((recs.map entry).findIdx fun r => decide ¬ r.1 < a)).takeWhile (fun r => r.1 ≤ b) =
      within a b recs := by
  rw [← keys_entry] at sorted
  have start : ((recs.map entry).drop ((recs.map entry).findIdx fun r => decide ¬ r.1 < a)) =
      (recs.map entry).filter fun r => !decide (r.1 < a) := by
    have down := descends_of_ascending sorted (q := fun k => decide (k < a)) fun x y le small => by
      simpa using le.trans_lt (by simpa using small)
    rw [← down.dropWhile_eq, List.dropWhile_eq_drop_findIdx_not]
    simp only [decide_not]
  have rest : (((recs.map entry).filter fun r => !decide (r.1 < a)).map Prod.fst).Pairwise (· < ·) :=
    sorted.sublist (List.filter_sublist.map Prod.fst)
  have down := descends_of_ascending rest (q := fun k => decide (k ≤ b)) fun x y le small => by
    simpa using le.trans (by simpa using small)
  rw [start, down.takeWhile_eq, List.filter_filter, within]
  refine List.filter_congr fun r _ => ?_
  by_cases low : r.1 < a
  · simp [low, not_le.mpr low]
  · simp [low, not_lt.mp low]

theorem within_flatMap (a b : Key) (ls : List (Tree 0)) :
    within a b (ls.flatMap PageTree.recs) = ls.flatMap fun l => within a b l.recs := by
  simp only [within, List.map_flatMap, List.filter_flatMap]

theorem within_smaller {a b : Key} (smaller : ∀ k ∈ recs.map Prod.fst, k < a) : within a b recs = [] := by
  rw [within, List.filter_eq_nil_iff]
  intro r member
  rw [← keys_entry] at smaller
  simpa using fun low => absurd (smaller r.1 (List.mem_map_of_mem member)) (not_lt.mpr low)

end Sorted

section Find

variable {wide : 3 ≤ order} {root : Ptr} {T : Whole} {R : Multiset Cell}

/-- The keys of the leaf that a search for the key ends in. -/
def Whole.leafKeys (T : Whole) (key : Key) : List Key := T.elim [] fun t => (t.2.leafFor key).keys

/-- The items with the keys from `a` to `b`. -/
def Whole.inRange (T : Whole) (a b : Key) : List Item := T.items.filter fun r => a ≤ r.1 ∧ r.1 ≤ b

/-- Those that `find_range` finds. -/
def Whole.found (T : Whole) (a b : Key) : List Item := if ∃ k ∈ T.leafKeys a, a ≤ k then T.inRange a b else []

theorem within_items (T : Whole) (a b : Key) : within a b T.items = (T.inRange a b).map entry := by
  rw [within, List.filter_map]
  rfl

theorem keys_leaf (l : Tree 0) : l.keys = l.recs.map Prod.fst := by rw [PageTree.keys, PageTree.records_zero]

/-- Where the scan for the first key that is not too small does not stop. -/
theorem findIdx_all_smaller (recs : List Item) (a : Key) :
    (recs.map entry).findIdx (fun r => decide ¬ r.1 < a) = (recs.map entry).length ↔
      ¬ ∃ k ∈ recs.map Prod.fst, a ≤ k := by
  rw [List.findIdx_eq_length, ← keys_entry]
  simp only [decide_not, Bool.not_eq_false', decide_eq_true_eq, List.mem_map, not_exists, not_and, not_le]
  constructor
  · rintro all k ⟨r, member, rfl⟩
    exact all r member
  · intro all r member
    exact all r.1 ⟨r, member, rfl⟩

/-- The leaves from the one a search ends in on. -/
theorem within_leaves {s : Tree h} (valid : PageTree.Valid (limits order wide) s) (a b : Key) :
    ∃ pre post, s.leaves = pre ++ s.leafFor a :: post ∧
      within a b s.records = within a b (s.leafFor a).recs ++
        post.flatMap fun l => (l.recs.map entry).takeWhile fun r => r.1 ≤ b := by
  obtain ⟨pre, post, split, smaller, greater⟩ := PageTree.leaves_around valid.ordered.within valid.stocked a
  have sorted := valid.ordered.leavesSorted
  simp only [PageTree.LeavesSorted, keys_leaf] at smaller greater sorted
  refine ⟨pre, post, split, ?_⟩
  have before : (pre.flatMap fun l => within a b l.recs) = [] := by
    rw [List.flatMap_eq_nil_iff]
    exact fun l member => within_smaller (smaller l member)
  have behind : (post.flatMap fun l => (l.recs.map entry).takeWhile fun r => r.1 ≤ b) =
      post.flatMap fun l => within a b l.recs :=
    List.flatMap_congr fun l member =>
      takeWhile_within (sorted l (split ▸ by simp [member])) (greater l member)
  rw [behind, PageTree.records, split, within_flatMap, List.flatMap_append, List.flatMap_cons, before,
    List.nil_append]

/-- **`find_range`** returns all that is stored in the range, if the leaf it starts in has a key that is
not too small, and nothing otherwise. -/
theorem Stored.findRange (stored : Stored order wide m root T R) (a b : Key) (size : Nat) :
    ∃ enough, ∀ fuel, enough ≤ fuel →
      Bpt.findRange order m fuel root a b size = arrays size ((T.found a b).map entry) := by
  cases T with
  | none =>
      refine ⟨0, fun fuel _ => ?_⟩
      rw [stored.root, Whole.found, if_neg (by simp [Whole.leafKeys]), List.map_nil, arrays_fit (Nat.zero_le size)]
      rfl
  | some t =>
      obtain ⟨h, s⟩ := t
      have valid := stored.valid ⟨h, s⟩ rfl
      have inside : cells null null s ≤ Whole.blocks (some ⟨h, s⟩) + R := Multiset.le_add_right _ _
      obtain ⟨pre, post, split, found⟩ := within_leaves valid a b
      have row := row_leaves s null null inside
      rw [split, row_append] at row
      obtain ⟨-, ⟨parent, member⟩, rest⟩ := row
      obtain ⟨n, there, leaf, -⟩ := node_leaf stored.holds member
      have nonNull := ne_null stored.holds member
      have sorted := valid.ordered.leavesSorted (s.leafFor a) (by rw [split]; simp)
      rw [keys_leaf] at sorted
      have first := rangeLoop_spec leaf size b
        (Nat.add_sub_cancel' (List.findIdx_le_length (p := fun r => decide ¬ r.1 < a)))
        (show ([] : List Entry).length ≤ size from Nat.zero_le size)
      refine ⟨max (h + 1) (post.length + 2), fun fuel le => ?_⟩
      obtain ⟨fuel, rfl⟩ := Nat.exists_eq_add_of_le' (show 1 ≤ fuel by omega)
      rw [stored.root, Whole.root, Bpt.findRange, findLeaf_spec stored.holds inside (by omega) a (by omega),
        Exec.ok_bind, if_neg nonNull, there, Exec.ok_bind, leaf.find_key, Exec.ok_bind, leaf.count,
        if_congr (findIdx_all_smaller (s.leafFor a).recs a) rfl rfl]
      have keys : Whole.leafKeys (some ⟨h, s⟩) a = (s.leafFor a).recs.map Prod.fst := keys_leaf _
      rw [Whole.found, keys]
      by_cases starts : ∃ k ∈ (s.leafFor a).recs.map Prod.fst, a ≤ k
      · rw [if_neg (not_not_intro starts), if_pos starts, rangeLeaves, if_neg nonNull, there, Exec.ok_bind,
          leaf.count, first, drop_takeWhile_within a b sorted,
          List.nil_append, ← within_items, Whole.items, recordsOf, found]
        by_cases fits : (within a b (s.leafFor a).recs).length ≤ size
        · rw [arrays_fit fits, Exec.ok_bind, read_array _ (by omega), Exec.ok_bind, leaf.next,
            rangeLeaves_spec stored.holds (by omega) size b rest fits (by omega)]
        · rw [arrays_full (Nat.lt_of_not_le fits), Exec.error_bind, arrays_full (by
            rw [List.length_append]
            exact (Nat.lt_of_not_le fits).trans_le (Nat.le_add_right _ _))]
      · rw [if_pos starts, if_neg starts, List.map_nil, arrays_fit (Nat.zero_le size)]
        rfl

/-- **When `find_range` finds everything**: if the leaf it starts in has a key that is not too small,
or there is nothing to find. -/
theorem Stored.findRange_complete_iff (stored : Stored order wide m root T R) {a b : Key} {size : Nat}
    (room : (T.inRange a b).length ≤ size) :
    Returns (fun fuel => Bpt.findRange order m fuel root a b size) ((T.inRange a b).map entry) ↔
      (∃ k ∈ T.leafKeys a, a ≤ k) ∨ T.inRange a b = [] := by
  obtain ⟨enough, run⟩ := stored.findRange a b size
  rw [Whole.found] at run
  by_cases starts : ∃ k ∈ T.leafKeys a, a ≤ k
  · rw [if_pos starts, arrays_fit (by rwa [List.length_map])] at run
    exact iff_of_true ⟨enough, run⟩ (.inl starts)
  · rw [if_neg starts, List.map_nil, arrays_fit (Nat.zero_le size)] at run
    have returns : Returns (fun fuel => Bpt.findRange order m fuel root a b size) [] := ⟨enough, run⟩
    constructor
    · intro all
      exact .inr (List.map_eq_nil_iff.mp (all.unique returns))
    · rintro (first | empty)
      · exact absurd first starts
      · rw [empty]
        exact returns

/-- A key that is stored is in the leaf that a search for it ends in. -/
theorem Stored.mem_leafKeys (stored : Stored order wide m root T R) {key : Key} {value : Int32}
    (held : T.value key = some value) : key ∈ T.leafKeys key := by
  cases T with
  | none => cases held
  | some t =>
      obtain ⟨r, item, -⟩ := Option.map_eq_some_iff.mp held
      have inLeaf : ((t.2.leafFor key).recs.find? fun r => r.1 = key) = some r :=
        ((stored.valid t rfl).find?_leafFor key).trans item
      have same : r.1 = key := by simpa using List.find?_some inLeaf
      show key ∈ (t.2.leafFor key).keys
      rw [keys_leaf, ← same]
      exact List.mem_map_of_mem (List.mem_of_find?_eq_some (same ▸ inLeaf))

/-- The keys in a range are those that are stored. -/
theorem Stored.mem_inRange (stored : Stored order wide m root T R) {a b key : Key} :
    key ∈ (T.inRange a b).map Prod.fst ↔ T.value key ≠ none ∧ a ≤ key ∧ key ≤ b := by
  rw [Whole.value, ne_eq, Option.map_eq_none_iff, stored.item_eq_none, not_not]
  simp only [Whole.inRange, List.mem_map, List.mem_filter, decide_eq_true_eq]
  constructor
  · rintro ⟨r, ⟨member, between⟩, rfl⟩
    exact ⟨⟨r, member, rfl⟩, between⟩
  · rintro ⟨⟨r, member, rfl⟩, between⟩
    exact ⟨r, ⟨member, between⟩, rfl⟩

/-- The tree holds 4, 5 and 9, and the call finds 4 and 5. -/
theorem findRange_complete_iff_sample :
    ∃ (root : Ptr) (m : Memory) (T : Whole),
      Returns (fun fuel => runCalls 3 Malloc.bump fuel sampleCalls null Memory.empty) (root, m) ∧
      Stored 3 (by decide) m root T 0 ∧ (T.inRange 4 7).map Prod.fst = [4, 5] ∧
      Returns (fun fuel => Bpt.findRange 3 m fuel root 4 7 2) ((T.inRange 4 7).map entry) := by
  obtain ⟨root, m, T, run, stored, values⟩ := sampleCalls_stored
  have keys : (T.inRange 4 7).map Prod.fst = [4, 5] := by
    have sorted : ((T.inRange 4 7).map Prod.fst).Pairwise (· < ·) :=
      stored.sorted.sublist (List.filter_sublist.map Prod.fst)
    refine sorted.eq_of_mem_iff (by decide) fun {key} => ?_
    rw [stored.mem_inRange, values, sampleCalls_holds]
    constructor
    · rintro ⟨rfl | rfl | rfl, inside⟩
      · decide
      · decide
      · exact absurd inside (by decide)
    · intro found
      have found : key = 4 ∨ key = 5 := by simpa using found
      rcases found with rfl | rfl <;> decide
  have held : T.value 4 = some 40 := by rw [values]; decide
  have room : (T.inRange 4 7).length ≤ 2 := by simpa using (congrArg List.length keys).le
  exact ⟨root, m, T, run, stored, keys,
    (stored.findRange_complete_iff room).mpr (.inl ⟨4, stored.mem_leafKeys held, le_rfl⟩)⟩

/-! ## The arrays of `find_and_print_range` -/

/-- The size is the number of keys in the range, unless there are too many for an `int`. -/
theorem arraySize_eq {a b : Key} (le : a ≤ b) :
    arraySize a b = if b.toInt - a.toInt < 2 ^ 31 - 1 then (b.toInt + 1 - a.toInt).toNat else 0 := by
  have le := Int32.le_iff_toInt_le.mp le
  have low := Int32.le_toInt a
  have high := Int32.toInt_lt b
  have one : (1 : Int32).toInt = 1 := by decide
  rw [arraySize, Int32.toInt_add, Int32.toInt_sub, one, Int.bmod_add_bmod]
  simp only [Int.bmod_def]
  split <;> split <;> omega

/-- When the stack has no room for the arrays. -/
theorem room_lt_arraySize_iff {a b : Key} (le : a ≤ b) (room : Nat) :
    room < arraySize a b ↔ room ≤ b.toInt - a.toInt ∧ b.toInt - a.toInt < 2 ^ 31 - 1 := by
  rw [arraySize_eq le]
  split <;> omega

/-- There are no more keys in a range than numbers. -/
theorem within_length {a b : Key} {recs : List Item} (sorted : (recs.map Prod.fst).Pairwise (· < ·)) :
    (within a b recs).length ≤ (b.toInt + 1 - a.toInt).toNat := by
  rw [← keys_entry] at sorted
  have sorted : ((within a b recs).map Prod.fst).Pairwise (· < ·) := sorted.sublist (List.filter_sublist.map Prod.fst)
  have numbers : ((within a b recs).map fun r => r.1.toInt).Pairwise (· < ·) := by
    rw [List.pairwise_map] at sorted ⊢
    exact sorted.imp Int32.lt_iff_toInt_lt.mp
  rw [← List.length_map fun r : Entry => r.1.toInt]
  refine length_le_of_ascending numbers fun x member => ?_
  obtain ⟨r, inside, rfl⟩ := List.mem_map.mp member
  have between : a ≤ r.1 ∧ r.1 ≤ b := by simpa [within] using (List.mem_filter.mp inside).2
  exact ⟨Int32.le_iff_toInt_le.mp between.1, Int32.le_iff_toInt_le.mp between.2⟩

/-- **The arrays are large enough** if the size of the range is an `int`. -/
theorem Stored.found_fits_iff (stored : Stored order wide m root T R) (a b : Key) :
    (T.found a b).length ≤ arraySize a b ↔ T.found a b = [] ∨ b.toInt - a.toInt < 2 ^ 31 - 1 := by
  by_cases empty : T.found a b = []
  · simp [empty]
  · have le : a ≤ b := by
      obtain ⟨r, member⟩ := List.exists_mem_of_ne_nil _ empty
      rw [Whole.found] at member
      split at member
      · have between : a ≤ r.1 ∧ r.1 ≤ b := by simpa [Whole.inRange] using (List.mem_filter.mp member).2
        exact between.1.trans between.2
      · cases member
    have pos := List.length_pos_iff.mpr empty
    have count : (T.found a b).length ≤ (b.toInt + 1 - a.toInt).toNat := by
      have all := within_length (a := a) (b := b) stored.sorted
      rw [within_items, List.length_map] at all
      rw [Whole.found]
      split
      · exact all
      · exact Nat.zero_le _
    rw [arraySize_eq le]
    simp only [empty, false_or]
    split
    · next small => exact iff_of_true count small
    · next large => exact iff_of_false (by omega) large

end Find

end SimpleDatabase.InMemory
