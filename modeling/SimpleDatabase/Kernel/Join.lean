/- Kernel.Join -- when `join_table` computes the natural join

The loop of `join_table` is a merge of the two tables' trails (`joinLoop_iff`), and
each line looks both values up under the first cursor's key, which faults where one
of the tables does not hold it.  So the lines are the natural join exactly when the
trails are matched over the keys in common (`joinTable_natural_iff`).
-/
import SimpleDatabase.Kernel.Cursor

namespace SimpleDatabase.Kernel

open SimpleDatabase.Theory SimpleDatabase.Theory.PageTree SimpleDatabase.Project5 Page

set_option autoImplicit false

/-! ## One line -/

theorem Contents.mem_keys_iff (c : Contents) (key : Key) :
    key ∈ c.keys ↔ ∃ l ∈ c.leaves, key ∈ l.keys := by
  cases c with
  | none => simp [Contents.keys, Contents.leaves]
  | some tree =>
      obtain ⟨h, s⟩ := tree
      rw [Contents.keys, keys_eq_flatMap, List.mem_flatMap]
      rfl

/-- `get_table_value` gives the value `db_find` gives for a stored key, and dereferences the null
pointer for another. -/
theorem getTableValue_cases {t : Table} {c : Contents} (searchable : Searchable t c) (key : Key) :
    (key ∈ c.keys ∧ ∃ v, Returns (fun fuel => getTableValue fuel t key) v ∧
      ∀ retVal, Returns (fun fuel => dbFind fuel t key retVal) (0, v)) ∨
    (key ∉ c.keys ∧ Stuck fun fuel => getTableValue fuel t key) := by
  obtain ⟨pgnum, found, descent, value, present, absent⟩ := searchable.descent key
  by_cases stored : ∃ l ∈ c.leaves, key ∈ l.keys
  · obtain ⟨l, member, held⟩ := stored
    obtain ⟨-, -, v, rfl, -⟩ := present l member held
    refine .inl ⟨(c.mem_keys_iff key).mpr ⟨l, member, held⟩, v, ?_, dbFind_of_descent descent value⟩
    refine descent.bind (Returns.of_forall fun _ => ?_)
    simp only [fileReadPage, value, Exec.ok_bind, Exec.pure_eq_ok]
  · refine .inr ⟨fun held => stored ((c.mem_keys_iff key).mp held), ?_⟩
    refine Stuck.after descent (Stuck.of_forall (e := .nullPointer) fun _ => ?_)
    rw [absent fun l member held => stored ⟨l, member, held⟩] at value
    simp only [fileReadPage, value, Exec.ok_bind]
    rfl

section Join

variable {t1 t2 : Table} {c1 c2 : Contents}

/-- The line for the keys of the two cursors. -/
structure LineFor (t1 t2 : Table) (p : Key × Key) (line : JoinLine) : Prop where
  key1 : line.key1 = p.1
  key2 : line.key2 = p.2
  run : Returns (fun fuel => joinLine fuel t1 t2 p.1 p.2) line
  value1 : ∀ retVal, Returns (fun fuel => dbFind fuel t1 line.key1 retVal) (0, line.value1)
  value2 : ∀ retVal, Returns (fun fuel => dbFind fuel t2 line.key1 retVal) (0, line.value2)

/-- A line is written exactly where both tables hold the first cursor's key. -/
theorem joinLine_cases (searchable1 : Searchable t1 c1) (searchable2 : Searchable t2 c2)
    (a b : Key) :
    (a ∈ c1.keys ∧ a ∈ c2.keys ∧ ∃ line, LineFor t1 t2 (a, b) line) ∨
    (¬ (a ∈ c1.keys ∧ a ∈ c2.keys) ∧ Stuck fun fuel => joinLine fuel t1 t2 a b) := by
  rcases getTableValue_cases searchable1 a with ⟨held1, v1, run1, find1⟩ | ⟨absent, stuck⟩
  · rcases getTableValue_cases searchable2 a with ⟨held2, v2, run2, find2⟩ | ⟨absent, stuck⟩
    · refine .inl ⟨held1, held2, ⟨a, v1, b, v2⟩, rfl, rfl, ?_, find1, find2⟩
      exact run1.bind (run2.bind (Returns.of_forall fun _ => rfl))
    · refine .inr ⟨fun both => absent both.2, ?_⟩
      exact Stuck.after run1 (stuck.bind _)
  · exact .inr ⟨fun both => absent both.1, stuck.bind _⟩

/-! ## The loop -/

/-- The loop merges the two trails, and writes a line for each pair of keys. -/
theorem joinLoop_iff (searchable1 : Searchable t1 c1) (searchable2 : Searchable t2 c2)
    {k1 k2 : Key} {ks ls : List Key} {ends1 ends2 : Bool} (trail1 : Trail t1 k1 ks ends1)
    (trail2 : Trail t2 k2 ls ends2) (moving : ¬ (k1 = maxKeyValue ∧ k2 = maxKeyValue))
    (lines out : List JoinLine) :
    Returns (fun fuel => joinLoop t1 t2 fuel k1 k2 lines) out ↔
      ∃ pairs, Merge maxKeyValue ends1 ends2 ks ls pairs ∧
        ∃ new, List.Forall₂ (LineFor t1 t2) pairs new ∧ out = lines ++ new := by
  induction len : ls.length using Nat.strong_induction_on generalizing k1 k2 ks ls lines with
  | _ n ih =>
    rw [← Returns.succ_iff]
    simp only [joinLoop, if_neg moving, Exec.pure_eq_ok, Exec.ok_bind]
    refine (trail1.bind_advance_iff k2).trans ?_
    have head := trail2.eq_headD
    cases stop : atLeast (ls.headD maxKeyValue) ks with
    | nil =>
        simp only [Merge.left_iff stop]
        rw [head] at stop
        simp only [stop, List.headD_nil]
        rw [trail2.bind_advance_iff, atLeast_eq_nil_iff.mpr trail2.lt_max]
        simp [Returns.const_iff, eq_comm, and_assoc]
    | cons a as =>
        have here : atLeast k2 ks = a :: as := head ▸ stop
        obtain ⟨-, stand⟩ := trail1.advance k2 (.inl (by simp [here]))
        rw [here] at stand ⊢
        have low : a ≠ maxKeyValue := (stand.lt_max a List.mem_cons_self).ne
        simp only [ne_eq, reduceCtorEq, not_false_eq_true, true_or, true_and, List.headD_cons]
        rw [trail2.bind_advance_iff]
        cases stop' : atLeast a ls with
        | nil =>
            simp only [Merge.right_iff stop stop']
            simp [Returns.const_iff, eq_comm]
        | cons b bs =>
            obtain ⟨-, stand'⟩ := trail2.advance a (.inl (by simp [stop']))
            rw [stop'] at stand'
            have low' : b ≠ maxKeyValue := (stand'.lt_max b List.mem_cons_self).ne
            simp only [ne_eq, reduceCtorEq, not_false_eq_true, true_or, true_and, List.headD_cons, low,
              low', or_self, if_false, Merge.join_iff stop stop']
            rcases joinLine_cases searchable1 searchable2 a b with ⟨-, -, line, here⟩ | ⟨-, stuck⟩
            · refine (Returns.bind_iff here.run).trans ?_
              have shorter : bs.length < n := by
                have := atLeast_length a ls
                rw [stop', List.length_cons] at this
                omega
              cases stand' with
              | lost _ stuck => exact iff_of_false ((stuck.bind _).not_returns out) (by simp)
              | step top move rest =>
                  refine (Returns.bind_iff move).trans ((ih bs.length shorter stand rest
                    (fun both => low both.1) (lines ++ [line]) rfl).trans ?_)
                  have more : bs ≠ [] ∨ ends2 = true := rest.more
                  constructor
                  · rintro ⟨pairs, merge, new, match_, rfl⟩
                    exact ⟨_, ⟨more, pairs, merge, rfl⟩, line :: new, .cons here match_, by simp⟩
                  · rintro ⟨_, ⟨-, pairs, merge, rfl⟩, _, match_, rfl⟩
                    obtain ⟨line', new, here', later, rfl⟩ := List.forall₂_cons_left_iff.mp match_
                    cases here.run.unique here'.run
                    exact ⟨pairs, merge, new, later, by simp⟩
            · refine iff_of_false ((stuck.bind _).not_returns out) ?_
              rintro ⟨_, ⟨-, pairs, -, rfl⟩, _, match_, -⟩
              obtain ⟨line, -, here, -, -⟩ := List.forall₂_cons_left_iff.mp match_
              exact stuck.not_returns line here.run

/-! ## The join -/

/-- The lines are the natural join of the two tables. -/
structure NaturalJoin (t1 t2 : Table) (c1 c2 : Contents) (lines : List JoinLine) : Prop where
  ascending : lines.Pairwise fun x y => x.key1 < y.key1
  same : ∀ line ∈ lines, line.key2 = line.key1
  keys : ∀ k, (∃ line ∈ lines, line.key1 = k) ↔ k ∈ c1.keys ∧ k ∈ c2.keys
  value1 : ∀ line ∈ lines, ∀ retVal,
    Returns (fun fuel => dbFind fuel t1 line.key1 retVal) (0, line.value1)
  value2 : ∀ line ∈ lines, ∀ retVal,
    Returns (fun fuel => dbFind fuel t2 line.key1 retVal) (0, line.value2)

/-- What the two tables have to do with each other for `join_table` to join them: if both cursors
start at `MAX_KEY_VALUE`, it is the one key in common; else their trails are matched over the
common keys. -/
def JoinMatched (t1 t2 : Table) (c1 c2 : Contents) : Prop :=
  if startKey c1 = maxKeyValue ∧ startKey c2 = maxKeyValue then
    ∀ k, k ∈ c1.keys ∧ k ∈ c2.keys ↔ k = maxKeyValue
  else
    Matched (trail t1 c1).2 (trail t2 c2).2 (fun k => k ∈ c1.keys ∧ k ∈ c2.keys)
      (trail t1 c1).1 (trail t2 c2).1

theorem lines_for {pairs : List (Key × Key)} {lines : List JoinLine}
    (written : List.Forall₂ (LineFor t1 t2) pairs lines) :
    pairs = lines.map (fun line => (line.key1, line.key2)) ∧
      ∀ line ∈ lines, LineFor t1 t2 (line.key1, line.key2) line := by
  induction written with
  | nil => simp
  | @cons p line pairs lines here _ ih =>
      have same : p = (line.key1, line.key2) := Prod.ext here.key1.symm here.key2.symm
      refine ⟨by rw [List.map_cons, ← same, ← ih.1], ?_⟩
      intro x member
      rcases List.mem_cons.mp member with rfl | later
      · exact same ▸ here
      · exact ih.2 x later

/-- Lines for increasing keys are the natural join exactly if the keys are the common ones. -/
theorem naturalJoin_iff {pairs : List (Key × Key)} {lines : List JoinLine}
    (written : List.Forall₂ (LineFor t1 t2) pairs lines)
    (ascending : pairs.Pairwise fun p q => p.1 < q.1) :
    NaturalJoin t1 t2 c1 c2 lines ↔ Diagonal (fun k => k ∈ c1.keys ∧ k ∈ c2.keys) pairs := by
  obtain ⟨rfl, values⟩ := lines_for written
  constructor
  · intro join
    refine ⟨fun p member => ?_, fun k => (Iff.trans ?_ (join.keys k))⟩
    · obtain ⟨line, inside, rfl⟩ := List.mem_map.mp member
      exact join.same line inside
    · simp
  · intro diagonal
    have increasing := List.pairwise_map.mp ascending
    exact ⟨increasing,
      fun line member => diagonal.same _ (List.mem_map_of_mem member),
      fun k => Iff.trans (by simp) (diagonal.keys k),
      fun line member => (values line member).value1,
      fun line member => (values line member).value2⟩

/-- Where both tables hold every first key, there are lines. -/
theorem exists_lines (searchable1 : Searchable t1 c1) (searchable2 : Searchable t2 c2)
    {pairs : List (Key × Key)} (held : ∀ p ∈ pairs, p.1 ∈ c1.keys ∧ p.1 ∈ c2.keys) :
    ∃ lines, List.Forall₂ (LineFor t1 t2) pairs lines := by
  induction pairs with
  | nil => exact ⟨[], .nil⟩
  | cons p pairs ih =>
      obtain ⟨lines, later⟩ := ih fun q member => held q (List.mem_cons_of_mem p member)
      rcases joinLine_cases searchable1 searchable2 p.1 p.2 with ⟨-, -, line, here⟩ | ⟨absent, -⟩
      · exact ⟨line :: lines, .cons here later⟩
      · exact absurd (held p List.mem_cons_self) absent

/-- With both cursors at the marker, one line is written for it. -/
theorem joinLoop_marker (searchable1 : Searchable t1 c1) (searchable2 : Searchable t2 c2)
    (out : List JoinLine) :
    Returns (fun fuel => joinLoop t1 t2 fuel maxKeyValue maxKeyValue []) out ↔
      List.Forall₂ (LineFor t1 t2) [(maxKeyValue, maxKeyValue)] out := by
  rw [← Returns.succ_iff]
  simp only [joinLoop, and_self, if_true, List.nil_append, Exec.pure_eq_ok]
  rcases joinLine_cases searchable1 searchable2 maxKeyValue maxKeyValue with
    ⟨-, -, line, here⟩ | ⟨-, stuck⟩
  · refine (Returns.bind_iff here.run).trans ?_
    simp only [Exec.ok_bind]
    refine (Returns.bind_iff (advance_stop (lt_irrefl _))).trans
      ((Returns.bind_iff (advance_stop (lt_irrefl _))).trans ?_)
    simp only [or_self, if_true]
    refine Returns.const_iff.trans ⟨?_, fun written => ?_⟩
    · rintro rfl
      exact .cons here .nil
    · obtain ⟨line', rest, here', later, rfl⟩ := List.forall₂_cons_left_iff.mp written
      rw [List.forall₂_nil_left_iff.mp later, here.run.unique here'.run]
  · apply iff_of_false ((stuck.bind _).not_returns out)
    intro written
    obtain ⟨line, -, here, -, -⟩ := List.forall₂_cons_left_iff.mp written
    exact stuck.not_returns line here.run

/-- The call returns 0 with the lines of its loop. -/
theorem joinTable_iff (searchable1 : Searchable t1 c1) (searchable2 : Searchable t2 c2)
    (lines : List JoinLine) :
    Returns (fun fuel => joinTable fuel t1 t2) (0, lines) ↔
      Returns (fun fuel => joinLoop t1 t2 fuel (startKey c1) (startKey c2) []) lines := by
  simp only [joinTable, searchable1.findLeastKey_eq, searchable2.findLeastKey_eq, Exec.ok_bind]
  apply exists_congr
  intro enough
  apply forall_congr'
  intro fuel
  apply imp_congr_right
  intro _
  cases run : joinLoop t1 t2 fuel (startKey c1) (startKey c2) [] with
  | error e => simp [run]
  | ok out => simp [run]

theorem Chained.natural_iff (chained1 : Chained t1 c1) (chained2 : Chained t2 c2) :
    (∃ lines, Returns (fun fuel => joinTable fuel t1 t2) (0, lines) ∧
      NaturalJoin t1 t2 c1 c2 lines) ↔ JoinMatched t1 t2 c1 c2 := by
  have searchable1 := chained1.searchable
  have searchable2 := chained2.searchable
  simp only [joinTable_iff searchable1 searchable2, JoinMatched]
  split_ifs with both
  · -- both cursors at the marker: one line
    rw [both.1, both.2]
    simp only [joinLoop_marker searchable1 searchable2]
    have single : Diagonal (fun k => k ∈ c1.keys ∧ k ∈ c2.keys) [(maxKeyValue, maxKeyValue)] ↔
        ∀ k, k ∈ c1.keys ∧ k ∈ c2.keys ↔ k = maxKeyValue :=
      ⟨fun diagonal k => by simpa [eq_comm] using (diagonal.keys k).symm,
        fun only => ⟨by simp, fun k => by simpa [eq_comm] using (only k).symm⟩⟩
    rw [← single]
    constructor
    · rintro ⟨lines, written, join⟩
      exact (naturalJoin_iff written (List.pairwise_singleton _ _)).mp join
    · intro diagonal
      obtain ⟨lines, written⟩ := exists_lines searchable1 searchable2
        fun p member => (diagonal.keys p.1).mp ⟨p, member, rfl⟩
      exact ⟨lines, written, (naturalJoin_iff written (List.pairwise_singleton _ _)).mpr diagonal⟩
  · have trail1 := trail_spec chained1
    have trail2 := trail_spec chained2
    have sorted1 := trail_sorted chained1
    have sorted2 := trail_sorted chained2
    rw [← merge_natural_iff sorted1 sorted2 trail1.lt_max (trail_lost t1 c1) (trail_lost t2 c2)]
    simp only [joinLoop_iff searchable1 searchable2 trail1 trail2 both, List.nil_append]
    constructor
    · rintro ⟨lines, ⟨pairs, merge, _, written, rfl⟩, join⟩
      have ascending := merge.ascending sorted1 sorted2 trail1.lt_max
      exact ⟨pairs, merge, (naturalJoin_iff written ascending).mp join⟩
    · rintro ⟨pairs, merge, diagonal⟩
      have ascending := merge.ascending sorted1 sorted2 trail1.lt_max
      obtain ⟨lines, written⟩ := exists_lines searchable1 searchable2
        fun p member => (diagonal.keys p.1).mp ⟨p, member, rfl⟩
      exact ⟨lines, ⟨pairs, merge, lines, written, rfl⟩,
        (naturalJoin_iff written ascending).mpr diagonal⟩

/-- **`join_table` computes the natural join of two tables, of any height, if and only if they are
matched.** -/
theorem joinTable_natural_iff (chained1 : Chained t1 c1) (chained2 : Chained t2 c2) :
    (∃ lines, Returns (fun fuel => joinTable fuel t1 t2) (0, lines) ∧
      NaturalJoin t1 t2 c1 c2 lines) ↔ JoinMatched t1 t2 c1 c2 :=
  chained1.natural_iff chained2

end Join

/-- A table of one leaf. -/
def leafStore (keys : List Key) : Store :=
  ⟨some ⟨0, leaf 1 (keys.map fun k => (k, default))⟩, ⟨[], 2⟩⟩

theorem leafStore_chained {keys : List Key} (some_ : 1 ≤ keys.length) (fits : keys.length ≤ 31)
    (sorted : keys.Pairwise (· < ·)) : Chained (tableOf (leafStore keys)) (leafStore keys).tree := by
  have sound : (leafStore keys).Sound := by
    refine ⟨⟨by simp [leafStore], List.Perm.refl _⟩, ?_⟩
    rintro _ _ ⟨⟩
    simpa [Fill, size] using fits
  refine (tableOf_represents sound).chained ?_
  rintro _ _ ⟨⟩
  refine ⟨⟨trivial, by simpa [size] using some_, by simpa [size] using fits, ?_⟩, trivial⟩
  simpa [LeavesSorted, leaves_zero, PageTree.keys, records_zero, Function.comp_def] using sorted

/-- The common keys 1 and 3 are joined; the right cursor comes by 2 as well. -/
theorem joinTable_natural_three :
    ∃ lines, Returns (fun fuel => joinTable fuel (tableOf (leafStore [1, 3]))
        (tableOf (leafStore [1, 2, 3]))) (0, lines) ∧
      NaturalJoin (tableOf (leafStore [1, 3])) (tableOf (leafStore [1, 2, 3]))
        (leafStore [1, 3]).tree (leafStore [1, 2, 3]).tree lines := by
  refine (joinTable_natural_iff (leafStore_chained (by decide) (by decide) (by decide))
    (leafStore_chained (by decide) (by decide) (by decide))).mpr ?_
  have left : trail (tableOf (leafStore [1, 3])) (leafStore [1, 3]).tree = ([1, 3], true) := by decide
  have right : trail (tableOf (leafStore [1, 2, 3])) (leafStore [1, 2, 3]).tree =
      ([1, 2, 3], true) := by decide
  rw [JoinMatched, if_neg (by decide), left, right]
  refine ⟨fun k both => both, fun y _ a least _ => ⟨least.1.1, ?_⟩, by simp, rfl⟩
  have member : a = 1 ∨ a = 3 := by simpa using least.1.1
  rcases member with rfl | rfl <;> decide

/-- The right cursor passes from 1 over the left one's key 2, and 2 is looked up in the table
that does not hold it. -/
theorem joinTable_overshoots :
    Chained (tableOf (leafStore [2])) (leafStore [2]).tree ∧
    Chained (tableOf (leafStore [1, 3])) (leafStore [1, 3]).tree ∧
    ¬ ∃ lines, Returns (fun fuel => joinTable fuel (tableOf (leafStore [2]))
        (tableOf (leafStore [1, 3]))) (0, lines) ∧
      NaturalJoin (tableOf (leafStore [2])) (tableOf (leafStore [1, 3]))
        (leafStore [2]).tree (leafStore [1, 3]).tree lines := by
  have left : Chained (tableOf (leafStore [2])) (leafStore [2]).tree :=
    leafStore_chained (by decide) (by decide) (by decide)
  have right : Chained (tableOf (leafStore [1, 3])) (leafStore [1, 3]).tree :=
    leafStore_chained (by decide) (by decide) (by decide)
  refine ⟨left, right, ?_⟩
  have trail1 : trail (tableOf (leafStore [2])) (leafStore [2]).tree = ([2], true) := by decide
  have trail2 : trail (tableOf (leafStore [1, 3])) (leafStore [1, 3]).tree = ([1, 3], true) := by decide
  rw [left.natural_iff right, JoinMatched, if_neg (by decide), trail1, trail2]
  intro matched
  have start : IsLeast {z : Key | z ∈ [1, 3]} 1 := isLeast_head (by decide)
  have stop : IsLeast {k : Key | k ∈ [2] ∧ 1 ≤ k} 2 :=
    ⟨by decide, fun k inside => (List.mem_singleton.mp inside.1).ge⟩
  have common := matched.meets 1 (.inl start) 2 stop ⟨3, by decide, by decide⟩
  exact absurd common.2 (by decide)

end SimpleDatabase.Kernel
