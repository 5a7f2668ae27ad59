/- Kernel.Scan -- all keys from a stored one on

`get_next_record` reads on from a key, not from a position, so a scan makes a new
descent for every key.  It comes by every greater key nevertheless, in order and each
once (`scan_complete`), and the `while` loops of `join_table` stop where they should
(`advance_seeks`).  `MAX_KEY_VALUE` says that there are no more keys, unless it is the
last of them.
-/
import SimpleDatabase.Kernel.Cursor

namespace SimpleDatabase.Kernel

open SimpleDatabase.Theory SimpleDatabase.Theory.PageTree SimpleDatabase.Project5 Page

set_option autoImplicit false

/-- Calling `get_next_record` again and again, from a key on, gives the keys of the list and
then `MAX_KEY_VALUE`. -/
inductive Scan (t : Table) : Key → List Key → Prop
  | last {key : Key} : Returns (fun fuel => getNextRecord fuel t key) maxKeyValue → Scan t key []
  | next {key next : Key} {more : List Key} :
      Returns (fun fuel => getNextRecord fuel t key) next → Scan t next more → Scan t key (next :: more)

namespace ChainedTree

variable {t : Table} {h : Nat} {s : Tree h} {key : Key}

theorem scan_after (chained : ChainedTree t s) {before after : List Key}
    (split : s.keys = before ++ key :: after) : Scan t key after := by
  induction after generalizing before key with
  | nil =>
      apply Scan.last
      exact chained.getNextRecord_held split
  | cons next after ih =>
      apply Scan.next
      · exact chained.getNextRecord_held split
      · have later : s.keys = (before ++ [key]) ++ next :: after := by
          rw [split, List.append_assoc, List.singleton_append]
        exact ih later

/-- **A scan from a stored key finds all greater keys**, in ascending order. -/
theorem scan_complete (chained : ChainedTree t s) (stored : key ∈ s.keys) :
    ∃ later, s.keys.filter (key ≤ ·) = key :: later ∧ Scan t key later ∧
      (key :: later).Pairwise (· < ·) := by
  obtain ⟨before, after, split⟩ := List.append_of_mem stored
  have here := filter_le_of_ascending chained.keys_sorted split
  refine ⟨after, here, chained.scan_after split, ?_⟩
  rw [← here]
  exact chained.keys_sorted.sublist List.filter_sublist

theorem advance_split (chained : ChainedTree t s) {before after : List Key}
    (split : s.keys = before ++ key :: after) (bound : Key) :
    Returns (fun fuel => advance t fuel key bound)
      (((key :: after).filter (bound ≤ ·)).headD maxKeyValue) := by
  induction after generalizing before key with
  | nil =>
      by_cases low : key < bound
      · have none_ : [key].filter (bound ≤ ·) = [] := by simpa using low
        rw [none_]
        apply advance_step low (chained.getNextRecord_held split)
        exact advance_stop (not_lt.mpr (le_maxKeyValue bound))
      · rw [List.filter_cons_of_pos (by simpa using low)]
        exact advance_stop low
  | cons next after ih =>
      by_cases low : key < bound
      · rw [List.filter_cons_of_neg (by simpa using low)]
        apply advance_step low (chained.getNextRecord_held split)
        have later : s.keys = (before ++ [key]) ++ next :: after := by
          rw [split, List.append_assoc, List.singleton_append]
        exact ih later
      · rw [List.filter_cons_of_pos (by simpa using low)]
        exact advance_stop low

/-- **The `while` loops of `join_table` seek**: from a stored key on, they stop at the first
key that is not below the bound, and at `MAX_KEY_VALUE` if there is none. -/
theorem advance_seeks (chained : ChainedTree t s) (stored : key ∈ s.keys) (bound : Key) :
    Returns (fun fuel => advance t fuel key bound)
      (((s.keys.filter (key ≤ ·)).filter (bound ≤ ·)).headD maxKeyValue) := by
  obtain ⟨before, after, split⟩ := List.append_of_mem stored
  rw [filter_le_of_ascending chained.keys_sorted split]
  exact chained.advance_split split bound

end ChainedTree

/-- From the only key of the first leaf to the two of the second. -/
theorem scan_complete_sample : ∃ later, sampleTree.keys.filter (1 ≤ ·) = 1 :: later ∧
    Scan (tableOf sampleStore) 1 later ∧ (1 :: later).Pairwise (· < ·) :=
  sampleTree_chained.scan_complete (by decide)

theorem advance_seeks_sample : Returns (fun fuel => advance (tableOf sampleStore) fuel 1 6)
    (((sampleTree.keys.filter (1 ≤ ·)).filter (6 ≤ ·)).headD maxKeyValue) :=
  sampleTree_chained.advance_seeks (by decide) 6

end SimpleDatabase.Kernel
