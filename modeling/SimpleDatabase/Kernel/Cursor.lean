/- Kernel.Cursor -- the keys a cursor of `join_table` comes by

A cursor starts at `find_least_key` and moves by `get_next_record`.  `Trail t k ks
ends` says that from `k` on it comes by the keys `ks` below `MAX_KEY_VALUE`, and
whether the step behind the last of them is defined.

`trail` reads a table's trail off its tree.  Up to height one it is all keys below
`MAX_KEY_VALUE`.  A taller tree's starts at a separator: if a leaf still holds it, the
trail is the keys from there on; if only an unused slot does, the rest of that leaf is
skipped; if no slot does, the first step is undefined.
-/
import SimpleDatabase.Kernel.Invariant
import SimpleDatabase.Kernel.NextRecord
import SimpleDatabase.Theory.Ascending
import SimpleDatabase.Theory.MergeJoin

namespace SimpleDatabase.Kernel

open SimpleDatabase.Theory SimpleDatabase.Theory.PageTree SimpleDatabase.Project5 Page

set_option autoImplicit false

/-- A cursor at the first key comes by the keys of the list. -/
inductive Trail (t : Table) : Key → List Key → Bool → Prop
  | ended : Trail t maxKeyValue [] true
  | lost {k : Key} : k < maxKeyValue → (Stuck fun fuel => getNextRecord fuel t k) →
      Trail t k [k] false
  | step {k next : Key} {ks : List Key} {ends : Bool} : k < maxKeyValue →
      Returns (fun fuel => getNextRecord fuel t k) next → Trail t next ks ends →
      Trail t k (k :: ks) ends

/-! ## Moving up -/

section Advance

variable {t : Table} {k next b r : Key}

theorem advance_stop (high : ¬ k < b) : Returns (fun fuel => advance t fuel k b) k := by
  rw [← Returns.succ_iff]
  simp only [advance, if_neg high]
  exact Returns.const_iff.mpr rfl

theorem advance_step (low : k < b) (move : Returns (fun fuel => getNextRecord fuel t k) next)
    (rest : Returns (fun fuel => advance t fuel next b) r) :
    Returns (fun fuel => advance t fuel k b) r := by
  rw [← Returns.succ_iff]
  simp only [advance, if_pos low]
  exact move.bind rest

namespace Trail

variable {ks : List Key} {ends : Bool}

theorem eq_headD (trail : Trail t k ks ends) : ks.headD maxKeyValue = k := by
  cases trail <;> rfl

theorem lt_max (trail : Trail t k ks ends) : ∀ x ∈ ks, x < maxKeyValue := by
  induction trail with
  | ended => simp
  | lost low => simpa using low
  | step low _ _ ih => simpa using ⟨low, ih⟩

/-- A trail without keys has come to its end. -/
theorem more (trail : Trail t k ks ends) : ks ≠ [] ∨ ends = true := by
  cases trail <;> simp

/-- The `while` loops stop at the first key of the trail that is not below the bound. -/
theorem advance (trail : Trail t k ks ends) (b : Key) (defined : atLeast b ks ≠ [] ∨ ends = true) :
    Returns (fun fuel => Project5.advance t fuel k b) ((atLeast b ks).headD maxKeyValue) ∧
      Trail t ((atLeast b ks).headD maxKeyValue) (atLeast b ks) ends := by
  induction trail with
  | ended => exact ⟨advance_stop (not_lt.mpr (le_maxKeyValue b)), .ended⟩
  | @lost k top stuck =>
      by_cases low : k < b
      · simp [atLeast, low] at defined
      · simp only [atLeast, List.dropWhile_cons, low, decide_false, Bool.false_eq_true, if_false]
        exact ⟨advance_stop low, .lost top stuck⟩
  | @step k next ks ends top move rest ih =>
      by_cases low : k < b
      · simp only [atLeast, List.dropWhile_cons, low, decide_true, if_true] at defined ⊢
        obtain ⟨run, stop⟩ := ih defined
        exact ⟨advance_step low move run, stop⟩
      · simp only [atLeast, List.dropWhile_cons, low, decide_false, Bool.false_eq_true, if_false]
        exact ⟨advance_stop low, .step top move rest⟩

/-- They fault where the trail is lost before that. -/
theorem advance_stuck (trail : Trail t k ks ends) (b : Key) (lost : ends = false)
    (stop : atLeast b ks = []) : Stuck fun fuel => Project5.advance t fuel k b := by
  induction trail with
  | ended => cases lost
  | @lost k top stuck =>
      have low : k < b := by simpa [atLeast, List.dropWhile_cons] using stop
      refine Stuck.of_succ ?_
      simp only [Project5.advance, if_pos low]
      exact stuck.bind _
  | @step k next ks ends top move rest ih =>
      by_cases low : k < b
      · refine Stuck.of_succ ?_
        simp only [Project5.advance, if_pos low]
        simp only [atLeast, List.dropWhile_cons, low, decide_true, if_true] at stop
        exact Stuck.after move (ih lost stop)
      · simp [atLeast, low] at stop

/-- What comes after the `while` loop starts where the trail stops, if it does. -/
theorem bind_advance_iff {α : Type} (trail : Trail t k ks ends) (b : Key) {g : Nat → Key → Exec α}
    {out : α} :
    Returns (fun fuel => Project5.advance t fuel k b >>= g fuel) out ↔
      (atLeast b ks ≠ [] ∨ ends = true) ∧
        Returns (fun fuel => g fuel ((atLeast b ks).headD maxKeyValue)) out := by
  by_cases defined : atLeast b ks ≠ [] ∨ ends = true
  · rw [Returns.bind_iff (trail.advance b defined).1]
    exact (and_iff_right defined).symm
  · refine iff_of_false ?_ fun both => defined both.1
    rw [not_or, not_not, Bool.not_eq_true] at defined
    exact ((trail.advance_stuck b defined.2 defined.1).bind _).not_returns out

end Trail

end Advance

/-! ## The trail of a table -/

/-- Empty, or a search-ordered tree whose leaves are sorted and chained. -/
def Chained (t : Table) : Contents → Prop
  | none => getRootpgnum t = 0
  | some ⟨_, s⟩ => ChainedTree t s

/-- The keys below `MAX_KEY_VALUE` that the cursor of a table comes by, and whether it can step
behind the last. -/
def trail (t : Table) : Contents → List Key × Bool
  | none => ([], true)
  | some ⟨h, s⟩ =>
      let start := startKey (some ⟨h, s⟩)
      if start ∈ s.keys then (s.keys.filter fun x => start ≤ x ∧ x < maxKeyValue, true)
      else if start ∈ slotKeys t s start then
        (start :: (beyond s start).filter (· < maxKeyValue), true)
      else ([start], false)

theorem Chained.searchable {t : Table} {c : Contents} (chained : Chained t c) : Searchable t c := by
  match c, chained with
  | none, empty => exact empty
  | some ⟨_, s⟩, chained => exact ⟨chained.held, chained.ordered, chained.keyed⟩

/-- The table of a well-formed store. -/
theorem Represents.chained {t : Table} {st : Store} (represents : Represents t st)
    (wellFormed : st.WellFormed) : Chained t st.tree := by
  cases tree : st.tree with
  | none =>
      have root := represents.root
      rw [tree] at root
      exact root
  | some s =>
      obtain ⟨h, s⟩ := s
      have good := wellFormed h s tree
      exact represents.chainedTree tree good.ordered (good.keyed least_pos) good.sorted

namespace ChainedTree

variable {t : Table} {h : Nat} {s : Tree h}

/-- From any key on, the trail is the keys from there. -/
theorem trail_suffix (chained : ChainedTree t s) {before after : List Key}
    (split : s.keys = before ++ after) :
    Trail t (after.headD maxKeyValue) (after.filter (· < maxKeyValue)) true := by
  induction after generalizing before with
  | nil => exact .ended
  | cons k after ih =>
      have sorted := chained.keys_sorted
      rw [split, List.pairwise_append, List.pairwise_cons] at sorted
      rcases (le_maxKeyValue k).eq_or_lt with rfl | low
      · -- no key comes after the marker
        have last : after = [] := List.eq_nil_iff_forall_not_mem.mpr fun x member =>
          absurd (sorted.2.1.1 x member) (not_lt.mpr (le_maxKeyValue x))
        rw [last]
        simpa using Trail.ended
      · rw [List.filter_cons_of_pos (by simpa using low)]
        have later : s.keys = (before ++ [k]) ++ after := by
          rw [split, List.append_assoc, List.singleton_append]
        exact .step low (chained.getNextRecord_held split) (ih later)

/-- The keys from a stored one on. -/
theorem filter_le (chained : ChainedTree t s) {before after : List Key} {key : Key}
    (split : s.keys = before ++ key :: after) :
    (s.keys.filter fun x => key ≤ x ∧ x < maxKeyValue) =
      (key :: after).filter (· < maxKeyValue) := by
  rw [← filter_le_of_ascending chained.keys_sorted split, List.filter_filter]
  simp only [Bool.decide_and, Bool.and_comm]

end ChainedTree

section Spec

variable {t : Table} {c : Contents} (chained : Chained t c)

include chained

/-- Some key of a tree is not below the key its cursor starts at. -/
theorem startKey_le {h : Nat} {s : Tree h} (tree : c = some ⟨h, s⟩) : ∃ x ∈ s.keys, startKey c ≤ x := by
  subst tree
  have chained : ChainedTree t s := chained
  have first := least_of_head chained.keys_sorted chained.keyed.stocked.exists_key maxKeyValue
  match h, s with
  | 0, s => exact ⟨_, first.1, le_rfl⟩
  | 1, s => exact ⟨_, first.1, le_rfl⟩
  | h + 2, s => exact (startKey_tall chained.ordered chained.keyed).2

/-- The cursor of a table comes by its trail. -/
theorem trail_spec : Trail t (startKey c) (trail t c).1 (trail t c).2 := by
  cases c with
  | none => exact .ended
  | some tree =>
      obtain ⟨h, s⟩ := tree
      obtain ⟨x, member, le⟩ := startKey_le chained rfl
      have chained : ChainedTree t s := chained
      simp only [trail]
      split_ifs with held there
      · obtain ⟨before, after, split⟩ := List.append_of_mem held
        rw [chained.filter_le split]
        exact chained.trail_suffix split
      · -- some key is above the start, so this is not the marker
        have low := (le.lt_of_ne fun same => held (same ▸ member)).trans_le (le_maxKeyValue x)
        obtain ⟨before, pre, post, -, -, split⟩ := chained.beyond_eq (startKey (some ⟨h, s⟩))
        exact .step low (chained.getNextRecord_left held there) (chained.trail_suffix split)
      · have low := (le.lt_of_ne fun same => held (same ▸ member)).trans_le (le_maxKeyValue x)
        exact .lost low (chained.getNextRecord_absent there)

theorem trail_sorted : (trail t c).1.Pairwise (· < ·) := by
  cases c with
  | none => exact List.Pairwise.nil
  | some tree =>
      obtain ⟨h, s⟩ := tree
      have chained : ChainedTree t s := chained
      have sorted := chained.keys_sorted
      simp only [trail]
      split_ifs
      · exact sorted.filter _
      · refine List.pairwise_cons.mpr ⟨fun x member => ?_, (sorted.filter _).filter _⟩
        have inside := (List.mem_filter.mp (List.mem_filter.mp member).1).2
        exact (of_decide_eq_true inside).1
      · exact List.pairwise_singleton _ _

end Spec

/-- A trail that is lost has one key. -/
theorem trail_lost (t : Table) (c : Contents) (lost : (trail t c).2 = false) :
    ∃ k, (trail t c).1 = [k] := by
  cases c with
  | none => cases lost
  | some tree =>
      obtain ⟨h, s⟩ := tree
      simp only [trail] at lost ⊢
      split_ifs at lost ⊢
      exact ⟨_, rfl⟩

end SimpleDatabase.Kernel
