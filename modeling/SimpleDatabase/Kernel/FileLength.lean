/- Kernel.FileLength -- how long the table file gets

The file grows by `FREEPAGE_GROW_RATE` pages, and only when no page is free.  Over a whole run
of safe calls this makes its length that of the blocks which the most pages ever in use fill
(`tableRun_length`): what deletions give back is used again before anything is added.  And the
pages in use are few, because those that deletions leave are not empty (`tableRun_compact`).
-/
import SimpleDatabase.Kernel.Occupancy
import SimpleDatabase.Theory.HighWater

namespace SimpleDatabase.Kernel

open SimpleDatabase.Theory SimpleDatabase.Theory.Alloc SimpleDatabase.Theory.PageTree SimpleDatabase.Project5

set_option autoImplicit false

variable {t t' : Table} {st : Store} {k : Key} {v : Value}

/-! ## What a call makes of the books -/

theorem Store.insert_alloc (st : Store) (k : Key) (v : Value) :
    ∃ n, (st.insert k v).alloc = st.alloc.taken freepageGrowRate n := by
  obtain ⟨tree, a⟩ := st
  cases tree with
  | none => exact ⟨1, rfl⟩
  | some tree =>
      obtain ⟨h, s⟩ := tree
      obtain ⟨n, below⟩ : ∃ n, (growTree k v s a).alloc = a.taken freepageGrowRate n := grow_alloc s a
      simp only [Store.insert]
      cases (growTree k v s a).grown with
      | one s' => exact ⟨n, below⟩
      | two l sep r =>
          refine ⟨n + 1, ?_⟩
          rw [taken, Function.iterate_succ_apply', ← taken, ← below]

theorem Store.delete_alloc (st : Store) (k : Key) : st.alloc.Given (st.delete k).alloc := by
  obtain ⟨tree, a⟩ := st
  cases tree with
  | none => exact .refl a
  | some tree =>
      obtain ⟨h, s⟩ := tree
      have below : a.Given (shrinkTree k s a).alloc := shrink_alloc s a
      simp only [Store.delete]
      cases (shrinkTree k s a).shrunk with
      | kept s' => exact below
      | lost s' =>
          cases h with
          | zero =>
              simp only [dropRoot]
              split
              · exact below
              · exact below.give s'.pg
          | succ h =>
              simp only [dropRoot]
              split
              · exact below
              · exact below.give s'.pg

/-- So many pages are the tree's. -/
def InUse (t : Table) (n : Nat) : Prop := ∃ st, Represents t st ∧ st.tree.pages.length = n

theorem Represents.books (represents : Represents t st) :
    st.tree.pages.length + st.alloc.free.length + 1 = st.alloc.num := by
  have length := represents.heap.accounts.perm.length_eq
  have pos := represents.heap.accounts.pos
  rw [List.length_append, List.length_range'] at length
  omega

/-- The table holds a well-formed store, whose books are at this mark. -/
def AtMark (t : Table) (peak : Nat) : Prop :=
  ∃ st, Represents t st ∧ st.WellFormed ∧ HighWater freepageGrowRate st.alloc st.tree.pages.length peak

/-- **A call moves the mark only to what is in use after it.** -/
theorem AtMark.step {peak : Nat} {op : Op} {r : Reply} (mark : AtMark t peak) (step : SafeStep t (op, r) t') :
    ∃ n, InUse t' n ∧ AtMark t' (max peak n) := by
  obtain ⟨st, represents, wellFormed, high⟩ := mark
  obtain ⟨represents, wellFormed⟩ := step.after represents wellFormed
  refine ⟨_, ⟨_, represents, rfl⟩, _, represents, wellFormed, ?_⟩
  have books := represents.books
  have same : HighWater freepageGrowRate st.alloc st.tree.pages.length (max peak st.tree.pages.length) := by
    rw [Nat.max_eq_left high.below]
    exact high
  cases op with
  | insert k v =>
      simp only [Store.after, Store.put] at books ⊢
      split
      · next held => exact same
      · next absent =>
          rw [if_neg absent] at books
          obtain ⟨n, alloc⟩ := st.insert_alloc k v
          have high := high.taken (by decide) n
          rw [← alloc] at high
          have used : st.tree.pages.length + n = (st.insert k v).tree.pages.length := by
            have := high.books
            omega
          rwa [used] at high
  | find k retVal => exact same
  | delete k =>
      simp only [Store.after] at books ⊢
      split
      · next held =>
          rw [if_pos held] at books
          have high := high.given (st.delete_alloc k) books
          rw [Nat.max_eq_left high.below]
          exact high
      · next absent => exact same

/-! ## Runs -/

/-- A call, beside the most pages that have been in use so far. -/
def PeakStep (s : Table × Nat) (call : Op × Reply) (s' : Table × Nat) : Prop :=
  SafeStep s.1 call s'.1 ∧ ∃ n, InUse s'.1 n ∧ s'.2 = max s.2 n

/-- **The file is as long as its largest load asked for**: its pages are the header and the blocks that
the most pages ever in use fill. -/
theorem tableRun_length {junk : Page} {t₀ : Table} {calls : List (Op × Reply)}
    (run : Run SafeStep (freshTable junk t₀) calls t) :
    ∃ peak, Run PeakStep (freshTable junk t₀, 0) calls (t, peak) ∧
      getNumofpages t = 1 + freepageGrowRate * ((peak + freepageGrowRate - 1) / freepageGrowRate) := by
  have start : AtMark (freshTable junk t₀) 0 :=
    ⟨_, freshTable_represents junk t₀, (fun _ _ tree => nomatch tree), rfl, rfl, Nat.le_refl 0⟩
  have simulates : ∀ (t : Table) (s : Table × Nat) (call : Op × Reply) (t' : Table),
      (t = s.1 ∧ AtMark t s.2) → SafeStep t call t' → ∃ s', PeakStep s call s' ∧ (t' = s'.1 ∧ AtMark t' s'.2) := by
    rintro t ⟨_, peak⟩ call t' ⟨rfl, mark⟩ step
    obtain ⟨n, used, mark⟩ := mark.step step
    exact ⟨(t', max peak n), ⟨step, n, used, rfl⟩, rfl, mark⟩
  obtain ⟨⟨u, peak⟩, peaks, rfl, mark⟩ := run.simulation simulates (a := (freshTable junk t₀, 0)) ⟨rfl, start⟩
  obtain ⟨st, represents, -, high⟩ := mark
  exact ⟨peak, peaks, represents.heap.num.trans high.length⟩

theorem tableRun_length_sample : ∃ calls t peak, Run PeakStep (freshTable default default, 0) calls (t, peak) ∧
    calls.map Prod.fst = sampleOps ∧
      getNumofpages t = 1 + freepageGrowRate * ((peak + freepageGrowRate - 1) / freepageGrowRate) := by
  obtain ⟨calls, t, run, ops⟩ := sampleRun
  obtain ⟨peak, peaks, length⟩ := tableRun_length run
  exact ⟨calls, t, peak, peaks, ops, length⟩

/-! ## How many pages are in use -/

/-- A leaf for four records at least, and a page above for 33 of those. -/
theorem WellFormedTree.pages_le {h : Nat} {s : Tree h} (wellFormed : WellFormedTree s) :
    s.pages.length ≤ s.records.length / 4 + s.records.length / 128 + 1 := by
  cases h with
  | zero => exact Nat.le_add_left _ _
  | succ h =>
      have pages := wellFormed.below.pages_le (fun h => show least (h + 1) = 32 from rfl) wellFormed.pos
      have leaves := wellFormed.below.leaves_le
      have four : least 0 = 4 := rfl
      rw [four] at leaves
      omega

/-- **A table stays compact**: whatever has been inserted and deleted, it takes a page for four
records, and little more. -/
theorem tableRun_compact {junk : Page} {t₀ : Table} {calls : List (Op × Reply)}
    (run : Run SafeStep (freshTable junk t₀) calls t) :
    ∃ (m : Key → Option Value) (keys : Finset Key) (n : Nat), Run MapStep (fun _ => none) calls m ∧
      (∀ k, k ∈ keys ↔ (m k).isSome) ∧ InUse t n ∧ n ≤ keys.card / 4 + keys.card / 128 + 1 := by
  obtain ⟨m, spec, st, represents, wellFormed, rfl⟩ := run.simulation Agrees.step (agrees_fresh junk t₀)
  refine ⟨st.lookup, st.tree.keys.toFinset, _, spec, fun k => ?_, ⟨st, represents, rfl⟩, ?_⟩
  · rw [List.mem_toFinset, ← not_iff_not, ← wellFormed.absent_iff]
    simp
  · rw [List.toFinset_card_of_nodup wellFormed.keys_nodup, Contents.keys_eq, List.length_map]
    obtain ⟨tree, a⟩ := st
    cases tree with
    | none => exact Nat.zero_le _
    | some tree => exact (wellFormed tree.1 tree.2 rfl).pages_le

theorem tableRun_compact_sample : ∃ calls t, Run SafeStep (freshTable default default) calls t ∧
    calls.map Prod.fst = sampleOps ∧
    ∃ (m : Key → Option Value) (keys : Finset Key) (n : Nat), Run MapStep (fun _ => none) calls m ∧
      (∀ k, k ∈ keys ↔ (m k).isSome) ∧ InUse t n ∧ n ≤ keys.card / 4 + keys.card / 128 + 1 := by
  obtain ⟨calls, t, run, ops⟩ := sampleRun
  exact ⟨calls, t, run, ops, tableRun_compact run⟩

end SimpleDatabase.Kernel
