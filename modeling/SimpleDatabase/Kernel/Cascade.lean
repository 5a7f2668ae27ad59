/- Kernel.Cascade -- the calls `delete_entry` makes of itself

A call of `delete_entry` takes an entry out of a page.  If the page is below the root and
has then too few keys, the call goes on with a neighbour (`Settles`): where the two have
too many keys to be one page it redistributes them and ends, and otherwise it merges them
and makes another call, for the parent (`Recurs`).  A call makes one other call at most, so
the calls of a deletion are a path, from the leaf up.
-/
import SimpleDatabase.Kernel.Pages
import SimpleDatabase.Theory.Run

namespace SimpleDatabase.Kernel

open SimpleDatabase.Theory SimpleDatabase.Project5 Page

set_option autoImplicit false

/-- The arguments of a call of `delete_entry`. -/
structure DeleteCall where
  table : Table
  pgnum : Pgnum
  key : Key

namespace DeleteCall

def run (bounds : Bounds) (c : DeleteCall) (fuel : Nat) : Exec Table :=
  deleteEntry bounds fuel c.table c.pgnum c.key

/-- The key scan of `remove_entry_from_page`, which has no bound of its own, stops at one
of the page's keys. -/
def ScanInside (c : DeleteCall) : Prop :=
  ∃ i, i < (c.table c.pgnum).numofkeys ∧
    if (c.table c.pgnum).isLeaf = 1 then
      leafRecord.seek (c.table c.pgnum) (fun r => r.1 = c.key) = .ok i
    else internalRecord.seek (c.table c.pgnum) (fun r => r.1 = c.key) = .ok i

/-- With the entry out, `page` is what is left of a page below the root, and has too few
keys: the call goes on with a neighbour. -/
structure Settles (bounds : Bounds) (c : DeleteCall) (page : Page) (neighborNum : Pgnum)
    (i : Int) : Prop where
  removed : removeEntryFromPage (c.table c.pgnum) c.key = .ok page
  inner : c.pgnum ≠ getRootpgnum c.table
  few : page.numofkeys ≤ if page.isLeaf = 1 then maxLeafKey / 8 else maxInternalKey / 8
  index : getNeighborIndex (c.table page.parentPgnum) c.pgnum = .ok i
  neighbor : childAt bounds (c.table page.parentPgnum)
    (if i = -1 then ((c.table page.parentPgnum).numofkeys : Int) - 2 else i) = .ok neighborNum

/-- The page and its neighbour have few enough keys together to be merged. -/
def Mergeable (c : DeleteCall) (page : Page) (neighborNum : Pgnum) : Prop :=
  (c.table neighborNum).numofkeys + page.numofkeys <
    if page.isLeaf = 1 then maxLeafKey / 2 else maxInternalKey / 2

instance (c : DeleteCall) (page : Page) (neighborNum : Pgnum) :
    Decidable (c.Mergeable page neighborNum) :=
  inferInstanceAs (Decidable (_ < _))

/-- The call merges the page with its neighbour, and makes another for the parent. -/
inductive Recurs (bounds : Bounds) : DeleteCall → DeleteCall → Prop
  | merge {c : DeleteCall} {page : Page} {neighborNum : Pgnum} {i : Int} {m : Merge}
      (settles : Settles bounds c page neighborNum i) (small : c.Mergeable page neighborNum)
      (merged : mergePages (fileWritePage c.table c.pgnum page) c.pgnum neighborNum i = .ok m) :
      Recurs bounds c ⟨m.table, m.parentPgnum, m.kPrime⟩

/-- The call returns the table `u` without making another. -/
structure Ends (bounds : Bounds) (c : DeleteCall) (u : Table) : Prop where
  returns : ∀ fuel, c.run bounds (fuel + 1) = .ok u
  last : ∀ c', ¬ Recurs bounds c c'

/-- The calls from `c` on lead to `c'`, and their scans stop inside their pages. -/
abbrev Climbs (bounds : Bounds) (c c' : DeleteCall) : Prop :=
  Along (Recurs bounds) ScanInside c c'

variable {bounds : Bounds} {c c' c'' : DeleteCall} {page page' : Page} {neighborNum neighborNum' : Pgnum}
  {i i' : Int} {u : Table}

theorem Settles.unique (first : Settles bounds c page neighborNum i)
    (second : Settles bounds c page' neighborNum' i') :
    page = page' ∧ neighborNum = neighborNum' ∧ i = i' := by
  obtain rfl : page = page' := Except.ok.inj (first.removed.symm.trans second.removed)
  obtain rfl : i = i' := Except.ok.inj (first.index.symm.trans second.index)
  exact ⟨rfl, Except.ok.inj (first.neighbor.symm.trans second.neighbor), rfl⟩

theorem Settles.run (settles : Settles bounds c page neighborNum i) (fuel : Nat) :
    c.run bounds (fuel + 1) =
      if c.Mergeable page neighborNum then
        coalescePages bounds fuel (fileWritePage c.table c.pgnum page) c.pgnum neighborNum i
      else redistributePages (fileWritePage c.table c.pgnum page) c.pgnum neighborNum i := by
  simp only [DeleteCall.run, deleteEntry, fileReadPage, settles.removed, Exec.ok_bind]
  rw [if_neg settles.inner, if_neg (Nat.not_lt.mpr settles.few), settles.index, Exec.ok_bind,
    settles.neighbor, Exec.ok_bind]
  rfl

/-- What a merging call returns is what the other returns. -/
theorem Recurs.run (recurs : Recurs bounds c c') (fuel : Nat) :
    c.run bounds (fuel + 2) = c'.run bounds fuel := by
  obtain ⟨settles, small, merged⟩ := recurs
  rw [settles.run (fuel + 1), if_pos small, coalescePages, merged]
  rfl

theorem Recurs.unique (first : Recurs bounds c c') (second : Recurs bounds c c'') : c' = c'' := by
  obtain ⟨settles, -, merged⟩ := first
  obtain ⟨settles', -, merged'⟩ := second
  obtain ⟨rfl, rfl, rfl⟩ := settles.unique settles'
  cases merged.symm.trans merged'
  rfl

theorem Climbs.run (path : Climbs bounds c c') :
    ∃ n, ∀ fuel, c.run bounds (fuel + n) = c'.run bounds fuel := by
  induction path with
  | stop => exact ⟨0, fun fuel => rfl⟩
  | go _ first _ ih =>
      obtain ⟨n, rest⟩ := ih
      exact ⟨n + 2, fun fuel => by rw [← Nat.add_assoc, first.run, rest]⟩

/-- Where the last call ends, so does the first. -/
theorem Climbs.returns (path : Climbs bounds c c') (ends : Ends bounds c' u) :
    Returns (c.run bounds) u := by
  obtain ⟨n, rest⟩ := path.run
  apply Returns.of_le (n + 1)
  intro fuel
  rw [Nat.add_comm n 1, ← Nat.add_assoc, rest, ends.returns]

/-- ... and no scan of any call passes its page. -/
theorem Climbs.inside (path : Climbs bounds c c') (ends : Ends bounds c' u) {d : DeleteCall}
    (reached : Relation.ReflTransGen (Recurs bounds) c d) : d.ScanInside :=
  path.all_reached ends.last (fun _ _ _ => Recurs.unique) reached

/-! ## Where a call ends -/

/-- At the root. -/
theorem ends_at_root (removed : removeEntryFromPage (c.table c.pgnum) c.key = .ok page)
    (root : c.pgnum = getRootpgnum c.table) :
    Ends bounds c (adjustRoot (fileWritePage c.table c.pgnum page) c.pgnum) where
  returns fuel := by
    simp only [DeleteCall.run, deleteEntry, fileReadPage, removed, Exec.ok_bind]
    rw [if_pos root]
    rfl
  last := fun _ ⟨settles, _, _⟩ => settles.inner root

/-- With enough keys. -/
theorem ends_with_enough (removed : removeEntryFromPage (c.table c.pgnum) c.key = .ok page)
    (inner : c.pgnum ≠ getRootpgnum c.table)
    (enough : (if page.isLeaf = 1 then maxLeafKey / 8 else maxInternalKey / 8) < page.numofkeys) :
    Ends bounds c (fileWritePage c.table c.pgnum page) where
  returns fuel := by
    simp only [DeleteCall.run, deleteEntry, fileReadPage, removed, Exec.ok_bind]
    rw [if_neg inner, if_pos enough]
    rfl
  last := by
    rintro _ ⟨settles, -, -⟩
    obtain rfl := Except.ok.inj (removed.symm.trans settles.removed)
    exact absurd settles.few (Nat.not_le.mpr enough)

/-- With a neighbour that has too many keys to merge. -/
theorem Settles.ends (settles : Settles bounds c page neighborNum i)
    (large : ¬ c.Mergeable page neighborNum)
    (run : redistributePages (fileWritePage c.table c.pgnum page) c.pgnum neighborNum i = .ok u) :
    Ends bounds c u where
  returns fuel := by rw [settles.run, if_neg large, run]
  last := by
    rintro _ ⟨settles', small, -⟩
    obtain ⟨rfl, rfl, rfl⟩ := settles.unique settles'
    exact large small

/-- Where the neighbour is not found the call faults, whatever the fuel. -/
theorem run_overreads (removed : removeEntryFromPage (c.table c.pgnum) c.key = .ok page)
    (inner : c.pgnum ≠ getRootpgnum c.table)
    (few : page.numofkeys ≤ if page.isLeaf = 1 then maxLeafKey / 8 else maxInternalKey / 8)
    (index : getNeighborIndex (c.table page.parentPgnum) c.pgnum = .ok i)
    (outside : childAt bounds (c.table page.parentPgnum)
      (if i = -1 then ((c.table page.parentPgnum).numofkeys : Int) - 2 else i) = .error .outOfBounds)
    (fuel : Nat) : c.run bounds (fuel + 1) = .error .outOfBounds := by
  simp only [DeleteCall.run, deleteEntry, fileReadPage, removed, Exec.ok_bind]
  rw [if_neg inner, if_neg (Nat.not_lt.mpr few), index, Exec.ok_bind, outside]
  rfl

end DeleteCall

end SimpleDatabase.Kernel
