/- Kernel.Pairing -- which neighbour, and which separator

Four functions name the pair that an underflow settles, each in its own way:
`get_neighbor_index` by a record's index or -1, `delete_entry` by the record to read for
that index, `coalesce_pages` and `redistribute_pages` by the record that separates the
two, and `remove_entry_from_page` by the key in it.  `Pairing` says that they agree on one
pair of adjacent children; `neighborChoices_agree` that they do for every child of every
internal page.
-/
import SimpleDatabase.Kernel.Cascade
import SimpleDatabase.Kernel.Redistribute

namespace SimpleDatabase.Kernel

open SimpleDatabase.Theory SimpleDatabase.Project5 Page

set_option autoImplicit false

/-! ## What the functions do with a pair -/

/-- The `neighbor_index` of a page with `before` children to the left of the pair. -/
def Side.index (before : Nat) : Side → Int
  | .right => before
  | .left => -1

/-- The records `redistribute_pages` moves. -/
def Side.shift (s : Shift) (pgnum : Pgnum) (k balanceNum : Nat) : Side → Exec Shift
  | .right =>
      if s.page.isLeaf = 1 then shiftLeafRight s k balanceNum
      else shiftNodeRight s pgnum k balanceNum
  | .left =>
      if s.page.isLeaf = 1 then shiftLeafLeft s k balanceNum
      else shiftNodeLeft s pgnum k balanceNum

/-- On the page `q`, the children `lo` and `hi` with the separator `sep` between them are
what all functions take for the pair when the page `(side.pick lo hi).1` underflows. -/
structure Pairing (q : Page) (side : Side) (pre : List (Pgnum × Key)) (lo : Pgnum) (sep : Key)
    (hi : Pgnum) (post : List InternalRecord) : Prop where
  /-- A child is paired with the one on its left only if it has none on its right. -/
  last : side = .left → post = []
  /-- `get_neighbor_index` gives the index ... -/
  index : getNeighborIndex q (side.pick lo hi).1 = .ok (side.index pre.length)
  /-- ... for which `delete_entry` reads the neighbour's page number ... -/
  neighbor : childAt .layout q
      (if side.index pre.length = -1 then (q.numofkeys : Int) - 2 else side.index pre.length) =
    .ok (side.pick lo hi).2
  /-- ... and goes on with that neighbour ... -/
  settles : ∀ (t : Table) (key : Key) (page : Page) (fuel : Nat), t page.parentPgnum = q →
    removeEntryFromPage (t (side.pick lo hi).1) key = .ok page →
    (side.pick lo hi).1 ≠ getRootpgnum t →
    (page.numofkeys ≤ if page.isLeaf = 1 then maxLeafKey / 8 else maxInternalKey / 8) →
    deleteEntry .layout (fuel + 1) t (side.pick lo hi).1 key =
      if (t (side.pick lo hi).2).numofkeys + page.numofkeys <
          (if page.isLeaf = 1 then maxLeafKey / 2 else maxInternalKey / 2) then
        coalescePages .layout fuel (fileWritePage t (side.pick lo hi).1 page) (side.pick lo hi).1
          (side.pick lo hi).2 (side.index pre.length)
      else
        redistributePages (fileWritePage t (side.pick lo hi).1 page) (side.pick lo hi).1
          (side.pick lo hi).2 (side.index pre.length)
  /-- ... for which the other two use the separator. -/
  separator : separatorIndex q (side.index pre.length) = .ok pre.length ∧
    internalRecord.read q pre.length = .ok (sep, hi)
  /-- Whatever the pages hold, `coalesce_pages` appends `hi` to `lo`, frees `hi`, and calls
  `delete_entry` for the separator ... -/
  coalesces : ∀ (t : Table) (par : Pgnum), t par = q → (t (side.pick lo hi).1).parentPgnum = par →
    mergePages t (side.pick lo hi).1 (side.pick lo hi).2 (side.index pre.length) = do
      let s ← absorb t (t lo) (t hi) lo sep (together (t (side.pick lo hi).1).isLeaf
        (t (side.pick lo hi).1).numofkeys (t (side.pick lo hi).2).numofkeys)
      return ⟨fileFreePage (fileWritePage s.1 lo s.2) hi, par, sep⟩
  /-- ... on a parent that still lists what it did. -/
  coalesced : ∀ (t : Table) (par : Pgnum) (m : Merge), t par = q →
    (t (side.pick lo hi).1).parentPgnum = par → par ≠ lo → par ≠ hi →
    mergePages t (side.pick lo hi).1 (side.pick lo hi).2 (side.index pre.length) = .ok m →
    NodePage (m.table par) (Node.plug pre lo ((sep, hi) :: post))
  /-- `redistribute_pages` moves records through that separator ... -/
  redistributes : ∀ (t : Table) (par : Pgnum), t par = q →
    (t (side.pick lo hi).1).parentPgnum = par →
    redistributePages t (side.pick lo hi).1 (side.pick lo hi).2 (side.index pre.length) = do
      let s ← side.shift (loaded t par (side.pick lo hi).1 (side.pick lo hi).2) (side.pick lo hi).1
        pre.length (balance t (side.pick lo hi).1 (side.pick lo hi).2)
      return commit s par (side.pick lo hi).1 (side.pick lo hi).2
        (balance t (side.pick lo hi).1 (side.pick lo hi).2)
        (total t (side.pick lo hi).1 (side.pick lo hi).2)
  /-- ... and writes another key there, and nothing else into the parent. -/
  overwrites : ∀ (s s' : Shift) (pgnum : Pgnum) (b : Nat), s.parent = q →
    side.shift s pgnum pre.length b = .ok s' →
    ∃ m, NodePage s'.parent (Node.plug pre lo ((m, hi) :: post))
  /-- `remove_entry_from_page` takes out the separator and the pointer to `hi`, of this page
  and of every other with its records. -/
  removes : ∀ p, NodePage p (Node.plug pre lo ((sep, hi) :: post)) →
    ∃ p', removeEntryFromPage p sep = .ok p' ∧ NodePage p' (Node.plug pre lo post)

/-! ## The parent in a redistribution -/

section Shift

variable {s s' : Shift} {pgnum : Pgnum} {k b : Nat}

/-- Every shift changes one separator of the parent. -/
theorem Side.shift_parent {side : Side} (run : side.shift s pgnum k b = .ok s') :
    ∃ key, setSeparator s.parent k key = .ok s'.parent := by
  cases side with
  | right =>
      simp only [Side.shift] at run
      split at run
      · simp only [shiftLeafRight, Exec.bind_eq_ok, Exec.pure_eq_ok, Except.ok.injEq] at run
        obtain ⟨_, -, first, -, parent, set, _, -, rfl⟩ := run
        exact ⟨first.1, set⟩
      · simp only [shiftNodeRight, Exec.bind_eq_ok, Exec.pure_eq_ok, Except.ok.injEq] at run
        obtain ⟨_, -, _, -, _, -, middle, -, parent, set, _, -, rfl⟩ := run
        exact ⟨middle.1, set⟩
  | left =>
      simp only [Side.shift] at run
      split at run
      · simp only [shiftLeafLeft] at run
        split at run
        · cases run
        · simp only [Exec.bind_eq_ok, Exec.pure_eq_ok, Except.ok.injEq] at run
          obtain ⟨_, -, _, -, first, -, parent, set, rfl⟩ := run
          exact ⟨first.1, set⟩
      · simp only [shiftNodeLeft] at run
        split at run
        · cases run
        · simp only [Exec.bind_eq_ok, Exec.pure_eq_ok, Except.ok.injEq] at run
          obtain ⟨_, -, _, -, _, -, _, -, middle, -, parent, set, rfl⟩ := run
          exact ⟨middle.1, set⟩

end Shift

/-! ## The parent in a merge -/

/-- The children that are adopted have another parent, and the table is otherwise as it was. -/
theorem adopt_pages {src : Page} {pgnum : Pgnum} {i j n : Nat} {s s' : Table × Page}
    (run : adopt src pgnum i j n s = .ok s') (p : Pgnum) :
    ∃ up, s'.1 p = { s.1 p with parentPgnum := up } := by
  induction n generalizing i j s with
  | zero =>
      obtain rfl : s = s' := Except.ok.inj run
      exact ⟨(s.1 p).parentPgnum, rfl⟩
  | succ n ih =>
      simp only [adopt, Exec.bind_eq_ok] at run
      obtain ⟨r, -, page, -, rest⟩ := run
      obtain ⟨up, same⟩ := ih rest
      by_cases here : p = r.2
      · exact ⟨up, by rw [same]; simp [setParent, fileWritePage, here]⟩
      · exact ⟨up, by rw [same]; simp [setParent, fileWritePage, here]⟩

theorem absorb_pages {t : Table} {dst src : Page} {dstnum : Pgnum} {sep : Key} {balanceNum : Nat}
    {s : Table × Page} (run : absorb t dst src dstnum sep balanceNum = .ok s) (p : Pgnum) :
    ∃ up, s.1 p = { t p with parentPgnum := up } := by
  unfold absorb at run
  split at run
  · simp only [Exec.bind_eq_ok, Exec.pure_eq_ok, Except.ok.injEq] at run
    obtain ⟨_, -, rfl⟩ := run
    exact ⟨(t p).parentPgnum, rfl⟩
  · simp only [Exec.bind_eq_ok, Exec.pure_eq_ok, Except.ok.injEq] at run
    obtain ⟨_, -, s', adopted, rfl⟩ := run
    obtain ⟨up, same⟩ := adopt_pages adopted p
    by_cases here : p = src.leftPgnum
    · exact ⟨up, by rw [same]; simp [setParent, fileWritePage, here]⟩
    · exact ⟨up, by rw [same]; simp [setParent, fileWritePage, here]⟩

/-- Giving a page back leaves what the others hold. -/
theorem NodePage.freed {t : Table} {p pgnum : Pgnum} {n : Node Key Pgnum} (node : NodePage (t p) n)
    (other : p ≠ pgnum) : NodePage (fileFreePage t pgnum p) n := by
  rw [fileFreePage, pwriteLink, Function.update_of_ne other, setFreepgnum, fileWritePage]
  by_cases header : p = headerPagenum
  · subst header
    rw [Function.update_self]
    exact node.reparent pgnum
  · rwa [Function.update_of_ne header]

/-! ## Agreement -/

section Agreement

variable {q : Page} {pre : List (Pgnum × Key)} {lo : Pgnum} {sep : Key} {hi : Pgnum}
  {post : List InternalRecord}

/-- What does not depend on which of the two underflowed. -/
theorem Side.overwrites (node : NodePage q (Node.plug pre lo ((sep, hi) :: post))) (side : Side)
    {s s' : Shift} {pgnum : Pgnum} {b : Nat} (parent : s.parent = q)
    (run : side.shift s pgnum pre.length b = .ok s') :
    ∃ m, NodePage s'.parent (Node.plug pre lo ((m, hi) :: post)) := by
  obtain ⟨m, set⟩ := Side.shift_parent run
  rw [← parent] at node
  obtain ⟨p', set', after, -⟩ := setSeparator_spec node m
  cases set.symm.trans set'
  exact ⟨m, after⟩

/-- A merge leaves the parent as it was. -/
theorem NodePage.coalesced {t : Table} {par : Pgnum} {n : Node Key Pgnum} {dst src : Page}
    {balanceNum : Nat} {m : Merge} (node : NodePage (t par) n) (left : par ≠ lo) (right : par ≠ hi)
    (run : (do
      let s ← absorb t dst src lo sep balanceNum
      return ⟨fileFreePage (fileWritePage s.1 lo s.2) hi, par, sep⟩) = (.ok m : Exec Merge)) :
    NodePage (m.table par) n := by
  simp only [Exec.bind_eq_ok, Exec.pure_eq_ok, Except.ok.injEq] at run
  obtain ⟨s, absorbed, rfl⟩ := run
  obtain ⟨up, same⟩ := absorb_pages absorbed par
  refine NodePage.freed ?_ right
  rw [fileWritePage, Function.update_of_ne left, same]
  exact node.reparent up

/-- A child with another on its right is paired with that one. -/
theorem pairing_right (node : NodePage q (Node.plug pre lo ((sep, hi) :: post)))
    (ordered : (Node.plug pre lo ((sep, hi) :: post)).seps.Nodup)
    (distinct : (Node.plug pre lo ((sep, hi) :: post)).children.Nodup) :
    Pairing q .right pre lo sep hi post where
  last := nofun
  index := getNeighborIndex_right node distinct
  neighbor := childAt_right node
  settles t key page fuel parent removed inner few := by
    subst parent
    have call : DeleteCall.Settles .layout ⟨t, lo, key⟩ page hi pre.length :=
      ⟨removed, inner, few, getNeighborIndex_right node distinct, childAt_right node⟩
    exact call.run fuel
  separator := by
    refine ⟨?_, node.read (Node.recs_plug_getElem? pre lo ((sep, hi) :: post) 0)⟩
    simp [separatorIndex, Side.index]
  coalesces t par parent up := mergePages_right (parent ▸ node) up
  coalesced t par m parent up left right run :=
    NodePage.coalesced (parent ▸ node) left right
      ((mergePages_right (parent ▸ node) up).symm.trans run)
  redistributes t par parent up := by
    refine (redistributePages_right hi up pre.length).trans ?_
    simp only [Side.shift]
    split <;> rfl
  overwrites s s' pgnum b parent run := Side.overwrites node .right parent run
  removes p page := by
    obtain ⟨p', run, after, -⟩ := removeEntry_node page ordered
    exact ⟨p', run, after⟩

/-- The last child is paired with the one on its left. -/
theorem pairing_last (node : NodePage q (Node.plug pre lo [(sep, hi)]))
    (ordered : (Node.plug pre lo [(sep, hi)]).seps.Nodup)
    (distinct : (Node.plug pre lo [(sep, hi)]).children.Nodup) :
    Pairing q .left pre lo sep hi [] where
  last _ := rfl
  index := getNeighborIndex_last node distinct
  neighbor := childAt_last node nofun
  settles t key page fuel parent removed inner few := by
    subst parent
    have call : DeleteCall.Settles .layout ⟨t, hi, key⟩ page lo (-1) :=
      ⟨removed, inner, few, getNeighborIndex_last node distinct, childAt_last node nofun⟩
    exact call.run fuel
  separator := by
    have count := node.numofkeys
    refine ⟨?_, node.read (Node.recs_plug_getElem? pre lo [(sep, hi)] 0)⟩
    rw [Node.size_plug, List.length_singleton] at count
    simp [separatorIndex, Side.index, count]
  coalesces t par parent up := mergePages_last (parent ▸ node) up
  coalesced t par m parent up left right run :=
    NodePage.coalesced (parent ▸ node) left right
      ((mergePages_last (parent ▸ node) up).symm.trans run)
  redistributes t par parent up := by
    refine (redistributePages_last (parent ▸ node) up).trans ?_
    simp only [Side.shift]
    split <;> rfl
  overwrites s s' pgnum b parent run := Side.overwrites node .left parent run
  removes p page := by
    obtain ⟨p', run, after, -⟩ := removeEntry_node page ordered
    exact ⟨p', run, after⟩

end Agreement

/-- **The four functions agree on the neighbour and on the separator**, for every child of
an internal page. -/
theorem neighborChoices_agree {q : Page} {n : Node Key Pgnum} (page : NodePage q n)
    (keys : 1 ≤ n.size) (ordered : n.seps.Pairwise (· < ·)) (distinct : n.children.Nodup)
    {c : Pgnum} (child : c ∈ n.children) :
    ∃ side pre lo sep hi post, n = Node.plug pre lo ((sep, hi) :: post) ∧
      (Side.pick lo hi side).1 = c ∧ Pairing q side pre lo sep hi post := by
  obtain ⟨pre, post, rfl⟩ := Node.exists_plug child
  have different : (Node.plug pre c post).seps.Nodup := ordered.imp fun less => ne_of_lt less
  cases post with
  | cons r post => exact ⟨.right, pre, c, r.1, r.2, post, rfl, rfl, pairing_right page different distinct⟩
  | nil =>
      -- the last child: the one before it is listed where `pre` ends
      rcases List.eq_nil_or_concat pre with rfl | ⟨pre, ⟨d, sep⟩, same⟩
      · simp [Node.size] at keys
      · rw [List.concat_eq_append] at same
        subst same
        have shift := Node.plug_shift pre d sep c []
        rw [← shift] at page different distinct
        exact ⟨.left, pre, d, sep, c, [], shift.symm, rfl, pairing_last page different distinct⟩

/-- The root of two leaves with one separator: its last child is paired through record -1. -/
theorem neighborChoices_agree_two :
    ∃ side pre lo sep hi post, ⟨2, [(1000, 3)]⟩ = Node.plug pre lo ((sep, hi) :: post) ∧
      (Side.pick lo hi side).1 = 3 ∧ Pairing (twoTable 1 1 1) side pre lo sep hi post := by
  have root : NodePage (twoTable 1 1 1) ⟨2, [(1000, 3)]⟩ := ⟨rfl, rfl, by decide⟩
  exact neighborChoices_agree root (by decide) (by decide) (by decide) (by decide)

end SimpleDatabase.Kernel
