/- Kernel.Redistribute -- evening out two neighbours

`redistribute_pages` moves records from the larger neighbour to the page that
underflowed.  For two leaves, and for two internal pages with the larger one on
the right, the pages hold what they held before, cut at another place: as one
sequence, `join l sep r = join l' sep' r'`.

With the larger internal page on the left the code goes wrong: it puts the
page's own records one slot too high, so the last of them is cut off.
-/
import SimpleDatabase.Kernel.Merge

namespace SimpleDatabase.Kernel

open SimpleDatabase.Theory SimpleDatabase.Project5 Page

set_option autoImplicit false

/-! ## Writing the three pages back -/

/-- The three pages of a redistribution, written back with their new sizes. -/
def commit (s : Shift) (parentNum pgnum neighborNum : Pgnum) (balanceNum total : Nat) :
    Table :=
  fileWritePage
    (fileWritePage (fileWritePage s.table parentNum s.parent) pgnum
      { s.page with numofkeys := balanceNum })
    neighborNum { s.neighbor with numofkeys := total - balanceNum }

theorem commit_apply (s : Shift) {parentNum pgnum neighborNum : Pgnum} (balanceNum total : Nat)
    (different : parentNum ≠ pgnum ∧ parentNum ≠ neighborNum ∧ pgnum ≠ neighborNum) :
    commit s parentNum pgnum neighborNum balanceNum total parentNum = s.parent ∧
      commit s parentNum pgnum neighborNum balanceNum total pgnum =
        { s.page with numofkeys := balanceNum } ∧
      commit s parentNum pgnum neighborNum balanceNum total neighborNum =
        { s.neighbor with numofkeys := total - balanceNum } ∧
      ∀ p, p ≠ parentNum → p ≠ pgnum → p ≠ neighborNum →
        commit s parentNum pgnum neighborNum balanceNum total p = s.table p := by
  obtain ⟨h1, h2, h3⟩ := different
  refine ⟨?_, ?_, ?_, fun p n1 n2 n3 => ?_⟩ <;> simp [commit, fileWritePage, *]

section Cases

variable {t : Table} {par pgnum neighbor : Pgnum} {pre : List (Pgnum × Key)} {sep : Key}
  {post : List InternalRecord}

/-- What `redistribute_pages` has in memory before it moves anything. -/
abbrev loaded (t : Table) (par pgnum neighbor : Pgnum) : Shift := ⟨t, t pgnum, t neighbor, t par⟩

/-- The number of keys the page is to have. -/
abbrev balance (t : Table) (pgnum neighbor : Pgnum) : Nat :=
  ((t pgnum).numofkeys + (t neighbor).numofkeys) / 2

abbrev total (t : Table) (pgnum neighbor : Pgnum) : Nat :=
  (t pgnum).numofkeys + (t neighbor).numofkeys

variable (neighbor) in
theorem redistributePages_right (up : (t pgnum).parentPgnum = par) (k : Nat) :
    redistributePages t pgnum neighbor (k : Int) = do
      let s ← if (t pgnum).isLeaf = 1 then
          shiftLeafRight (loaded t par pgnum neighbor) k (balance t pgnum neighbor)
        else shiftNodeRight (loaded t par pgnum neighbor) pgnum k (balance t pgnum neighbor)
      return commit s par pgnum neighbor (balance t pgnum neighbor) (total t pgnum neighbor) := by
  have index : separatorIndex (t par) (k : Int) = .ok k := by simp [separatorIndex]
  simp only [redistributePages, fileReadPage, up, index, Exec.ok_bind]
  rw [if_pos (by omega)]
  rfl

theorem redistributePages_last (parent : NodePage (t par) (Node.plug pre neighbor [(sep, pgnum)]))
    (up : (t pgnum).parentPgnum = par) :
    redistributePages t pgnum neighbor (-1) = do
      let s ← if (t pgnum).isLeaf = 1 then
          shiftLeafLeft (loaded t par pgnum neighbor) pre.length (balance t pgnum neighbor)
        else shiftNodeLeft (loaded t par pgnum neighbor) pgnum pre.length (balance t pgnum neighbor)
      return commit s par pgnum neighbor (balance t pgnum neighbor) (total t pgnum neighbor) := by
  have count := parent.numofkeys
  rw [Node.size_plug, List.length_singleton] at count
  have index : separatorIndex (t par) (-1) = .ok pre.length := by simp [separatorIndex, count]
  simp only [redistributePages, fileReadPage, up, index, Exec.ok_bind]
  rw [if_neg (by decide)]
  rfl

end Cases

/-! ## Two leaves -/

section Leaves

variable {s : Shift} {ls rs : List LeafRecord} {pre : List (Pgnum × Key)} {c : Pgnum} {sep : Key}
  {d : Pgnum} {post : List InternalRecord} {b : Nat}

theorem shiftLeafRight_spec (left : LeafPage s.page ls) (right : LeafPage s.neighbor rs)
    (parent : NodePage s.parent (Node.plug pre c ((sep, d) :: post))) (low : ls.length ≤ b)
    (high : b < ls.length + rs.length) (fits : b ≤ maxLeafKey) :
    ∃ s' sep', shiftLeafRight s pre.length b = .ok s' ∧ s'.table = s.table ∧
      sep' ∈ ((ls ++ rs).drop b).head?.map Prod.fst ∧
      NodePage s'.parent (Node.plug pre c ((sep', d) :: post)) ∧
      s'.parent.toHeader = s.parent.toHeader ∧
      LeafPage { s'.page with numofkeys := b } ((ls ++ rs).take b) ∧
      s'.page.toHeader = s.page.toHeader ∧
      LeafPage { s'.neighbor with numofkeys := ls.length + rs.length - b } ((ls ++ rs).drop b) ∧
      s'.neighbor.toHeader = s.neighbor.toHeader := by
  have fits : b ≤ 31 := fits
  have leftCount := left.numofkeys
  have rightCount := right.numofkeys
  have rightFits := right.length_le
  obtain ⟨moved, hmoved⟩ : ∃ moved, moved = b - s.page.numofkeys := ⟨_, rfl⟩
  obtain ⟨page, copy, pageHeader, pageRecords⟩ := leafRecord.copyUp_append leafRecord s.neighbor
    s.page 0 s.page.numofkeys moved (show 0 + moved ≤ 31 by omega) (show _ ≤ 31 by omega)
  obtain ⟨neighbor, shift, neighborHeader, neighborRecords⟩ := leafRecord.moveDown_drop s.neighbor
    (d := moved) (n := s.neighbor.numofkeys) (by omega) (show _ ≤ 31 by omega)
  obtain ⟨parent', set, node, header⟩ := setSeparator_spec parent (leafRecord.get s.neighbor moved).1
  have pageHeader : page.toHeader = s.page.toHeader := pageHeader
  have neighborHeader : neighbor.toHeader = s.neighbor.toHeader := neighborHeader
  have split : (ls ++ rs).take b = ls ++ rs.take moved ∧ (ls ++ rs).drop b = rs.drop moved := by
    rw [List.take_append, List.drop_append, List.take_of_length_le low,
      List.drop_eq_nil_of_le low, hmoved, leftCount]
    exact ⟨rfl, rfl⟩
  rw [Nat.zero_add, List.drop_zero, left.view,
    ← Slots.view_take _ _ (show moved ≤ s.neighbor.numofkeys by omega), right.view, ← split.1,
    show s.page.numofkeys + moved = b by omega] at pageRecords
  rw [right.view, ← split.2, show s.neighbor.numofkeys - moved = ls.length + rs.length - b by omega]
    at neighborRecords
  have length : (ls ++ rs).length = ls.length + rs.length := List.length_append
  refine ⟨⟨s.table, page, neighbor, parent'⟩, (leafRecord.get s.neighbor moved).1, ?_, rfl, ?_, node,
    header, ⟨?_, pageRecords, ?_⟩, pageHeader, ⟨?_, neighborRecords, ?_⟩, neighborHeader⟩
  · simp only [shiftLeafRight, ← hmoved, copy, Exec.ok_bind,
      Slots.read_ok _ (show moved < leafRecord.cap by simp only [leafRecord_cap]; omega), set, shift]
    rfl
  · rw [split.2, right.get (by omega), List.drop_eq_getElem_cons (by omega), List.head?_cons]
    exact Option.mem_some_iff.mpr rfl
  · exact (congrArg Header.isLeaf pageHeader).trans left.tag
  · rw [List.length_take]
    exact (Nat.min_le_left _ _).trans fits
  · exact (congrArg Header.isLeaf neighborHeader).trans right.tag
  · rw [split.2, List.length_drop]
    exact (Nat.sub_le _ _).trans rightFits

theorem shiftLeafLeft_spec (left : LeafPage s.neighbor ls) (right : LeafPage s.page rs)
    (parent : NodePage s.parent (Node.plug pre c ((sep, d) :: post))) (low : rs.length ≤ b)
    (pos : 1 ≤ b) (high : b ≤ ls.length + rs.length) (fits : b ≤ maxLeafKey) :
    ∃ s' sep', shiftLeafLeft s pre.length b = .ok s' ∧ s'.table = s.table ∧
      sep' ∈ ((ls ++ rs).drop (ls.length + rs.length - b)).head?.map Prod.fst ∧
      NodePage s'.parent (Node.plug pre c ((sep', d) :: post)) ∧
      s'.parent.toHeader = s.parent.toHeader ∧
      LeafPage { s'.page with numofkeys := b } ((ls ++ rs).drop (ls.length + rs.length - b)) ∧
      s'.page.toHeader = s.page.toHeader ∧
      LeafPage { s'.neighbor with numofkeys := ls.length + rs.length - b }
        ((ls ++ rs).take (ls.length + rs.length - b)) ∧
      s'.neighbor.toHeader = s.neighbor.toHeader := by
  have fits : b ≤ 31 := fits
  have leftCount := left.numofkeys
  have rightCount := right.numofkeys
  have leftFits := left.length_le
  obtain ⟨moved, hmoved⟩ : ∃ moved, moved = b - s.page.numofkeys := ⟨_, rfl⟩
  obtain ⟨i, hi⟩ : ∃ i, i = s.neighbor.numofkeys - moved := ⟨_, rfl⟩
  have cutAt : ls.length + rs.length - b = i := by omega
  rw [cutAt]
  obtain ⟨mid, page, shift, copy, pageHeader, pageRecords⟩ := leafRecord.moveUp_prepend leafRecord
    s.neighbor s.page i moved s.page.numofkeys (show i + moved ≤ 31 by omega) (show _ ≤ 31 by omega)
  have pageHeader : page.toHeader = s.page.toHeader := pageHeader
  obtain ⟨parent', set, node, header⟩ := setSeparator_spec parent (leafRecord.get page 0).1
  have split : (ls ++ rs).take i = ls.take i ∧ (ls ++ rs).drop i = ls.drop i ++ rs := by
    have inside : i ≤ ls.length := by omega
    rw [List.take_append_of_le_length inside, List.drop_append_of_le_length inside]
    exact ⟨rfl, rfl⟩
  rw [show i + moved = s.neighbor.numofkeys by omega, left.view, right.view, ← split.2,
    show moved + s.page.numofkeys = b by omega] at pageRecords
  have neighborRecords : leafRecord.view s.neighbor i = (ls ++ rs).take i := by
    rw [split.1, ← left.view, Slots.view_take _ _ (by omega)]
  have length : (ls ++ rs).length = ls.length + rs.length := List.length_append
  have first : ((ls ++ rs).drop i)[0]? = some (leafRecord.get page 0) := by
    rw [← pageRecords, List.getElem?_eq_getElem (by simp; omega), Slots.view_getElem]
  refine ⟨⟨s.table, page, s.neighbor, parent'⟩, (leafRecord.get page 0).1, ?_, rfl, ?_, node, header,
    ⟨?_, pageRecords, ?_⟩, pageHeader, ⟨left.tag, neighborRecords, ?_⟩, rfl⟩
  · simp only [shiftLeafLeft]
    rw [if_neg (by omega)]
    simp only [← hmoved, shift, Exec.ok_bind, ← hi, copy,
      Slots.read_ok _ (show 0 < leafRecord.cap by simp), set]
    rfl
  · rw [List.head?_eq_getElem?, first]
    simp
  · exact (congrArg Header.isLeaf pageHeader).trans right.tag
  · rw [List.length_drop, length]
    show _ ≤ 31
    omega
  · rw [split.1, List.length_take]
    exact (Nat.min_le_right _ _).trans leftFits

end Leaves

/-! ## Two internal pages, the larger one on the right -/

theorem shiftNodeRight_spec {s : Shift} {l r l' r' : Node Key Pgnum} {pre : List (Pgnum × Key)}
    {c : Pgnum} {sep sep' : Key} {d : Pgnum} {post : List InternalRecord} {b : Nat}
    (left : NodePage s.page l) (right : NodePage s.neighbor r)
    (parent : NodePage s.parent (Node.plug pre c ((sep, d) :: post)))
    (cut : Node.join l sep r = Node.join l' sep' r') (width : l'.size = b) (low : l.size < b)
    (fits : b ≤ maxInternalKey) (pgnum : Pgnum) :
    ∃ s' moved, shiftNodeRight s pgnum pre.length b = .ok s' ∧ s'.table = adoptAll s.table moved pgnum ∧
      l'.children = l.children ++ moved ∧ r.children = moved ++ r'.children ∧
      NodePage s'.parent (Node.plug pre c ((sep', d) :: post)) ∧
      s'.parent.toHeader = s.parent.toHeader ∧
      NodePage { s'.page with numofkeys := b } l' ∧ s'.page.toHeader = s.page.toHeader ∧
      NodePage { s'.neighbor with numofkeys := l.size + r.size - b } r' ∧
      s'.neighbor.parentPgnum = s.neighbor.parentPgnum := by
  have fits : b ≤ 248 := fits
  have leftCount := left.numofkeys
  have rightCount := right.numofkeys
  have rightFits := right.size_le
  obtain ⟨xs, leftRecs, rightRecs⟩ := Node.join_later cut (width ▸ low)
  have leftmost : l.left = l'.left := by simpa [Node.join] using congrArg Node.left cut
  have moved : xs.length = b - (s.page.numofkeys + 1) := by
    have := congrArg List.length leftRecs
    rw [List.length_append, List.length_cons, show l'.recs.length = b from width,
      show l.recs.length = l.size from rfl] at this
    omega
  have rest : r.size = xs.length + (r'.size + 1) := by
    have := congrArg List.length rightRecs
    rwa [List.length_append, List.length_cons] at this
  -- the separator comes down with the leftmost child of the right page
  have here : internalRecord.read s.parent pre.length = .ok (sep, d) :=
    parent.read (Node.recs_plug_getElem? pre c ((sep, d) :: post) 0)
  obtain ⟨mid, hmid⟩ : ∃ mid, mid =
    internalRecord.put s.page s.page.numofkeys (sep, s.neighbor.leftPgnum) := ⟨_, rfl⟩
  have down : internalRecord.write s.page s.page.numofkeys (sep, s.neighbor.leftPgnum) = .ok mid := by
    rw [hmid]
    exact Slots.write_ok _ (show s.page.numofkeys < 248 by omega)
  obtain ⟨page, copy, run⟩ := adopt_spec s.neighbor pgnum 0 (s.page.numofkeys + 1) xs.length
    (setParent s.table s.neighbor.leftPgnum pgnum) mid (by omega) (by omega)
  obtain ⟨page', copy', pageHeader, pageRecords⟩ := internalRecord.copyUp_append internalRecord
    s.neighbor mid 0 (s.page.numofkeys + 1) xs.length (show _ ≤ 248 by omega)
    (show _ ≤ 248 by omega)
  cases copy.symm.trans copy'
  have pageHeader : page.toHeader = s.page.toHeader := pageHeader.trans (by rw [hmid]; rfl)
  have firsts : internalRecord.view s.neighbor xs.length = xs := by
    rw [← Slots.view_take _ _ (show xs.length ≤ s.neighbor.numofkeys by omega), right.records,
      rightRecs, List.take_left]
  rw [Nat.zero_add, List.drop_zero, firsts] at run
  rw [Nat.zero_add, List.drop_zero, firsts, hmid, Slots.view_put_end, left.records, right.left,
    List.append_assoc, List.singleton_append, ← leftRecs,
    show s.page.numofkeys + 1 + xs.length = b by omega] at pageRecords
  -- the record that goes up, and the shift of the others
  have middle : internalRecord.read s.neighbor xs.length = .ok (sep', r'.left) :=
    right.read (by rw [rightRecs, List.getElem?_append_right (Nat.le_refl _), Nat.sub_self]; rfl)
  obtain ⟨parent', set, node, header⟩ := setSeparator_spec parent sep'
  obtain ⟨neighbor, shift, neighborHeader, neighborRecords⟩ := internalRecord.moveDown_drop
    { s.neighbor with nextPgnum := r'.left } (d := xs.length + 1) (n := s.neighbor.numofkeys)
    (by omega) (show _ ≤ 248 by omega)
  have neighborHeader : neighbor.toHeader = { s.neighbor.toHeader with nextPgnum := r'.left } :=
    neighborHeader
  have lasts : (internalRecord.view { s.neighbor with nextPgnum := r'.left }
      s.neighbor.numofkeys).drop (xs.length + 1) = r'.recs := by
    rw [show internalRecord.view { s.neighbor with nextPgnum := r'.left } s.neighbor.numofkeys =
      internalRecord.view s.neighbor s.neighbor.numofkeys from rfl, right.records, rightRecs,
      ← List.drop_drop, List.drop_left]
    rfl
  rw [lasts, show s.neighbor.numofkeys - (xs.length + 1) = l.size + r.size - b by omega]
    at neighborRecords
  have neighborLeft := congrArg Header.nextPgnum neighborHeader
  have neighborUp := congrArg Header.parentPgnum neighborHeader
  have pageLeft := congrArg Header.nextPgnum pageHeader
  refine ⟨⟨adoptAll s.table (r.left :: xs.map Prod.snd) pgnum, page, neighbor, parent'⟩,
    r.left :: xs.map Prod.snd, ?_, rfl, ?_, ?_, node, header, ⟨?_, ?_, ?_⟩, pageHeader, ⟨?_, ?_, ?_⟩,
    neighborUp⟩
  · simp only [shiftNodeRight, here, Exec.ok_bind, down, ← moved, run, middle, set, shift,
      Exec.pure_eq_ok]
    rw [right.left]
    rfl
  · simp [Node.children, leftRecs, leftmost]
  · simp [Node.children, rightRecs]
  · exact (congrArg Header.isLeaf pageHeader).trans left.tag
  · exact congrArg₂ Node.mk (pageLeft.trans (left.left.trans leftmost)) pageRecords
  · show l'.size ≤ 248
    omega
  · exact (congrArg Header.isLeaf neighborHeader).trans right.tag
  · exact congrArg₂ Node.mk neighborLeft neighborRecords
  · show r'.size ≤ 248
    omega

/-! ## Two internal pages, the larger one on the left -/

/-- Where the records of the page end up, slot by slot: the neighbour's last records,
the separator with the page's leftmost child at `b - n`, the page's own records right
after it, and in between what was there. -/
theorem shiftNodeLeft_spec {s : Shift} {l₀ l₁ r : Node Key Pgnum} {k' : Key}
    {pre : List (Pgnum × Key)} {c : Pgnum} {sep : Key} {d : Pgnum} {post : List InternalRecord}
    {b : Nat} (left : NodePage s.neighbor (Node.join l₀ k' l₁)) (right : NodePage s.page r)
    (parent : NodePage s.parent (Node.plug pre c ((sep, d) :: post))) (width : l₀.size = b)
    (low : r.size ≤ b) (fits : b < maxInternalKey) (pgnum : Pgnum) :
    ∃ s', shiftNodeLeft s pgnum pre.length b = .ok s' ∧ s'.neighbor = s.neighbor ∧
      s'.table = adoptAll s.table (l₁.recs.map Prod.snd ++ [l₁.left]) pgnum ∧
      NodePage s'.parent (Node.plug pre c ((k', d) :: post)) ∧
      s'.page.toHeader = { s.page.toHeader with nextPgnum := l₁.left } ∧
      internalRecord.view s'.page l₁.size = l₁.recs ∧
      ∀ x, l₁.size ≤ x → internalRecord.get s'.page x =
        if x = b - r.size then (sep, r.left)
        else if b + 1 - r.size ≤ x ∧ x ≤ b then
          internalRecord.get s.page (x - (b + 1 - r.size))
        else internalRecord.get s.page x := by
  have fits : b < 248 := fits
  have leftCount := left.numofkeys
  have rightCount := right.numofkeys
  have leftFits := left.size_le
  rw [Node.size_join] at leftCount leftFits
  have total : (Node.join l₀ k' l₁).recs = l₀.recs ++ (k', l₁.left) :: l₁.recs := rfl
  have width : l₀.recs.length = b := width
  obtain ⟨up, shift, upHeader, upSlots⟩ := internalRecord.moveUp_spec 0 (b + 1 - s.page.numofkeys)
    s.page.numofkeys s.page (show _ ≤ 248 by omega)
  have upHeader : up.toHeader = s.page.toHeader := upHeader
  have here : internalRecord.read s.parent pre.length = .ok (sep, d) :=
    parent.read (Node.recs_plug_getElem? pre c ((sep, d) :: post) 0)
  obtain ⟨mid, hmid⟩ : ∃ mid, mid =
    internalRecord.put up (b - s.page.numofkeys) (sep, up.leftPgnum) := ⟨_, rfl⟩
  have down : internalRecord.write up (b - s.page.numofkeys) (sep, up.leftPgnum) = .ok mid := by
    rw [hmid]
    exact Slots.write_ok _ (show _ < 248 by omega)
  obtain ⟨page, copy, run⟩ := adopt_spec s.neighbor pgnum (b + 1) 0 l₁.size s.table mid
    (by rw [width] at *; omega) (by omega)
  obtain ⟨page', copy', pageHeader, slots⟩ := internalRecord.copyUp_spec internalRecord s.neighbor
    (b + 1) 0 l₁.size mid (show _ ≤ 248 by omega) (show _ ≤ 248 by omega)
  cases copy.symm.trans copy'
  obtain ⟨page', copy', -, firsts⟩ := internalRecord.copyUp_fill internalRecord s.neighbor
    mid (b + 1) l₁.size (show _ ≤ 248 by omega) (show _ ≤ 248 by omega)
  cases copy.symm.trans copy'
  have pageHeader : page.toHeader = s.page.toHeader :=
    pageHeader.trans (by rw [hmid]; exact upHeader)
  have lasts : (internalRecord.view s.neighbor (b + 1 + l₁.size)).drop (b + 1) = l₁.recs := by
    rw [show b + 1 + l₁.size = s.neighbor.numofkeys by omega, left.records, total, ← width,
      ← List.drop_drop, List.drop_left]
    rfl
  rw [lasts] at run firsts
  -- the record that goes up is the neighbour's record `b`
  have middle : internalRecord.read s.neighbor b = .ok (k', l₁.left) :=
    left.read (by rw [total, List.getElem?_append_right width.le, width, Nat.sub_self]; rfl)
  obtain ⟨parent', set, node, header⟩ := setSeparator_spec parent k'
  have leftmost := congrArg Header.nextPgnum upHeader
  refine ⟨⟨adoptAll s.table (l₁.recs.map Prod.snd ++ [l₁.left]) pgnum,
    { page with nextPgnum := l₁.left }, s.neighbor, parent'⟩, ?_, rfl, rfl, node, ?_, firsts,
    fun x inside => ?_⟩
  · simp only [shiftNodeLeft]
    rw [if_neg (by omega)]
    simp only [Exec.ok_bind, shift, here, down, show s.neighbor.numofkeys - (b + 1) = l₁.size by omega,
      run, middle, set, adoptAll_append]
    rfl
  · exact congrArg (fun h : Header => { h with nextPgnum := l₁.left }) pageHeader
  · rw [show internalRecord.get { page with nextPgnum := l₁.left } x = internalRecord.get page x
      from rfl, slots, if_neg (by omega), hmid, Slots.get_put, upSlots, rightCount,
      show up.leftPgnum = r.left from leftmost.trans right.left]
    by_cases hole : x = b - r.size
    · rw [if_pos hole, if_pos hole]
    · rw [if_neg hole, if_neg hole]
      by_cases own : b + 1 - r.size ≤ x ∧ x ≤ b
      · rw [if_pos own, if_pos (by omega)]
      · rw [if_neg own, if_neg (by omega)]

/-! ## Rotating through the parent -/

/-- Two internal pages next to each other under one parent. -/
structure Siblings (t : Table) (par lo hi : Pgnum) (pre : List (Pgnum × Key)) (sep : Key)
    (post : List InternalRecord) (l r : Node Key Pgnum) : Prop where
  parent : NodePage (t par) (Node.plug pre lo ((sep, hi) :: post))
  left : NodePage (t lo) l
  right : NodePage (t hi) r
  up : (t lo).parentPgnum = par ∧ (t hi).parentPgnum = par
  different : par ≠ lo ∧ par ≠ hi ∧ lo ≠ hi
  distinct : (l.children ++ r.children).Nodup
  outside : ∀ c ∈ l.children ++ r.children, c ≠ par ∧ c ≠ lo ∧ c ≠ hi
  parents : (∀ c ∈ l.children, (t c).parentPgnum = lo) ∧ ∀ c ∈ r.children, (t c).parentPgnum = hi

/-- The three pages of `u` read as the same sequence, evenly cut, and every child
of the two has the page that lists it as its parent. -/
def Rotated (u : Table) (par lo hi : Pgnum) (pre : List (Pgnum × Key)) (sep : Key)
    (post : List InternalRecord) (l r : Node Key Pgnum) : Prop :=
  ∃ l' sep' r', NodePage (u par) (Node.plug pre lo ((sep', hi) :: post)) ∧
    NodePage (u lo) l' ∧ NodePage (u hi) r' ∧
    l'.interleaved ++ .inr sep' :: r'.interleaved = l.interleaved ++ .inr sep :: r.interleaved ∧
    l'.size + r'.size = l.size + r.size ∧ l'.size ≤ r'.size + 1 ∧ r'.size ≤ l'.size + 1 ∧
    (∀ c ∈ l'.children, (u c).parentPgnum = lo) ∧ ∀ c ∈ r'.children, (u c).parentPgnum = hi

section Rotate

variable {t : Table} {par lo hi : Pgnum} {pre : List (Pgnum × Key)} {sep : Key}
  {post : List InternalRecord} {l r : Node Key Pgnum}

/-- With the larger page on the right, the whole sequence is cut in the middle and
the children in between change their parent. -/
theorem Siblings.rotate_right (pair : Siblings t par lo hi pre sep post l r)
    (low : l.size < (l.size + r.size) / 2) (fits : (l.size + r.size) / 2 ≤ maxInternalKey) :
    ∃ u l' sep' r' moved, redistributePages t lo hi (pre.length : Int) = .ok u ∧
      Node.join l sep r = Node.join l' sep' r' ∧ l'.size = (l.size + r.size) / 2 ∧
      l'.children = l.children ++ moved ∧ r.children = moved ++ r'.children ∧
      NodePage (u par) (Node.plug pre lo ((sep', hi) :: post)) ∧
      (u par).toHeader = (t par).toHeader ∧
      NodePage (u lo) l' ∧ (u lo).parentPgnum = par ∧
      NodePage (u hi) r' ∧ (u hi).parentPgnum = par ∧
      ∀ p, p ≠ par → p ≠ lo → p ≠ hi →
        u p = if p ∈ moved then { t p with parentPgnum := lo } else t p := by
  have width : (Node.join l sep r).size = l.size + r.size + 1 := Node.size_join l sep r
  obtain ⟨l', sep', r', cut, half, -⟩ := Node.exists_join (n := Node.join l sep r)
    (i := (l.size + r.size) / 2) (by omega)
  have balanced : balance t lo hi = (l.size + r.size) / 2 := by
    rw [balance, pair.left.numofkeys, pair.right.numofkeys]
  have whole : total t lo hi = l.size + r.size := by
    rw [total, pair.left.numofkeys, pair.right.numofkeys]
  obtain ⟨s', moved, run, table, leftChildren, rightChildren, node, header, leftNode, leftHeader,
    rightNode, rightUp⟩ := shiftNodeRight_spec (s := loaded t par lo hi) pair.left pair.right
      pair.parent cut half low fits lo
  obtain ⟨d1, d2, d3⟩ := pair.different
  have result := redistributePages_right hi pair.up.1 pre.length
  rw [if_neg (by rw [pair.left.tag]; decide), balanced, whole, run, Exec.ok_bind] at result
  obtain ⟨atPar, atLo, atHi, others⟩ :=
    commit_apply s' ((l.size + r.size) / 2) (l.size + r.size) ⟨d1, d2, d3⟩
  have leftUp := congrArg Header.parentPgnum leftHeader
  refine ⟨_, l', sep', r', moved, result, cut, half, leftChildren, rightChildren, ?_, ?_, ?_, ?_, ?_,
    ?_, fun p n1 n2 n3 => ?_⟩
  · rwa [atPar]
  · rwa [atPar]
  · rwa [atLo]
  · rw [atLo]
    exact leftUp.trans pair.up.1
  · rwa [atHi]
  · rw [atHi]
    exact rightUp.trans pair.up.2
  · rw [others p n1 n2 n3, table, adoptAll_apply]

/-- The parents of the children, once some have moved. -/
theorem Siblings.parent_of (pair : Siblings t par lo hi pre sep post l r) {u : Table}
    {moved : List Pgnum} {new : Pgnum} (others : ∀ p, p ≠ par → p ≠ lo → p ≠ hi →
      u p = if p ∈ moved then { t p with parentPgnum := new } else t p) {c : Pgnum}
    (mine : c ∈ l.children ++ r.children) :
    (u c).parentPgnum = if c ∈ moved then new else (t c).parentPgnum := by
  obtain ⟨n1, n2, n3⟩ := pair.outside c mine
  rw [others c n1 n2 n3]
  split <;> rfl

theorem Siblings.rotated_right (pair : Siblings t par lo hi pre sep post l r)
    (low : l.size < (l.size + r.size) / 2) (fits : (l.size + r.size) / 2 ≤ maxInternalKey) :
    ∃ u, redistributePages t lo hi (pre.length : Int) = .ok u ∧
      Rotated u par lo hi pre sep post l r := by
  obtain ⟨u, l', sep', r', moved, run, cut, half, leftChildren, rightChildren, node, -, leftNode, -,
    rightNode, -, others⟩ := pair.rotate_right low fits
  have sizes := congrArg Node.size cut
  rw [Node.size_join, Node.size_join] at sizes
  have distinct := pair.distinct
  rw [rightChildren] at distinct
  refine ⟨u, run, l', sep', r', node, leftNode, rightNode, ?_, by omega, by omega, by omega,
    fun c member => ?_, fun c member => ?_⟩
  · rw [← Node.interleaved_join, ← Node.interleaved_join, cut]
  · rw [leftChildren, List.mem_append] at member
    have mine : c ∈ l.children ++ r.children := by
      rw [rightChildren, List.mem_append, List.mem_append]
      tauto
    rw [pair.parent_of others mine]
    split
    · rfl
    · exact pair.parents.1 c (by tauto)
  · have theirs : c ∈ r.children := by
      rw [rightChildren]
      exact List.mem_append_right _ member
    have stays : c ∉ moved := fun inMoved =>
      (List.nodup_append.mp (List.nodup_append.mp distinct).2.1).2.2 c inMoved c member rfl
    rw [pair.parent_of others (List.mem_append_right _ theirs), if_neg stays]
    exact pair.parents.2 c theirs

/-- With the larger page on the left, what the pages hold afterwards.  The page
has room for `(l.size + r.size) / 2` records: the neighbour's last ones fit, its own
need one slot more. -/
theorem Siblings.rotate_left {l₀ l₁ : Node Key Pgnum} {k' : Key}
    (pair : Siblings t par lo hi pre sep [] (Node.join l₀ k' l₁) r)
    (width : l₀.size = (l₀.size + l₁.size + 1 + r.size) / 2) (low : r.size ≤ l₀.size)
    (fits : l₀.size < maxInternalKey) :
    ∃ u page, redistributePages t hi lo (-1) = .ok u ∧
      NodePage (u par) (Node.plug pre lo [(k', hi)]) ∧
      NodePage (u lo) ⟨l₀.left, (Node.join l₀ k' l₁).recs.take (l₁.size + 1 + r.size)⟩ ∧
      NodePage (u hi) ⟨l₁.left, internalRecord.view page l₀.size⟩ ∧
      internalRecord.view page l₁.size = l₁.recs ∧
      (∀ x, l₁.size ≤ x → internalRecord.get page x =
        if x = l₀.size - r.size then (sep, r.left)
        else if l₀.size + 1 - r.size ≤ x ∧ x ≤ l₀.size then
          internalRecord.get (t hi) (x - (l₀.size + 1 - r.size))
        else internalRecord.get (t hi) x) ∧
      ∀ p, p ≠ par → p ≠ lo → p ≠ hi →
        u p = if p ∈ l₁.children then { t p with parentPgnum := hi } else t p := by
  have fits : l₀.size < 248 := fits
  have size := Node.size_join l₀ k' l₁
  have balanced : balance t hi lo = l₀.size := by
    rw [balance, pair.left.numofkeys, pair.right.numofkeys]
    omega
  have whole : total t hi lo = r.size + (Node.join l₀ k' l₁).size := by
    rw [total, pair.left.numofkeys, pair.right.numofkeys]
  obtain ⟨s', run, neighbor, table, node, header, firsts, slots⟩ := shiftNodeLeft_spec
    (s := loaded t par hi lo) (b := l₀.size) pair.left pair.right pair.parent rfl low fits hi
  obtain ⟨d1, d2, d3⟩ := pair.different
  have result := redistributePages_last pair.parent pair.up.2
  rw [if_neg (by rw [pair.right.tag]; decide), balanced, whole, run, Exec.ok_bind] at result
  obtain ⟨atPar, atHi, atLo, others⟩ :=
    commit_apply s' l₀.size (r.size + (Node.join l₀ k' l₁).size) ⟨d2, d1, Ne.symm d3⟩
  have kept : r.size + (Node.join l₀ k' l₁).size - l₀.size = l₁.size + 1 + r.size := by omega
  rw [kept] at atLo
  refine ⟨_, s'.page, result, ?_, ?_, ?_, firsts, slots, fun p n1 n2 n3 => ?_⟩
  · rwa [atPar]
  · have count := pair.left.numofkeys
    have leftFits := pair.left.size_le
    rw [atLo, neighbor]
    refine ⟨pair.left.tag, congrArg₂ Node.mk pair.left.left ?_, ?_⟩
    · rw [← pair.left.records, Slots.view_take _ _ (by omega)]
      rfl
    · show (List.take _ _).length ≤ 248
      rw [List.length_take]
      exact (Nat.min_le_right _ _).trans leftFits
  · rw [atHi]
    refine ⟨(congrArg Header.isLeaf header).trans pair.right.tag,
      congrArg₂ Node.mk (congrArg Header.nextPgnum header) rfl, ?_⟩
    show (internalRecord.view s'.page l₀.size).length ≤ 248
    rw [Slots.view_length]
    omega
  · have moved : p ∈ l₁.recs.map Prod.snd ++ [l₁.left] ↔ p ∈ l₁.children := by
      simp [Node.children, or_comm]
    rw [others p n1 n3 n2, table, adoptAll_apply]
    simp only [moved]

/-- It returns, whatever becomes of the records. -/
theorem Siblings.left_returns (pair : Siblings t par lo hi pre sep [] l r)
    (small : r.size ≤ maxInternalKey / 8) (large : maxInternalKey / 2 ≤ r.size + l.size) :
    ∃ u, redistributePages t hi lo (-1) = .ok u := by
  have small : r.size ≤ 31 := small
  have large : 124 ≤ r.size + l.size := large
  have fits := pair.left.size_le
  obtain ⟨l₀, k', l₁, rfl, half, -⟩ := Node.exists_join (n := l) (i := (l.size + r.size) / 2) (by omega)
  have size := Node.size_join l₀ k' l₁
  obtain ⟨u, -, run, -⟩ := pair.rotate_left (by omega) (by omega) (show l₀.size < 248 by omega)
  exact ⟨u, run⟩

/-- The halves a rotation to the right leaves, if the records that were there are
not to be lost. -/
theorem rotate_left_iff {l₀ l₁ r : Node Key Pgnum} (k' : Key) {sep : Key}
    {recs : List InternalRecord} {old : InternalRecord} (distinct : (l₁.children ++ r.children).Nodup)
    (width : l₀.size = (l₀.size + l₁.size + 1 + r.size) / 2)
    (length : recs.length = l₀.size) (firsts : recs.take l₁.size = l₁.recs)
    (hole : recs[l₀.size - r.size]? = if r.size = 0 then none else some (sep, r.left))
    (before : r.size = 0 → l₁.size + 1 = l₀.size → recs[l₁.size]? = some old) :
    Node.join ⟨l₀.left, (Node.join l₀ k' l₁).recs.take (l₁.size + 1 + r.size)⟩ k' ⟨l₁.left, recs⟩ =
        Node.join (Node.join l₀ k' l₁) sep r ↔
      r.size = 0 ∧ (l₀.size + l₁.size + 1) % 2 = 0 ∧ old = (sep, r.left) := by
  have taken : l₀.recs.length = l₀.size := rfl
  rw [Node.join_assoc]
  by_cases even : (l₀.size + l₁.size + 1 + r.size) % 2 = 0
  · -- the left page keeps exactly what is before the record that went up
    have kept : (Node.join l₀ k' l₁).recs.take (l₁.size + 1 + r.size) = l₀.recs :=
      List.take_left' (by omega)
    rw [kept]
    constructor
    · intro same
      have same := Node.join_left_cancel l₀ k' same
      have records : recs = l₁.recs ++ (sep, r.left) :: r.recs := congrArg Node.recs same
      have first : recs[l₁.size]? = some (sep, r.left) := by
        rw [records, show l₁.size = l₁.recs.length from rfl, List.getElem?_append_right (Nat.le_refl _),
          Nat.sub_self]
        rfl
      have none_ : r.size = 0 := by
        by_contra some_
        -- the leftmost child would be listed once more, as the first record's
        obtain ⟨e, es, shape⟩ := List.exists_cons_of_length_pos (Nat.pos_of_ne_zero some_)
        rw [if_neg some_, records, show l₀.size - r.size = l₁.recs.length + 1 by
          rw [show l₁.recs.length = l₁.size from rfl]; omega,
          List.getElem?_append_right (by omega), Nat.add_sub_cancel_left, shape] at hole
        have twice : e = (sep, r.left) := by simpa using hole
        have own := (List.nodup_append.mp distinct).2.1
        simp [Node.children, shape, twice] at own
      exact ⟨none_, by omega, Option.some.inj ((before none_ (by omega)).symm.trans first)⟩
    · rintro ⟨none_, -, rfl⟩
      have empty : r.recs = [] := List.eq_nil_of_length_eq_zero none_
      have records : recs = l₁.recs ++ (sep, r.left) :: r.recs := by
        obtain ⟨inside, last⟩ := List.getElem?_eq_some_iff.mp (before none_ (by omega))
        rw [empty, ← firsts, ← last, List.take_append_getElem, List.take_of_length_le (by omega)]
      rw [records]
      rfl
  · -- the record that went up stays on the left page too, and its child is listed twice
    have kept : (Node.join l₀ k' l₁).recs.take (l₁.size + 1 + r.size) =
        l₀.recs ++ [(k', l₁.left)] := by
      rw [show l₁.size + 1 + r.size = l₀.recs.length + 1 by omega]
      exact List.take_length_add_append 1
    rw [kept]
    constructor
    · intro same
      have twice : Node.join (Node.join l₀ k' ⟨l₁.left, []⟩) k' ⟨l₁.left, recs⟩ =
        Node.join l₀ k' (Node.join l₁ sep r) := same
      rw [Node.join_assoc] at twice
      have children := congrArg Node.children (Node.join_left_cancel l₀ k' twice)
      rw [Node.children_join, Node.children_join] at children
      rw [← children] at distinct
      simp [Node.children] at distinct
    · rintro ⟨none_, even', -⟩
      omega

/-- If the records that were there are not lost, the children have their parents. -/
theorem Siblings.rotated_of_join {l₀ l₁ : Node Key Pgnum} {k' : Key} {recs : List InternalRecord}
    (pair : Siblings t par lo hi pre sep [] (Node.join l₀ k' l₁) r) {u : Table}
    (width : l₀.size = (l₀.size + l₁.size + 1 + r.size) / 2) (length : recs.length = l₀.size)
    (node : NodePage (u par) (Node.plug pre lo [(k', hi)])) (leftNode : NodePage (u lo) l₀)
    (rightNode : NodePage (u hi) ⟨l₁.left, recs⟩)
    (others : ∀ p, p ≠ par → p ≠ lo → p ≠ hi →
      u p = if p ∈ l₁.children then { t p with parentPgnum := hi } else t p)
    (same : Node.join l₀ k' ⟨l₁.left, recs⟩ = Node.join (Node.join l₀ k' l₁) sep r) :
    Rotated u par lo hi pre sep [] (Node.join l₀ k' l₁) r := by
  have distinct := pair.distinct
  rw [Node.children_join, List.append_assoc] at distinct
  have sizes := congrArg Node.size same
  simp only [Node.size_join] at sizes
  have half : (⟨l₁.left, recs⟩ : Node Key Pgnum).size = l₀.size := length
  have children := congrArg Node.children same
  rw [Node.children_join, Node.children_join, Node.children_join, List.append_assoc,
    List.append_cancel_left_eq] at children
  have whole := Node.size_join l₀ k' l₁
  refine ⟨l₀, k', _, node, leftNode, rightNode, ?_, by omega, by omega, by omega,
    fun c member => ?_, fun c member => ?_⟩
  · rw [← Node.interleaved_join, ← Node.interleaved_join, same]
  · have mine : c ∈ (Node.join l₀ k' l₁).children := by
      rw [Node.children_join]
      exact List.mem_append_left _ member
    have stays : c ∉ l₁.children := fun moved =>
      (List.nodup_append.mp distinct).2.2 c member c (List.mem_append_left _ moved) rfl
    rw [pair.parent_of others (List.mem_append_left _ mine), if_neg stays]
    exact pair.parents.1 c mine
  · rw [children] at member
    have mine : c ∈ (Node.join l₀ k' l₁).children ++ r.children := by
      rw [Node.children_join, List.append_assoc]
      exact List.mem_append_right _ member
    rw [pair.parent_of others mine]
    split
    · rfl
    · rename_i stays
      exact pair.parents.2 c ((List.mem_append.mp member).resolve_left stays)

/-- With the larger page on the left nothing is lost only if the page has no key,
the neighbour an even number of them, and the slot where the neighbour's records
end happens to hold the separator already. -/
theorem Siblings.rotated_left_iff (pair : Siblings t par lo hi pre sep [] l r)
    (small : r.size ≤ maxInternalKey / 8) (large : maxInternalKey / 2 ≤ r.size + l.size) :
    (∃ u, redistributePages t hi lo (-1) = .ok u ∧ Rotated u par lo hi pre sep [] l r) ↔
      r.size = 0 ∧ l.size % 2 = 0 ∧
        internalRecord.get (t hi) (l.size / 2 - 1) = (sep, r.left) := by
  have small : r.size ≤ 31 := small
  have large : 124 ≤ r.size + l.size := large
  have fits := pair.left.size_le
  obtain ⟨l₀, k', l₁, rfl, half, -⟩ := Node.exists_join (n := l) (i := (l.size + r.size) / 2) (by omega)
  have size := Node.size_join l₀ k' l₁
  obtain ⟨u, page, run, node, leftNode, rightNode, firsts, slots, others⟩ :=
    pair.rotate_left (by omega) (by omega) (show l₀.size < 248 by omega)
  have count := pair.right.numofkeys
  have distinct := pair.distinct
  rw [Node.children_join, List.append_assoc] at distinct
  have starts : (internalRecord.view page l₀.size).take l₁.size = l₁.recs := by
    rw [Slots.view_take _ _ (by omega), firsts]
  have hole : (internalRecord.view page l₀.size)[l₀.size - r.size]? =
      if r.size = 0 then none else some (sep, r.left) := by
    split
    · exact List.getElem?_eq_none (by rw [Slots.view_length]; omega)
    · rw [Slots.view_getElem? _ _ (by omega), slots _ (by omega), if_pos rfl]
  have before : r.size = 0 → l₁.size + 1 = l₀.size → (internalRecord.view page l₀.size)[l₁.size]? =
      some (internalRecord.get (t hi) ((Node.join l₀ k' l₁).size / 2 - 1)) := by
    intro none_ last
    rw [Slots.view_getElem? _ _ (by omega), slots _ (Nat.le_refl _), if_neg (by omega),
      if_neg (by omega), show (Node.join l₀ k' l₁).size / 2 - 1 = l₁.size by omega]
  have cut := rotate_left_iff k' (List.nodup_append.mp distinct).2.1 (by omega)
    (Slots.view_length _ _ _) starts hole before
  rw [size] at cut ⊢
  rw [← cut]
  constructor
  · rintro ⟨u', run', l', sep', r', node', leftNode', rightNode', same, -⟩
    cases run.symm.trans run'
    have up : k' = sep' := by
      have seps := congrArg Node.seps (node.node.symm.trans node'.node)
      simpa using seps
    rw [← Node.interleaved_join, ← Node.interleaved_join] at same
    rw [leftNode.node.symm.trans leftNode'.node, rightNode.node.symm.trans rightNode'.node]
    nth_rewrite 1 [up]
    exact Node.interleaved_injective same
  · intro same
    obtain ⟨none_, even, -⟩ := cut.mp same
    -- the left page holds the left half
    have kept : (⟨l₀.left, (Node.join l₀ k' l₁).recs.take (l₁.size + 1 + r.size)⟩ :
        Node Key Pgnum) = l₀ :=
      congrArg (Node.mk l₀.left) (List.take_left' (show l₀.size = _ by omega))
    rw [kept] at same leftNode
    exact ⟨u, run, pair.rotated_of_join (by omega) (Slots.view_length _ _ _) node leftNode rightNode
      others same⟩

end Rotate

/-- Where the sibling is that a page evens out with. -/
inductive Side where
  | right
  | left
  deriving DecidableEq

/-- The call of `redistribute_pages` for the page and its sibling on that side. -/
def redistributeWith (t : Table) (lo hi : Pgnum) (pre : List (Pgnum × Key)) : Side → Exec Table
  | .right => redistributePages t lo hi (pre.length : Int)
  | .left => redistributePages t hi lo (-1)

/-- The page that underflowed, and its sibling. -/
def Side.pick {α : Type} (lo hi : α) : Side → α × α
  | .right => (lo, hi)
  | .left => (hi, lo)

theorem Siblings.redistribute_iff {t : Table} {par lo hi : Pgnum} {pre : List (Pgnum × Key)}
    {sep : Key} {post : List InternalRecord} {l r : Node Key Pgnum}
    (pair : Siblings t par lo hi pre sep post l r) (side : Side) (last : side = .left → post = [])
    (small : (side.pick l r).1.size ≤ maxInternalKey / 8)
    (large : maxInternalKey / 2 ≤ (side.pick l r).1.size + (side.pick l r).2.size) :
    (∃ u, redistributeWith t lo hi pre side = .ok u ∧ Rotated u par lo hi pre sep post l r) ↔
      side = .right ∨ r.size = 0 ∧ l.size % 2 = 0 ∧
        internalRecord.get (t hi) (l.size / 2 - 1) = (sep, r.left) := by
  cases side with
  | right =>
      have small : l.size ≤ 31 := small
      have large : 124 ≤ l.size + r.size := large
      have fits := pair.right.size_le
      simp only [true_or, iff_true]
      exact pair.rotated_right (by omega) (show _ ≤ 248 by omega)
  | left =>
      cases last rfl
      simp only [reduceCtorEq, false_or]
      exact pair.rotated_left_iff small large

/-- **Redistribution between internal pages loses nothing if the sibling is on the
right.**  With the sibling on the left it does, but for an empty page and a happy
accident. -/
theorem redistribute_rotates_iff {t : Table} {par lo hi : Pgnum} {pre : List (Pgnum × Key)}
    {sep : Key} {post : List InternalRecord} {l r : Node Key Pgnum}
    (pair : Siblings t par lo hi pre sep post l r) (side : Side) (last : side = .left → post = [])
    (small : (side.pick l r).1.size ≤ maxInternalKey / 8)
    (large : maxInternalKey / 2 ≤ (side.pick l r).1.size + (side.pick l r).2.size) :
    (∃ u, redistributeWith t lo hi pre side = .ok u ∧ Rotated u par lo hi pre sep post l r) ↔
      side = .right ∨ r.size = 0 ∧ l.size % 2 = 0 ∧
        internalRecord.get (t hi) (l.size / 2 - 1) = (sep, r.left) :=
  pair.redistribute_iff side last small large

/-! ## Two siblings -/

section Two

variable (n m : Nat)

/-- Page 1 has the children 2 and 3.  Page 2 has `n` keys and the children 4 to
`n + 4`, page 3 has `m` keys and the children from 300 on. -/
def twoTable : Table := fun p =>
  if p = 1 then { (default : Page) with
    isLeaf := 0, numofkeys := 1, nextPgnum := 2
    slotKey := fun _ => 1000, slotChild := fun _ => 3 }
  else if p = 2 then { (default : Page) with
    parentPgnum := 1, isLeaf := 0, numofkeys := n, nextPgnum := 4
    slotKey := fun i => Int64.ofNat i, slotChild := fun i => i + 5 }
  else if p = 3 then { (default : Page) with
    parentPgnum := 1, isLeaf := 0, numofkeys := m, nextPgnum := 300
    slotKey := fun i => 2000 + Int64.ofNat i, slotChild := fun i => i + 301 }
  else { (default : Page) with parentPgnum := if p < 300 then 2 else 3 }

def lowNode : Node Key Pgnum := ⟨4, (List.range n).map fun i => (Int64.ofNat i, i + 5)⟩

def highNode : Node Key Pgnum := ⟨300, (List.range m).map fun i => (2000 + Int64.ofNat i, i + 301)⟩

theorem lowNode_children : (lowNode n).children = List.range' 4 (n + 1) := by
  rw [List.range'_succ, List.range'_eq_map_range]
  simp [lowNode, Function.comp_def, Nat.add_comm]

theorem highNode_children : (highNode m).children = List.range' 300 (m + 1) := by
  rw [List.range'_succ, List.range'_eq_map_range]
  simp [highNode, Function.comp_def, Nat.add_comm]

theorem twoTable_siblings (low : n ≤ 248) (high : m ≤ 248) :
    Siblings (twoTable n m) 1 2 3 [] 1000 [] (lowNode n) (highNode m) where
  parent := ⟨rfl, rfl, by decide⟩
  left := ⟨rfl, rfl, by simpa [lowNode, Node.size] using low⟩
  right := ⟨rfl, rfl, by simpa [highNode, Node.size] using high⟩
  up := ⟨rfl, rfl⟩
  different := by decide
  distinct := by
    rw [lowNode_children, highNode_children, List.nodup_append]
    refine ⟨List.nodup_range', List.nodup_range', fun (a : Nat) inLow (b : Nat) inHigh => ?_⟩
    rw [List.mem_range'_1] at inLow inHigh
    exact (by omega : (a : Nat) ≠ b)
  outside := by
    intro (c : Nat) member
    rw [lowNode_children, highNode_children, List.mem_append, List.mem_range'_1,
      List.mem_range'_1] at member
    exact ⟨(by omega : (c : Nat) ≠ 1), (by omega : (c : Nat) ≠ 2), (by omega : (c : Nat) ≠ 3)⟩
  parents := by
    constructor <;> intro (c : Nat) member
    · rw [lowNode_children, List.mem_range'_1] at member
      simp [twoTable, show c ≠ 1 by omega, show c ≠ 2 by omega, show c ≠ 3 by omega,
        show c < 300 by omega]
    · rw [highNode_children, List.mem_range'_1] at member
      simp [twoTable, show c ≠ 1 by omega, show c ≠ 2 by omega, show c ≠ 3 by omega,
        show ¬ c < 300 by omega]

end Two

/-- A page with 31 keys evens out with its right sibling of 100. -/
theorem redistribute_right_rotates :
    ∃ u, redistributeWith (twoTable 31 100) 2 3 [] .right = .ok u ∧
      Rotated u 1 2 3 [] 1000 [] (lowNode 31) (highNode 100) :=
  (redistribute_rotates_iff (twoTable_siblings 31 100 (by decide) (by decide)) .right nofun
    (by decide) (by decide)).mpr (.inl rfl)

/-- With its left sibling of 100 it loses a child. -/
theorem redistribute_left_not_rotated :
    ¬ ∃ u, redistributeWith (twoTable 100 31) 2 3 [] .left = .ok u ∧
      Rotated u 1 2 3 [] 1000 [] (lowNode 100) (highNode 31) := by
  rw [(twoTable_siblings 100 31 (by decide) (by decide)).redistribute_iff .left (fun _ => rfl)
    (by decide) (by decide)]
  rintro (side | ⟨empty, -⟩)
  · cases side
  · simp [highNode, Node.size] at empty

end SimpleDatabase.Kernel
