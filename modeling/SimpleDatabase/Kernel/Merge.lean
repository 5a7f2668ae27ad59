/- Kernel.Merge -- making two neighbours one page

Whichever of two neighbours underflowed, `coalesce_pages` appends the right page
to the left one and frees the right one; between internal pages the parent's
separator comes down between them, and the children that moved are told their new
parent.  What is left to do is to delete the separator from the parent.
-/
import SimpleDatabase.Kernel.Split

namespace SimpleDatabase.Kernel

open SimpleDatabase.Theory SimpleDatabase.Project5 Page

set_option autoImplicit false

/-! ## Appending one page to another -/

/-- Copying records and telling their children the new parent are one loop in the
code, and independent of each other. -/
theorem adopt_spec (src : Page) (pg : Pgnum) (i j n : Nat) (t : Table) (page : Page)
    (from_ : i + n ≤ 248) (to_ : j + n ≤ 248) :
    ∃ page', internalRecord.copyUp internalRecord src i j n page = .ok page' ∧
      adopt src pg i j n (t, page) =
        .ok (adoptAll t (((internalRecord.view src (i + n)).drop i).map Prod.snd) pg, page') := by
  induction n generalizing i j t page with
  | zero =>
      have none_ : (internalRecord.view src (i + 0)).drop i = [] :=
        List.drop_eq_nil_of_le (by simp)
      refine ⟨page, rfl, ?_⟩
      rw [none_]
      rfl
  | succ n ih =>
      obtain ⟨page', copy, run⟩ := ih (i + 1) (j + 1)
        (setParent t (internalRecord.get src i).2 pg)
        (internalRecord.put page j (internalRecord.get src i)) (by omega) (by omega)
      have first : internalRecord.read src i = .ok (internalRecord.get src i) :=
        Slots.read_ok _ (show i < 248 by omega)
      have stored : internalRecord.write page j (internalRecord.get src i) =
          .ok (internalRecord.put page j (internalRecord.get src i)) :=
        Slots.write_ok _ (show j < 248 by omega)
      refine ⟨page', ?_, ?_⟩
      · simp only [Slots.copyUp, first, stored, Exec.ok_bind, copy]
      · simp only [adopt, first, stored, Exec.ok_bind, run, Slots.view_drop, List.map_cons]
        rfl

theorem absorb_leaf {dst src : Page} {ls rs : List LeafRecord} (left : LeafPage dst ls)
    (right : LeafPage src rs) (fits : ls.length + rs.length ≤ maxLeafKey) (t : Table)
    (dstnum : Pgnum) (sep : Key) :
    ∃ p', absorb t dst src dstnum sep (ls.length + rs.length) = .ok (t, p') ∧
      LeafPage p' (ls ++ rs) ∧ p'.parentPgnum = dst.parentPgnum ∧ p'.nextPgnum = src.nextPgnum := by
  have fits : ls.length + rs.length ≤ 31 := fits
  have leftCount := left.numofkeys
  have rightCount := right.numofkeys
  obtain ⟨q, copy, header, records⟩ := leafRecord.copyUp_append leafRecord src dst 0 dst.numofkeys
    src.numofkeys (by simp only [leafRecord_cap]; omega) (by simp only [leafRecord_cap]; omega)
  have header : q.toHeader = dst.toHeader := header
  rw [Nat.zero_add, List.drop_zero, left.view, right.view, leftCount, rightCount] at records
  have up := congrArg Header.parentPgnum header
  refine ⟨{ q with nextPgnum := src.nextPgnum, numofkeys := ls.length + rs.length }, ?_,
    ⟨?_, records, ?_⟩, up, rfl⟩
  · simp only [absorb, left.tag, if_true, copy, Exec.ok_bind, Exec.pure_eq_ok]
  · exact (congrArg Header.isLeaf header).trans left.tag
  · rw [List.length_append]
    exact fits

theorem absorb_node {dst src : Page} {l r : Node Key Pgnum} (left : NodePage dst l)
    (right : NodePage src r) (fits : l.size + r.size + 1 ≤ maxInternalKey) (t : Table)
    (dstnum : Pgnum) (sep : Key) :
    ∃ p', absorb t dst src dstnum sep (l.size + r.size + 1) =
        .ok (adoptAll t r.children dstnum, p') ∧
      NodePage p' (Node.join l sep r) ∧ p'.parentPgnum = dst.parentPgnum := by
  have fits : l.size + r.size + 1 ≤ 248 := fits
  have leftCount := left.numofkeys
  have rightCount := right.numofkeys
  obtain ⟨mid, hmid⟩ : ∃ mid, mid = internalRecord.put dst dst.numofkeys (sep, src.leftPgnum) :=
    ⟨_, rfl⟩
  have down : internalRecord.write dst dst.numofkeys (sep, src.leftPgnum) = .ok mid := by
    rw [hmid]
    exact Slots.write_ok _ (show dst.numofkeys < 248 by omega)
  have middle : internalRecord.view mid (dst.numofkeys + 1) = l.recs ++ [(sep, src.leftPgnum)] := by
    rw [hmid, Slots.view_put_end, left.records]
  obtain ⟨q, copy, run⟩ := adopt_spec src dstnum 0 (dst.numofkeys + 1) src.numofkeys
    (setParent t src.leftPgnum dstnum) mid (by omega) (by omega)
  obtain ⟨q', copy', header, records⟩ := internalRecord.copyUp_append internalRecord src mid 0
    (dst.numofkeys + 1) src.numofkeys (show _ ≤ 248 by omega) (show _ ≤ 248 by omega)
  cases copy.symm.trans copy'
  have header : q.toHeader = dst.toHeader := header.trans (by rw [hmid]; rfl)
  rw [Nat.zero_add, List.drop_zero, middle, right.records, List.append_assoc] at records
  rw [Nat.zero_add, List.drop_zero, right.records] at run
  have up := congrArg Header.parentPgnum header
  refine ⟨{ q with numofkeys := l.size + r.size + 1 }, ?_, ⟨?_, ?_, ?_⟩, up⟩
  · simp only [absorb, left.tag, Nat.zero_ne_one, if_false, down, run, Exec.ok_bind,
      Exec.pure_eq_ok]
    rw [right.left]
    rfl
  · exact (congrArg Header.isLeaf header).trans left.tag
  · have leftmost : q.leftPgnum = l.left := (congrArg Header.nextPgnum header).trans left.left
    rw [leftCount, rightCount, right.left, show l.size + 1 + r.size = l.size + r.size + 1 by omega]
      at records
    exact congrArg₂ Node.mk leftmost records
  · rw [Node.size_join]
    exact fits

/-! ## Which page absorbs which -/

section Merge

variable {t : Table} {par pgnum neighbor : Pgnum} {pre : List (Pgnum × Key)} {sep : Key}
  {post : List InternalRecord}

/-- The number of keys two pages have together, with the separator that comes down
between internal ones. -/
abbrev together (isLeaf n m : Nat) : Nat := if isLeaf = 1 then n + m else n + m + 1

/-- With its right neighbour, a page absorbs it. -/
theorem mergePages_right (parent : NodePage (t par) (Node.plug pre pgnum ((sep, neighbor) :: post)))
    (up : (t pgnum).parentPgnum = par) :
    mergePages t pgnum neighbor (pre.length : Int) = do
      let s ← absorb t (t pgnum) (t neighbor) pgnum sep
        (together (t pgnum).isLeaf (t pgnum).numofkeys (t neighbor).numofkeys)
      return ⟨fileFreePage (fileWritePage s.1 pgnum s.2) neighbor, par, sep⟩ := by
  have index : separatorIndex (t par) (pre.length : Int) = .ok pre.length := by
    simp [separatorIndex]
  have here : internalRecord.read (t par) pre.length = .ok (sep, neighbor) :=
    parent.read (Node.recs_plug_getElem? pre pgnum ((sep, neighbor) :: post) 0)
  simp only [mergePages, fileReadPage, up, index, here, Exec.ok_bind]
  rw [if_pos (by omega)]

/-- The last child is absorbed by its left neighbour. -/
theorem mergePages_last (parent : NodePage (t par) (Node.plug pre neighbor [(sep, pgnum)]))
    (up : (t pgnum).parentPgnum = par) :
    mergePages t pgnum neighbor (-1) = do
      let s ← absorb t (t neighbor) (t pgnum) neighbor sep
        (together (t pgnum).isLeaf (t pgnum).numofkeys (t neighbor).numofkeys)
      return ⟨fileFreePage (fileWritePage s.1 neighbor s.2) pgnum, par, sep⟩ := by
  have count := parent.numofkeys
  rw [Node.size_plug, List.length_singleton] at count
  have index : separatorIndex (t par) (-1) = .ok pre.length := by
    simp [separatorIndex, count]
  have here : internalRecord.read (t par) pre.length = .ok (sep, pgnum) :=
    parent.read (Node.recs_plug_getElem? pre neighbor [(sep, pgnum)] 0)
  simp only [mergePages, fileReadPage, up, index, here, Exec.ok_bind]
  rw [if_neg (by decide)]

end Merge

/-- Writing the merged page back and freeing the other. -/
theorem Heap.merged {t : Table} {a : Alloc} {rest : List Pgnum} {lo hi : Pgnum}
    (heap : Heap t a (hi :: rest)) (used : lo ∈ rest) {cs : List Pgnum}
    (children : ∀ c ∈ cs, c ∈ rest ∧ c ≠ lo) (page : Page) :
    fileFreePage (fileWritePage (adoptAll t cs lo) lo page) hi lo = page ∧
      (∀ p ∈ rest, p ≠ lo → fileFreePage (fileWritePage (adoptAll t cs lo) lo page) hi p =
        if p ∈ cs then { t p with parentPgnum := lo } else t p) ∧
      Heap (fileFreePage (fileWritePage (adoptAll t cs lo) lo page) hi) (a.give hi) rest ∧
      getRootpgnum (fileFreePage (fileWritePage (adoptAll t cs lo) lo page) hi) =
        getRootpgnum t := by
  have adopted := heap.adopted (fun c member => List.mem_cons_of_mem hi (children c member).1) lo
  have written := adopted.1.write (List.mem_cons_of_mem hi used) page
  obtain ⟨after, kept, root, -⟩ := written.freed
  refine ⟨?_, fun p member other => ?_, after, ?_⟩
  · rw [kept lo used]
    simp [fileWritePage]
  · rw [kept p member, fileWritePage, Function.update_of_ne other, adoptAll_apply]
  · rw [root, (SameHeader.write page (heap.live_nonzero (List.mem_cons_of_mem hi used))).rootpgnum,
      adopted.2]

end SimpleDatabase.Kernel
