/- Kernel.Disk -- the disk manager keeps its accounts

`Heap t a live` says that a table file carries out the bookkeeping `a` while the
pages `live` are in use: following `freepgnum` finds `a`'s free pages,
`numofpages` is its number of pages, and free pages and pages in use are
`1 .. numofpages - 1`, each once.

`file_alloc_page` and `file_free_page` are `Alloc.take` and `Alloc.give`
(`Heap.alloc`, `Heap.freed`); writing a page in use and setting the root leave
the books alone.  Every run of the four keeps them.
-/
import SimpleDatabase.Theory.Run
import SimpleDatabase.Theory.Links
import SimpleDatabase.Theory.FreeList
import SimpleDatabase.Project5.DiskManager

namespace SimpleDatabase.Kernel

open SimpleDatabase.Theory SimpleDatabase.Project5

set_option autoImplicit false

/-! ## The header page -/

section Header

variable (t : Table) (n p : Pgnum)

@[simp] theorem getFreepgnum_setFreepgnum : getFreepgnum (setFreepgnum t n) = n := by
  simp [getFreepgnum, setFreepgnum, fileReadPage, fileWritePage, Header.freepgnum]

@[simp] theorem getFreepgnum_setNumofpages :
    getFreepgnum (setNumofpages t n) = getFreepgnum t := by
  simp [getFreepgnum, setNumofpages, fileReadPage, fileWritePage, Header.freepgnum]

@[simp] theorem getFreepgnum_setRootpgnum : getFreepgnum (setRootpgnum t n) = getFreepgnum t := by
  simp [getFreepgnum, setRootpgnum, fileReadPage, fileWritePage, Header.freepgnum]

@[simp] theorem getNumofpages_setFreepgnum :
    getNumofpages (setFreepgnum t n) = getNumofpages t := by
  simp [getNumofpages, setFreepgnum, fileReadPage, fileWritePage]

@[simp] theorem getNumofpages_setNumofpages : getNumofpages (setNumofpages t n) = n := by
  simp [getNumofpages, setNumofpages, fileReadPage, fileWritePage]

@[simp] theorem getNumofpages_setRootpgnum :
    getNumofpages (setRootpgnum t n) = getNumofpages t := by
  simp [getNumofpages, setRootpgnum, fileReadPage, fileWritePage]

@[simp] theorem getRootpgnum_setFreepgnum : getRootpgnum (setFreepgnum t n) = getRootpgnum t := by
  simp [getRootpgnum, setFreepgnum, fileReadPage, fileWritePage, Header.rootpgnum]

@[simp] theorem getRootpgnum_setNumofpages :
    getRootpgnum (setNumofpages t n) = getRootpgnum t := by
  simp [getRootpgnum, setNumofpages, fileReadPage, fileWritePage, Header.rootpgnum]

/-- The two halves of `rootpgnum` are read back as it was written. -/
@[simp] theorem getRootpgnum_setRootpgnum : getRootpgnum (setRootpgnum t n) = n := by
  simp [getRootpgnum, setRootpgnum, fileReadPage, fileWritePage, Header.rootpgnum, Nat.mod_add_div]

variable {p}

theorem setFreepgnum_other (other : p ≠ 0) : setFreepgnum t n p = t p := by
  simp [setFreepgnum, fileWritePage, other]

theorem setNumofpages_other (other : p ≠ 0) : setNumofpages t n p = t p := by
  simp [setNumofpages, fileWritePage, other]

theorem setRootpgnum_other (other : p ≠ 0) : setRootpgnum t n p = t p := by
  simp [setRootpgnum, fileWritePage, other]

end Header

/-- Two tables have one header page. -/
def SameHeader (t t' : Table) : Prop := t' headerPagenum = t headerPagenum

namespace SameHeader

variable {t t' : Table}

theorem freepgnum (same : SameHeader t t') : getFreepgnum t' = getFreepgnum t := by
  simp only [getFreepgnum, fileReadPage, show t' headerPagenum = t headerPagenum from same]

theorem numofpages (same : SameHeader t t') : getNumofpages t' = getNumofpages t := by
  simp only [getNumofpages, fileReadPage, show t' headerPagenum = t headerPagenum from same]

theorem rootpgnum (same : SameHeader t t') : getRootpgnum t' = getRootpgnum t := by
  simp only [getRootpgnum, fileReadPage, show t' headerPagenum = t headerPagenum from same]

theorem write {p : Pgnum} (page : Page) (nonzero : p ≠ 0) :
    SameHeader t (fileWritePage t p page) := by
  simp [SameHeader, fileWritePage, Ne.symm nonzero]

end SameHeader

/-! ## The links -/

@[simp] theorem preadLink_pwriteLink (t : Table) (p q next : Nat) :
    preadLink (pwriteLink t p next) q = if q = p then next else preadLink t q := by
  by_cases same : q = p <;> simp [preadLink, pwriteLink, same]

theorem pwriteLink_other (t : Table) {p q : Nat} (next : Nat) (other : q ≠ p) :
    pwriteLink t p next q = t q := by
  simp [pwriteLink, other]

/-- The linking loop changes the pages `i .. i + n - 1`, each to point one on. -/
theorem linkFreePages_spec (t : Table) (i n p : Nat) :
    linkFreePages t i n p =
      if i ≤ p ∧ p < i + n then { t p with parentPgnum := p + 1 } else t p := by
  induction n generalizing t i with
  | zero =>
      rw [if_neg (by omega)]
      rfl
  | succ n ih =>
      rw [linkFreePages, ih]
      by_cases here : p = i
      · subst here
        rw [if_neg (by omega), if_pos (by omega)]
        simp [pwriteLink]
      · rw [pwriteLink_other t (i + 1) here]
        by_cases later : i + 1 ≤ p ∧ p < i + 1 + n
        · rw [if_pos later, if_pos (by omega)]
        · rw [if_neg later, if_neg (by omega)]

/-- Links that each point one on, from `i` to a null one, chain the whole block. -/
theorem chain_block {next : Nat → Nat} (i n : Nat) (pos : 1 ≤ i)
    (link : ∀ p, i ≤ p → p < i + n → next p = p + 1) (last : next (i + n) = 0) :
    Chain next i (List.range' i (n + 1)) := by
  induction n generalizing i with
  | zero =>
      refine Chain.cons (by omega) ?_
      rw [show next i = 0 from last]
      exact Chain.nil
  | succ n ih =>
      have step : next i = i + 1 := link i (by omega) (by omega)
      rw [List.range'_succ]
      refine Chain.cons (by omega) ?_
      rw [step]
      exact ih (i + 1) (by omega) (fun p low high => link p (by omega) (by omega))
        (by rwa [show i + 1 + n = i + (n + 1) by omega])

/-! ## The books -/

/-- The table file keeps the books `a`, with the pages `live` in use. -/
structure Heap (t : Table) (a : Alloc) (live : List Pgnum) : Prop where
  chain : Chain (preadLink t) (getFreepgnum t) a.free
  num : getNumofpages t = a.num
  accounts : a.Accounts live

namespace Heap

variable {t t' : Table} {a : Alloc} {live live' : List Pgnum}

/-- The pages handed out in blocks of `FREEPAGE_GROW_RATE`. -/
abbrev take (a : Alloc) : Pgnum × Alloc := a.take freepageGrowRate

theorem perm (heap : Heap t a live) (same : live'.Perm live) : Heap t a live' :=
  ⟨heap.chain, heap.num, heap.accounts.congr same⟩

/-- Only the header's numbers and the links of the free pages matter. -/
theorem congr (heap : Heap t a live) (first : getFreepgnum t' = getFreepgnum t)
    (number : getNumofpages t' = getNumofpages t) (links : ∀ p ∈ a.free, preadLink t' p = preadLink t p) :
    Heap t' a live :=
  ⟨first ▸ heap.chain.congr links, number.trans heap.num, heap.accounts⟩

theorem live_nonzero (heap : Heap t a live) {p : Pgnum} (used : p ∈ live) : p ≠ 0 :=
  (heap.accounts.live_bounds used).1

theorem header_not_live (heap : Heap t a live) : headerPagenum ∉ live :=
  fun used => heap.live_nonzero used rfl

theorem nodup (heap : Heap t a live) : live.Nodup := heap.accounts.live_nodup

/-- Writing pages in use leaves the books alone. -/
theorem frame (heap : Heap t a live) (same : ∀ p, p ∉ live → t' p = t p) : Heap t' a live := by
  have header : SameHeader t t' := same _ heap.header_not_live
  apply heap.congr header.freepgnum header.numofpages
  intro p unused
  have other : p ∉ live := fun used => heap.accounts.disjoint used unused
  simp only [preadLink, same p other]

theorem write (heap : Heap t a live) {p : Pgnum} (used : p ∈ live) (page : Page) :
    Heap (fileWritePage t p page) a live :=
  heap.frame fun q other => by
    have : q ≠ p := fun same => other (same ▸ used)
    simp [fileWritePage, this]

theorem setRoot (heap : Heap t a live) (root : Pgnum) : Heap (setRootpgnum t root) a live :=
  heap.congr (by simp) (by simp) fun p unused => by
    simp only [preadLink, setRootpgnum_other t root (heap.accounts.free_bounds unused).1]

/-- **`file_alloc_page` hands out a page as the books say**, and changes nothing
but the header and free pages. -/
theorem alloc (heap : Heap t a live) :
    (fileAllocPage t).1 = (take a).1 ∧
      Heap (fileAllocPage t).2 (take a).2 ((take a).1 :: live) ∧
      (∀ p ∈ live, (fileAllocPage t).2 p = t p) ∧
      getRootpgnum (fileAllocPage t).2 = getRootpgnum t := by
  have accounts := heap.accounts.take freepageGrowRate (by decide)
  obtain ⟨free, num⟩ := a
  cases free with
  | cons p ps =>
      have head : getFreepgnum t = p := heap.chain.head_eq
      have some_ : p ≠ 0 := fun none_ => heap.chain.nonnull (by simp [none_])
      have run : fileAllocPage t = (p, setFreepgnum t (preadLink t p)) := by
        simp [fileAllocPage, some_, head]
      have kept : ∀ q, q ≠ 0 → setFreepgnum t (preadLink t p) q = t q := fun q other =>
        setFreepgnum_other t _ other
      simp only [run, take, Alloc.take] at accounts ⊢
      refine ⟨trivial, ⟨?_, by simpa using heap.num, accounts⟩, fun q used => ?_, by simp⟩
      · rw [getFreepgnum_setFreepgnum]
        apply heap.chain.tail.congr
        intro q unused
        have other : q ≠ 0 := (heap.accounts.free_bounds (List.mem_cons_of_mem p unused)).1
        exact congrArg (·.parentPgnum) (kept q other)
      · exact kept q (heap.live_nonzero used)
  | nil =>
      have none_ : getFreepgnum t = 0 := heap.chain.head_eq
      have number : getNumofpages t = num := heap.num
      have pos : 1 ≤ num := heap.accounts.pos
      -- the table after the links are written, before the header is
      obtain ⟨u, hu⟩ : ∃ u, u = pwriteLink (linkFreePages t (num + 1) (freepageGrowRate - 1))
        (num + freepageGrowRate - 1) 0 := ⟨_, rfl⟩
      have run : fileAllocPage t =
          (num, setNumofpages (setFreepgnum u (num + 1)) (num + freepageGrowRate)) := by
        simp [fileAllocPage, none_, number, hu]
      have kept : ∀ q : Nat, q ≤ num → u q = t q := fun q low => by
        rw [hu, pwriteLink_other _ _ (by simp only [freepageGrowRate]; omega), linkFreePages_spec,
          if_neg (by omega)]
      have header : SameHeader t u := kept 0 (by omega)
      have after : ∀ q : Nat, q ≠ 0 →
          setNumofpages (setFreepgnum u (num + 1)) (num + freepageGrowRate) q = u q :=
        fun q other => by rw [setNumofpages_other _ _ other, setFreepgnum_other _ _ other]
      simp only [run, take, Alloc.take] at accounts ⊢
      refine ⟨trivial, ⟨?_, by simp, accounts⟩, fun q used => ?_, ?_⟩
      · rw [getFreepgnum_setNumofpages, getFreepgnum_setFreepgnum]
        have links : ∀ q : Nat, q ≠ 0 → preadLink
            (setNumofpages (setFreepgnum u (num + 1)) (num + freepageGrowRate)) q =
              preadLink u q := fun q other => by simp only [preadLink, after q other]
        refine chain_block (num + 1) (freepageGrowRate - 2) (by omega) (fun q low high => ?_) ?_
        · rw [links q (by omega), hu, preadLink_pwriteLink,
            if_neg (by simp only [freepageGrowRate] at high ⊢; omega), preadLink,
            linkFreePages_spec, if_pos (by simp only [freepageGrowRate] at high ⊢; omega)]
        · rw [links _ (by omega), hu, preadLink_pwriteLink,
            if_pos (by simp only [freepageGrowRate]; omega)]
      · have bounds := heap.accounts.live_bounds used
        rw [after q bounds.1, kept q bounds.2.le]
      · rw [getRootpgnum_setNumofpages, getRootpgnum_setFreepgnum, header.rootpgnum]

/-- `numofpages` grows exactly when no page is free. -/
theorem alloc_numofpages (heap : Heap t a live) :
    getNumofpages (fileAllocPage t).2 =
      if a.free = [] then getNumofpages t + freepageGrowRate else getNumofpages t := by
  rw [heap.alloc.2.1.num, heap.num]
  obtain ⟨free, num⟩ := a
  cases free <;> simp [take, Alloc.take]

/-- **`file_free_page` takes a page back as the books say**, and changes nothing
but the header and that page. -/
theorem freed {p : Pgnum} (heap : Heap t a (p :: live)) :
    Heap (fileFreePage t p) (a.give p) live ∧ (∀ q ∈ live, fileFreePage t p q = t q) ∧
      getRootpgnum (fileFreePage t p) = getRootpgnum t ∧
      getNumofpages (fileFreePage t p) = getNumofpages t := by
  have nonzero : p ≠ 0 := heap.live_nonzero (by simp)
  have kept : ∀ q, q ≠ 0 → q ≠ p → fileFreePage t p q = t q := fun q header other => by
    rw [fileFreePage, pwriteLink_other _ _ other, setFreepgnum_other _ _ header]
  have same : SameHeader (setFreepgnum t p) (fileFreePage t p) :=
    pwriteLink_other _ _ (Ne.symm nonzero)
  refine ⟨⟨?_, ?_, heap.accounts.give⟩, fun q used => ?_, ?_, ?_⟩
  · rw [same.freepgnum, getFreepgnum_setFreepgnum]
    refine Chain.cons nonzero ?_
    have link : preadLink (fileFreePage t p) p = getFreepgnum t := by
      simp [fileFreePage]
    rw [link]
    apply heap.chain.congr
    intro q unused
    have other : q ≠ p := fun same => heap.accounts.disjoint (by simp [same]) unused
    simp only [preadLink, kept q (heap.accounts.free_bounds unused).1 other]
  · rw [same.numofpages, getNumofpages_setFreepgnum]
    exact heap.num
  · have other : q ≠ p := fun same => (List.nodup_cons.mp heap.nodup).1 (same ▸ used)
    exact kept q (heap.live_nonzero (by simp [used])) other
  · rw [same.rootpgnum, getRootpgnum_setFreepgnum]
  · rw [same.numofpages, getNumofpages_setFreepgnum]

end Heap

/-! ## Runs of the disk manager -/

/-- A table file, and the pages its client has been handed and not given back. -/
structure DiskState where
  table : Table
  allocated : List Pgnum

inductive DiskOp where
  | alloc
  | free (pgnum : Pgnum)
  | write (pgnum : Pgnum) (src : Page)
  | setRoot (src : Pgnum)

/-- One call.  A client gives back and writes only pages it has been handed. -/
inductive DiskStep : DiskState → DiskOp → DiskState → Prop
  | alloc (s : DiskState) :
      DiskStep s .alloc ⟨(fileAllocPage s.table).2, (fileAllocPage s.table).1 :: s.allocated⟩
  | free {s : DiskState} {p : Pgnum} (held : p ∈ s.allocated) :
      DiskStep s (.free p) ⟨fileFreePage s.table p, s.allocated.erase p⟩
  | write {s : DiskState} {p : Pgnum} (src : Page) (held : p ∈ s.allocated) :
      DiskStep s (.write p src) ⟨fileWritePage s.table p src, s.allocated⟩
  | setRoot (s : DiskState) (src : Pgnum) :
      DiskStep s (.setRoot src) ⟨setRootpgnum s.table src, s.allocated⟩

/-- The file keeps books that its allocated pages agree with. -/
def Booked (s : DiskState) : Prop := ∃ a, Heap s.table a s.allocated

theorem Booked.step (s : DiskState) (op : DiskOp) (s' : DiskState) (booked : Booked s)
    (step : DiskStep s op s') : Booked s' := by
  obtain ⟨a, heap⟩ := booked
  cases step with
  | alloc =>
      obtain ⟨page, after, -⟩ := heap.alloc
      exact ⟨_, page ▸ after⟩
  | free held => exact ⟨_, (heap.perm (List.perm_cons_erase held).symm).freed.1⟩
  | write src held => exact ⟨_, heap.write held src⟩
  | setRoot src => exact ⟨_, heap.setRoot _⟩

/-- A file with no page but its header. -/
theorem Booked.fresh {t : Table} (free : getFreepgnum t = 0) (num : getNumofpages t = 1) :
    Booked ⟨t, []⟩ := by
  refine ⟨⟨[], 1⟩, ?_, num, ⟨Nat.le_refl 1, List.Perm.refl _⟩⟩
  rw [free]
  exact Chain.nil

/-- The free pages of a table file are `free`, and its next call is safe. -/
structure InOrder (s : DiskState) (free : List Pgnum) : Prop where
  /-- Following `freepgnum` finds `free`, and ends in 0. -/
  list : Chain (preadLink s.table) (getFreepgnum s.table) free
  nodup : free.Nodup
  disjoint : ∀ p ∈ free, p ∉ s.allocated
  all : ∀ p, p ∈ free ∨ p ∈ s.allocated ↔ 1 ≤ p ∧ p < getNumofpages s.table
  alloc_new : (fileAllocPage s.table).1 ≠ 0 ∧ (fileAllocPage s.table).1 ∉ s.allocated
  alloc_grows : getNumofpages (fileAllocPage s.table).2 =
    if free = [] then getNumofpages s.table + freepageGrowRate else getNumofpages s.table
  alloc_keeps : getRootpgnum (fileAllocPage s.table).2 = getRootpgnum s.table ∧
    ∀ p ∈ s.allocated, (fileAllocPage s.table).2 p = s.table p
  free_keeps : ∀ p ∈ s.allocated, getRootpgnum (fileFreePage s.table p) = getRootpgnum s.table ∧
    ∀ q ∈ s.allocated, q ≠ p → fileFreePage s.table p q = s.table q

theorem Heap.inOrder {s : DiskState} {a : Alloc} (heap : Heap s.table a s.allocated) :
    InOrder s a.free where
  list := heap.chain
  nodup := heap.accounts.free_nodup
  disjoint p unused used := heap.accounts.disjoint used unused
  all p := by
    rw [heap.num, ← heap.accounts.mem_iff, or_comm]
  alloc_new := by
    rw [heap.alloc.1]
    exact heap.accounts.take_fresh freepageGrowRate (by decide)
  alloc_grows := heap.alloc_numofpages
  alloc_keeps := ⟨heap.alloc.2.2.2, heap.alloc.2.2.1⟩
  free_keeps p held := by
    obtain ⟨-, kept, root, -⟩ := (heap.perm (List.perm_cons_erase held).symm).freed
    exact ⟨root, fun q used other => kept q ((List.mem_erase_of_ne other).mpr used)⟩

/-- **The free list is sound in every run** of the disk manager on a fresh file. -/
theorem diskRun_inOrder {t : Table} (free : getFreepgnum t = 0) (num : getNumofpages t = 1)
    {ops : List DiskOp} {s : DiskState} (run : Run DiskStep ⟨t, []⟩ ops s) :
    ∃ free, InOrder s free := by
  obtain ⟨a, heap⟩ := run.invariant Booked.step (Booked.fresh free num)
  exact ⟨a.free, heap.inOrder⟩

/-- A page handed out, written and given back heads the free list. -/
theorem diskRun_inOrder_three :
    ∃ s free, Run DiskStep ⟨fileWritePage (fun _ => default) 0 { (default : Page) with numofpages := 1 }, []⟩
      [.alloc, .write 1 default, .free 1] s ∧ InOrder s free := by
  have run : Run DiskStep
      ⟨fileWritePage (fun _ => default) 0 { (default : Page) with numofpages := 1 }, []⟩
      [.alloc, .write 1 default, .free 1] _ :=
    .cons (.alloc _) (.cons (.write default (List.mem_singleton.mpr rfl))
      (.cons (.free (List.mem_singleton.mpr rfl)) (.nil _)))
  obtain ⟨free, sound⟩ := diskRun_inOrder rfl rfl run
  exact ⟨_, free, run, sound⟩

end SimpleDatabase.Kernel
