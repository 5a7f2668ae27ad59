/- Kernel.Neighbors -- two neighbouring trees that become one, or divide their keys anew

`coalesce_pages` and `redistribute_pages`, seen from the trees below the pages they
work on: two trees in a row (`Grafted`) become their `join`, or the two that the same
sequence is cut into at another place (`Evened`).  The parent's page is not part of
the view.  Merging leaves it to the next call of `delete_entry`, and redistribution
overwrites one separator in it.
-/
import SimpleDatabase.Theory.Shrink
import SimpleDatabase.Kernel.Graft
import SimpleDatabase.Kernel.Redistribute

namespace SimpleDatabase.Kernel

open SimpleDatabase.Theory SimpleDatabase.Theory.PageTree SimpleDatabase.Project5 Page

set_option autoImplicit false

/-- The pages of the children of a tree's root. -/
def childPages : {h : Nat} → Tree h → List Pgnum
  | 0, _ => []
  | _ + 1, s => s.root.children.map Paged.pg

theorem childPages_subset {h : Nat} (s : Tree h) : ∀ p ∈ childPages s, p ∈ s.pages ∧
    (s.pages.Nodup → p ≠ s.pg) := by
  cases h with
  | zero => simp [childPages]
  | succ h =>
      intro p member
      obtain ⟨c, child, rfl⟩ := List.mem_map.mp member
      have below : c.pg ∈ s.root.children.flatMap pages :=
        List.mem_flatMap.mpr ⟨c, child, pg_mem_pages c⟩
      exact ⟨List.mem_cons_of_mem _ below,
        fun distinct same => (List.nodup_cons.mp distinct).1 (same ▸ below)⟩

namespace Grafted

variable {t : Table} {a : Alloc} {par e : Pgnum} {rest : List Pgnum} {h : Nat} {l r : Tree h} {sep : Key}

/-! ## Two trees in a row -/

theorem pair_stored (graft : Grafted t a par e rest ⟨l, [(sep, r)]⟩) : Stored t par l ∧ Stored t par r :=
  ⟨graft.stored l (by simp), graft.stored r (by simp)⟩

theorem pair_heap (graft : Grafted t a par e rest ⟨l, [(sep, r)]⟩) :
    Heap t a (l.pages ++ (r.pages ++ rest)) := by
  simpa using graft.heap

theorem pair_nodup (graft : Grafted t a par e rest ⟨l, [(sep, r)]⟩) : (l.pages ++ r.pages).Nodup := by
  simpa using graft.nodup

/-- Neither root's page is the other's, or among the other pages in use. -/
theorem pair_pages (graft : Grafted t a par e rest ⟨l, [(sep, r)]⟩) :
    l.pg ≠ r.pg ∧ l.pg ∉ rest ∧ r.pg ∉ rest :=
  ⟨fun same => (List.nodup_append.mp graft.pair_nodup).2.2 _ (pg_mem_pages l) _ (pg_mem_pages r) same,
    graft.not_rest (by simp) (pg_mem_pages l), graft.not_rest (by simp) (pg_mem_pages r)⟩

/-! ## Two become one -/

/-- The right page's records appended to the left page's. -/
theorem absorbed (graft : Grafted t a par e rest ⟨l, [(sep, r)]⟩) (fits : l.size + r.size < maxKeys h) :
    ∃ page, absorb t (t l.pg) (t r.pg) l.pg sep (together (t l.pg).isLeaf l.size r.size) =
        .ok (adoptAll t (childPages r) l.pg, page) ∧
      page.parentPgnum = par ∧ Holds page (join l sep r).content ∧
      (h = 0 → page.nextPgnum = (t r.pg).nextPgnum) := by
  obtain ⟨left, right⟩ := graft.pair_stored
  cases h with
  | zero =>
      have fits : l.recs.length + r.recs.length < 31 := fits
      obtain ⟨page, run, held, up, next⟩ := absorb_leaf left.leafPage right.leafPage fits.le t l.pg sep
      refine ⟨page, ?_, up.trans left.up, held, fun _ => next⟩
      rw [together, if_pos left.leafPage.tag]
      exact run
  | succ h =>
      have fits : l.root.size + r.root.size < 248 := fits
      obtain ⟨page, run, held, up⟩ := absorb_node left.nodePage right.nodePage
        (by simp only [Node.size_map]; exact fits) t l.pg sep
      refine ⟨page, ?_, up.trans left.up, ?_, fun zero => nomatch zero⟩
      · rw [together, if_neg (by rw [left.nodePage.tag]; decide)]
        rw [Node.size_map, Node.size_map, Node.children_map] at run
        exact run
      · rw [← Node.map_join] at held
        exact held

/-- The children of both roots, each once. -/
theorem pair_children {l r : Tree (h + 1)} (graft : Grafted t a par e rest ⟨l, [(sep, r)]⟩) :
    ((l.root.children ++ r.root.children).flatMap pages).Nodup := by
  have distinct := graft.pair_nodup
  rw [pages_succ, pages_succ] at distinct
  rw [List.flatMap_append]
  exact distinct.sublist ((List.sublist_cons_self _ _).append (List.sublist_cons_self _ _))

theorem pair_disjoint {l r : Tree (h + 1)} (graft : Grafted t a par e rest ⟨l, [(sep, r)]⟩)
    {c : Tree h} (left : c ∈ l.root.children) : c ∉ r.root.children := by
  have distinct := graft.pair_children
  rw [List.flatMap_append, List.nodup_append] at distinct
  intro right
  exact distinct.2.2 c.pg (List.mem_flatMap.mpr ⟨c, left, pg_mem_pages c⟩) c.pg
    (List.mem_flatMap.mpr ⟨c, right, pg_mem_pages c⟩) rfl

/-- The left root's page is not below either root. -/
theorem pair_below {l r : Tree (h + 1)} (graft : Grafted t a par e rest ⟨l, [(sep, r)]⟩) {p : Pgnum}
    (inside : p ∈ (l.root.children ++ r.root.children).flatMap pages) : p ≠ l.pg ∧ p ≠ r.pg := by
  have distinct := graft.pair_nodup
  rw [pages_succ, pages_succ, List.cons_append, List.nodup_cons, List.nodup_append] at distinct
  obtain ⟨first, -, second, disjoint⟩ := distinct
  rw [List.flatMap_append, List.mem_append] at inside
  constructor
  · rintro rfl
    exact first (List.mem_append.mpr (inside.imp_right (List.mem_cons_of_mem _)))
  · rintro rfl
    rcases inside with left | right
    · exact disjoint _ left _ List.mem_cons_self rfl
    · exact (List.nodup_cons.mp second).1 right

/-- Nor is a page in use elsewhere. -/
theorem pair_below_rest {l r : Tree (h + 1)} (graft : Grafted t a par e rest ⟨l, [(sep, r)]⟩)
    {p : Pgnum} (inside : p ∈ (l.root.children ++ r.root.children).flatMap pages) : p ∉ rest := by
  rw [List.flatMap_append, List.mem_append] at inside
  rcases inside with left | right
  · exact graft.not_rest (c := l) (by simp) (List.mem_cons_of_mem _ left)
  · exact graft.not_rest (c := r) (by simp) (List.mem_cons_of_mem _ right)

/-- Some of the two roots' children get another parent: the leaves are linked as before. -/
theorem pair_linked {u : Table} {l r : Tree (h + 1)} (graft : Grafted t a par e rest ⟨l, [(sep, r)]⟩)
    {moved : List (Tree h)} {par' : Pgnum}
    (same : ∀ c ∈ l.root.children ++ r.root.children, ∀ p ∈ c.pages, u p =
      if p ∈ moved.map Paged.pg then { t p with parentPgnum := par' } else t p) :
    Linked (nextOf u) (l.leafPages ++ r.leafPages) e := by
  have linked : Linked (nextOf t) (l.leafPages ++ r.leafPages) e := by simpa using graft.linked
  apply linked.congr
  intro p member
  rw [leafPages_succ, leafPages_succ, ← List.flatMap_append] at member
  obtain ⟨c, child, at_⟩ := List.mem_flatMap.mp member
  rw [nextOf, same c child p (c.leafPages_subset at_)]
  split <;> rfl

/-- Once the left page holds the records of both, and the right one's children know it. -/
theorem joined (graft : Grafted t a par e rest ⟨l, [(sep, r)]⟩) {w : Table} {b : Alloc}
    (up : (w l.pg).parentPgnum = par) (held : Holds (w l.pg) (join l sep r).content)
    (next : h = 0 → (w l.pg).nextPgnum = (t r.pg).nextPgnum)
    (others : ∀ p ∈ (join l sep r).pages, p ≠ l.pg →
      w p = if p ∈ childPages r then { t p with parentPgnum := l.pg } else t p)
    (heap : Heap w b ((join l sep r).pages ++ rest)) : Grafted w b par e rest ⟨join l sep r, []⟩ := by
  obtain ⟨left, right⟩ := graft.pair_stored
  cases h with
  | zero =>
      have linked : Linked (nextOf t) [l.pg, r.pg] e := graft.linked
      obtain ⟨-, second, -⟩ := linked
      refine ⟨fun c child => ?_, by simpa using heap, ?_⟩
      · obtain rfl : c = join l sep r := by simpa using child
        exact ⟨up, held⟩
      · exact ⟨(next rfl).trans second, trivial⟩
  | succ h =>
      have inside : ∀ c ∈ l.root.children ++ r.root.children, ∀ p ∈ c.pages,
          w p = if p ∈ r.root.children.map Paged.pg then { t p with parentPgnum := l.pg } else t p := by
        intro c child p member
        have below : p ∈ (l.root.children ++ r.root.children).flatMap pages :=
          List.mem_flatMap.mpr ⟨c, child, member⟩
        refine others p ?_ (graft.pair_below below).1
        rw [join, pages_succ, root_branch, Node.children_join]
        exact List.mem_cons_of_mem _ below
      refine ⟨fun c child => ?_, by simpa using heap, ?_⟩
      · obtain rfl : c = join l sep r := by simpa using child
        refine ⟨⟨up, held⟩, ?_⟩
        intro c child
        -- the right one's children have a new parent
        rw [join, root_branch, Node.children_join] at child
        have both : ∀ {par'}, Stored t par' c → _ := fun stored => stored.reparented graft.pair_children
          (fun c member => List.mem_append_right l.root.children member) inside child
        rcases List.mem_append.mp child with member | member
        · exact (both (left.2 c member)).2 (graft.pair_disjoint member)
        · exact (both (right.2 c member)).1 member
      · simpa [leafPages_join] using graft.pair_linked inside

/-- **Merging two neighbours joins them**, and gives the right one's page back. -/
theorem merged (graft : Grafted t a par e rest ⟨l, [(sep, r)]⟩) (fits : l.size + r.size < maxKeys h) :
    ∃ s w, absorb t (t l.pg) (t r.pg) l.pg sep (together (t l.pg).isLeaf l.size r.size) = .ok s ∧
      w = fileFreePage (fileWritePage s.1 l.pg s.2) r.pg ∧
      Grafted w (a.give r.pg) par e rest ⟨join l sep r, []⟩ ∧
      (∀ p ∈ rest, w p = t p) ∧ getRootpgnum w = getRootpgnum t := by
  obtain ⟨page, run, up, held, next⟩ := graft.absorbed fits
  obtain ⟨-, leftOut, -⟩ := graft.pair_pages
  have distinct := List.nodup_append.mp graft.pair_nodup
  have books : Heap t a (r.pg :: ((join l sep r).pages ++ rest)) := graft.pair_heap.perm (by
    rw [← List.append_assoc]
    exact (pages_join l sep r).append_right rest)
  have listed : ∀ p, p ∈ r.pages → p ≠ r.pg → p ∈ (join l sep r).pages := fun p inside other => by
    have both := (pages_join l sep r).mem_iff.mpr (List.mem_append_right l.pages inside)
    exact (List.mem_cons.mp both).resolve_left other
  have moved : ∀ c ∈ childPages r, c ∈ (join l sep r).pages ++ rest ∧ c ≠ l.pg := by
    intro c member
    obtain ⟨inside, other⟩ := childPages_subset r c member
    exact ⟨List.mem_append_left _ (listed c inside (other distinct.2.1)),
      fun same => distinct.2.2 _ (pg_mem_pages l) c inside same.symm⟩
  have used : l.pg ∈ (join l sep r).pages ++ rest :=
    List.mem_append_left _ (join_pg l sep r ▸ pg_mem_pages (join l sep r))
  obtain ⟨atLeft, others, after, root⟩ := books.merged used moved page
  obtain ⟨w, hw⟩ : ∃ w, w = fileFreePage (fileWritePage (adoptAll t (childPages r) l.pg) l.pg page)
    r.pg := ⟨_, rfl⟩
  rw [← hw] at atLeft others after root
  refine ⟨(adoptAll t (childPages r) l.pg, page), w, run, hw, graft.joined ?_ ?_ ?_ ?_ after,
    fun p member => ?_, root⟩
  · rw [atLeft]
    exact up
  · rw [atLeft]
    exact held
  · rw [atLeft]
    exact next
  · exact fun p member => others p (List.mem_append_left _ member)
  · have other : p ≠ l.pg := fun same => leftOut (same ▸ member)
    have outside : p ∉ childPages r := fun at_ =>
      graft.not_rest (by simp) (childPages_subset r p at_).1 member
    exact (others p (List.mem_append_right _ member) other).trans (if_neg outside)

/-! ## Two divide their keys anew -/

end Grafted

/-- Two trees in a row have become two others in the same pages; the parent's page `pg`
has the new separator, and other pages in use are as they were. -/
structure Evened (t u : Table) (a : Alloc) (pg e : Pgnum) (rest : List Pgnum)
    (pre : List (Pgnum × Key)) (post : List InternalRecord) {h : Nat} (l : Tree h) (m : Key)
    (r : Tree h) : Prop where
  grafted : Grafted u a pg e rest ⟨l, [(m, r)]⟩
  node : NodePage (u pg) (Node.plug pre l.pg ((m, r.pg) :: post))
  up : (u pg).parentPgnum = (t pg).parentPgnum
  kept : ∀ p ∈ rest, p ≠ pg → u p = t p
  root : getRootpgnum u = getRootpgnum t

namespace Grafted

variable {t u : Table} {a : Alloc} {pg e : Pgnum} {rest : List Pgnum} {h : Nat} {sep : Key}
  {pre : List (Pgnum × Key)} {post : List InternalRecord}

section Frame

variable {l r : Tree h} (graft : Grafted t a pg e rest ⟨l, [(sep, r)]⟩)
include graft

theorem pair_kept (others : ∀ p, p ≠ pg → p ∉ l.pages → p ∉ r.pages → u p = t p) :
    ∀ p ∈ rest, p ≠ pg → u p = t p := fun p member other =>
  others p other (fun inside => graft.not_rest (by simp) inside member)
    fun inside => graft.not_rest (by simp) inside member

variable (used : pg ∈ rest)
include used

/-- The three pages of a redistribution are different. -/
theorem pair_different : pg ≠ l.pg ∧ pg ≠ r.pg ∧ l.pg ≠ r.pg := by
  obtain ⟨different, left, right⟩ := graft.pair_pages
  exact ⟨fun same => left (same ▸ used), fun same => right (same ▸ used), different⟩

/-- Where pages not in use are as they were, so are the books and the root's page. -/
theorem pair_frame (others : ∀ p, p ≠ pg → p ∉ l.pages → p ∉ r.pages → u p = t p) :
    Heap u a (l.pages ++ (r.pages ++ rest)) ∧ getRootpgnum u = getRootpgnum t := by
  have heap := graft.pair_heap
  have same : ∀ p, p ∉ l.pages ++ (r.pages ++ rest) → u p = t p := by
    intro p out
    rw [List.mem_append, List.mem_append, not_or, not_or] at out
    exact others p (fun at_ => out.2.2 (at_ ▸ used)) out.1 out.2.1
  exact ⟨heap.frame same, SameHeader.rootpgnum (same _ heap.header_not_live)⟩

end Frame

/-- Two leaves, once their records have been cut at another place. -/
theorem evened_leaves {l r : Tree 0} (graft : Grafted t a pg e rest ⟨l, [(sep, r)]⟩) (used : pg ∈ rest)
    {keep : Nat} {m : Key} (node : NodePage (u pg) (Node.plug pre l.pg ((m, r.pg) :: post)))
    (header : (u pg).toHeader = (t pg).toHeader)
    (left : LeafPage (u l.pg) ((l.recs ++ r.recs).take keep))
    (leftHeader : (u l.pg).parentPgnum = (t l.pg).parentPgnum ∧ (u l.pg).nextPgnum = (t l.pg).nextPgnum)
    (right : LeafPage (u r.pg) ((l.recs ++ r.recs).drop keep))
    (rightHeader : (u r.pg).parentPgnum = (t r.pg).parentPgnum ∧
      (u r.pg).nextPgnum = (t r.pg).nextPgnum)
    (others : ∀ p, p ≠ pg → p ≠ l.pg → p ≠ r.pg → u p = t p) :
    Evened t u a pg e rest pre post (leaf l.pg ((l.recs ++ r.recs).take keep)) m
      (leaf r.pg ((l.recs ++ r.recs).drop keep)) := by
  obtain ⟨storedLeft, storedRight⟩ := graft.pair_stored
  have others : ∀ p, p ≠ pg → p ∉ l.pages → p ∉ r.pages → u p = t p := fun p n1 n2 n3 =>
    others p n1 (fun same => n2 (same ▸ pg_mem_pages l)) fun same => n3 (same ▸ pg_mem_pages r)
  obtain ⟨heap, root⟩ := graft.pair_frame used others
  have linked : Linked (nextOf t) [l.pg, r.pg] e := graft.linked
  refine ⟨⟨fun c child => ?_, heap.perm (List.Perm.refl _), ?_⟩, node,
    congrArg Header.parentPgnum header, graft.pair_kept others, root⟩
  · have either : c = leaf l.pg ((l.recs ++ r.recs).take keep) ∨
        c = leaf r.pg ((l.recs ++ r.recs).drop keep) := by simpa using child
    rcases either with rfl | rfl
    · exact ⟨leftHeader.1.trans storedLeft.up, left⟩
    · exact ⟨rightHeader.1.trans storedRight.up, right⟩
  · exact ⟨leftHeader.2.trans linked.1, rightHeader.2.trans linked.2.1, trivial⟩

/-- Two leaves as one, cut in two. -/
theorem cut_leaves {l r : Tree 0} (sep : Key) {keep : Nat} {m : Key}
    (first : m ∈ ((l.recs ++ r.recs).drop keep).head?.map Prod.fst) :
    (join l sep r).cut keep r.pg = (leaf l.pg ((l.recs ++ r.recs).take keep), m,
      leaf r.pg ((l.recs ++ r.recs).drop keep)) := by
  have middle : (((l.recs ++ r.recs).drop keep).head?.map Prod.fst).getD default = m := by
    rw [Option.mem_def.mp first]
    rfl
  rw [← middle]
  rfl

/-- Two leaves, the left one of which has too few keys. -/
theorem evened_leaf_right {l r : Tree 0} (graft : Grafted t a pg e rest ⟨l, [(sep, r)]⟩)
    (used : pg ∈ rest) (node : NodePage (t pg) (Node.plug pre l.pg ((sep, r.pg) :: post)))
    (low : l.size < (l.size + r.size) / 2) :
    ∃ u l' m r', redistributePages t l.pg r.pg (pre.length : Int) = .ok u ∧
      (join l sep r).cut ((l.size + r.size) / 2) r.pg = (l', m, r') ∧
      Evened t u a pg e rest pre post l' m r' := by
  obtain ⟨left, right⟩ := graft.pair_stored
  have fitsLeft : l.size ≤ 31 := left.size_le
  have fitsRight : r.size ≤ 31 := right.size_le
  have balanced : balance t l.pg r.pg = (l.size + r.size) / 2 := by
    rw [balance, left.numofkeys, right.numofkeys]
  have whole : total t l.pg r.pg = l.size + r.size := by rw [total, left.numofkeys, right.numofkeys]
  obtain ⟨s', m, run, table, first, parent, header, leftPage, leftHeader, rightPage, rightHeader⟩ :=
    shiftLeafRight_spec (s := loaded t pg l.pg r.pg) left.leafPage right.leafPage node low.le
      (show _ < l.size + r.size by omega) (show _ ≤ 31 by omega)
  have leftUp := congrArg Header.parentPgnum leftHeader
  have leftNext := congrArg Header.nextPgnum leftHeader
  have rightUp := congrArg Header.parentPgnum rightHeader
  have rightNext := congrArg Header.nextPgnum rightHeader
  have result := redistributePages_right r.pg left.up pre.length
  rw [if_pos left.leafPage.tag, balanced, whole, run, Exec.ok_bind] at result
  obtain ⟨atPar, atLeft, atRight, others⟩ := commit_apply s' ((l.size + r.size) / 2) (l.size + r.size)
    (graft.pair_different used)
  refine ⟨_, _, _, _, result, cut_leaves sep first, graft.evened_leaves used ?_ ?_ ?_ ?_ ?_ ?_ ?_⟩
  · rwa [atPar]
  · rwa [atPar]
  · rwa [atLeft]
  · rw [atLeft]
    exact ⟨leftUp, leftNext⟩
  · rwa [atRight]
  · rw [atRight]
    exact ⟨rightUp, rightNext⟩
  · intro p n1 n2 n3
    rw [others p n1 n2 n3, table]

/-- Two leaves, the right one of which is the last and has too few keys. -/
theorem evened_leaf_left {l r : Tree 0} (graft : Grafted t a pg e rest ⟨l, [(sep, r)]⟩)
    (used : pg ∈ rest) (node : NodePage (t pg) (Node.plug pre l.pg [(sep, r.pg)]))
    (low : r.size < (l.size + r.size) / 2) :
    ∃ u l' m r', redistributePages t r.pg l.pg (-1) = .ok u ∧
      (join l sep r).cut (l.size + r.size - (l.size + r.size) / 2) r.pg = (l', m, r') ∧
      Evened t u a pg e rest pre [] l' m r' := by
  obtain ⟨left, right⟩ := graft.pair_stored
  have fitsLeft : l.size ≤ 31 := left.size_le
  have fitsRight : r.size ≤ 31 := right.size_le
  have balanced : balance t r.pg l.pg = (l.size + r.size) / 2 := by
    rw [balance, left.numofkeys, right.numofkeys, Nat.add_comm]
  have whole : total t r.pg l.pg = l.size + r.size := by
    rw [total, left.numofkeys, right.numofkeys, Nat.add_comm]
  obtain ⟨s', m, run, table, first, parent, header, rightPage, rightHeader, leftPage, leftHeader⟩ :=
    shiftLeafLeft_spec (s := loaded t pg r.pg l.pg) left.leafPage right.leafPage node low.le
      (by omega) (show _ ≤ l.size + r.size by omega) (show _ ≤ 31 by omega)
  have leftUp := congrArg Header.parentPgnum leftHeader
  have leftNext := congrArg Header.nextPgnum leftHeader
  have rightUp := congrArg Header.parentPgnum rightHeader
  have rightNext := congrArg Header.nextPgnum rightHeader
  have result := redistributePages_last node right.up
  rw [if_pos right.leafPage.tag, balanced, whole, run, Exec.ok_bind] at result
  obtain ⟨d1, d2, d3⟩ := graft.pair_different used
  obtain ⟨atPar, atRight, atLeft, others⟩ := commit_apply s' ((l.size + r.size) / 2) (l.size + r.size)
    ⟨d2, d1, Ne.symm d3⟩
  refine ⟨_, _, _, _, result, cut_leaves sep first, graft.evened_leaves used ?_ ?_ ?_ ?_ ?_ ?_ ?_⟩
  · rwa [atPar]
  · rwa [atPar]
  · rwa [atLeft]
  · rw [atLeft]
    exact ⟨leftUp, leftNext⟩
  · rwa [atRight]
  · rw [atRight]
    exact ⟨rightUp, rightNext⟩
  · intro p n1 n2 n3
    rw [others p n1 n3 n2, table]

/-- Two internal pages, as the code sees them. -/
theorem siblings {l r : Tree (h + 1)} (graft : Grafted t a pg e rest ⟨l, [(sep, r)]⟩)
    (used : pg ∈ rest) (node : NodePage (t pg) (Node.plug pre l.pg ((sep, r.pg) :: post))) :
    Siblings t pg l.pg r.pg pre sep post (l.root.map Paged.pg) (r.root.map Paged.pg) := by
  obtain ⟨left, right⟩ := graft.pair_stored
  refine ⟨node, left.nodePage, right.nodePage, ⟨left.up, right.up⟩, graft.pair_different used, ?_, ?_,
    fun c member => ?_, fun c member => ?_⟩
  · rw [Node.children_map, Node.children_map, ← List.map_append]
    exact map_pg_nodup graft.pair_children
  · intro c member
    rw [Node.children_map, Node.children_map, ← List.map_append] at member
    obtain ⟨d, child, rfl⟩ := List.mem_map.mp member
    have inside := List.mem_flatMap.mpr ⟨d, child, pg_mem_pages d⟩
    exact ⟨fun same => graft.pair_below_rest inside (same ▸ used), graft.pair_below inside⟩
  · rw [Node.children_map] at member
    obtain ⟨d, child, rfl⟩ := List.mem_map.mp member
    exact (Stored.up (left.2 d child))
  · rw [Node.children_map] at member
    obtain ⟨d, child, rfl⟩ := List.mem_map.mp member
    exact (Stored.up (right.2 d child))

section Nodes

variable {l r : Tree (h + 1)} {lt rt : Node Key (Tree h)} {m : Key} {moved : List (Tree h)}

/-- Two internal pages, once their children have been divided at another place. -/
theorem evened_nodes (graft : Grafted t a pg e rest ⟨l, [(sep, r)]⟩) (used : pg ∈ rest)
    (same : Node.join l.root sep r.root = Node.join lt m rt)
    (leftChildren : lt.children = l.root.children ++ moved)
    (rightChildren : r.root.children = moved ++ rt.children)
    (node : NodePage (u pg) (Node.plug pre l.pg ((m, r.pg) :: post)))
    (header : (u pg).toHeader = (t pg).toHeader) (leftNode : NodePage (u l.pg) (lt.map Paged.pg))
    (leftUp : (u l.pg).parentPgnum = pg) (rightNode : NodePage (u r.pg) (rt.map Paged.pg))
    (rightUp : (u r.pg).parentPgnum = pg)
    (others : ∀ p, p ≠ pg → p ≠ l.pg → p ≠ r.pg →
      u p = if p ∈ moved.map Paged.pg then { t p with parentPgnum := l.pg } else t p) :
    Evened t u a pg e rest pre post (branch l.pg lt) m (branch r.pg rt) := by
  obtain ⟨left, right⟩ := graft.pair_stored
  have disjoint := graft.pair_children
  have some_ : ∀ c ∈ moved, c ∈ l.root.children ++ r.root.children := fun c member =>
    List.mem_append_right _ (rightChildren ▸ List.mem_append_left _ member)
  -- below the two roots, the children that moved have a new parent
  have inside : ∀ c ∈ l.root.children ++ r.root.children, ∀ p ∈ c.pages,
      u p = if p ∈ moved.map Paged.pg then { t p with parentPgnum := l.pg } else t p := by
    intro c child p member
    have below := List.mem_flatMap.mpr ⟨c, child, member⟩
    obtain ⟨n1, n2⟩ := graft.pair_below below
    exact others p (fun at_ => graft.pair_below_rest below (at_ ▸ used)) n1 n2
  have outside : ∀ p, p ≠ pg → p ∉ l.pages → p ∉ r.pages → u p = t p := by
    intro p n1 n2 n3
    rw [others p n1 (fun at_ => n2 (at_ ▸ pg_mem_pages l)) fun at_ => n3 (at_ ▸ pg_mem_pages r), if_neg]
    intro at_
    obtain ⟨c, member, rfl⟩ := List.mem_map.mp at_
    exact n3 (List.mem_cons_of_mem _ (List.mem_flatMap.mpr
      ⟨c, rightChildren ▸ List.mem_append_left _ member, pg_mem_pages c⟩))
  obtain ⟨heap, root⟩ := graft.pair_frame used outside
  have joined : join l sep r = join (branch l.pg lt) m (branch r.pg rt) := congrArg (branch l.pg) same
  refine ⟨⟨fun c child => ?_, ?_, ?_⟩, node, congrArg Header.parentPgnum header,
    graft.pair_kept outside, root⟩
  · have either : c = branch l.pg lt ∨ c = branch r.pg rt := by simpa using child
    rcases either with rfl | rfl
    · refine ⟨⟨leftUp, leftNode⟩, ?_⟩
      intro c child
      rw [root_branch, leftChildren] at child
      rcases List.mem_append.mp child with own | new
      · have stays : c ∉ moved := fun member =>
          graft.pair_disjoint own (rightChildren ▸ List.mem_append_left _ member)
        exact (Stored.reparented disjoint some_ inside (List.mem_append_left _ own) (left.2 c own)).2
          stays
      · have theirs : c ∈ r.root.children := rightChildren ▸ List.mem_append_left _ new
        exact (Stored.reparented disjoint some_ inside (some_ c new) (right.2 c theirs)).1 new
    · refine ⟨⟨rightUp, rightNode⟩, ?_⟩
      intro c child
      have theirs : c ∈ r.root.children := rightChildren ▸ List.mem_append_right _ child
      have stays : c ∉ moved := by
        have roots := map_pg_nodup (disjoint.sublist
          (List.Sublist.flatMap (List.sublist_append_right l.root.children r.root.children) _))
        rw [rightChildren, List.map_append, List.nodup_append] at roots
        exact fun member => roots.2.2 _ (List.mem_map_of_mem member) _ (List.mem_map_of_mem child) rfl
      exact (Stored.reparented disjoint some_ inside (List.mem_append_right _ theirs)
        (right.2 c theirs)).2 stays
  · refine heap.perm ?_
    have before := pages_join l sep r
    rw [joined] at before
    have after := (pages_join (branch l.pg lt) m (branch r.pg rt)).symm.trans before
    simpa using after.append_right rest
  · have pages := congrArg leafPages joined
    rw [leafPages_join, leafPages_join] at pages
    have linked := graft.pair_linked inside
    rw [pages] at linked
    simpa using linked

/-- Two internal pages, the left one of which has too few keys. -/
theorem evened_node_right (graft : Grafted t a pg e rest ⟨l, [(sep, r)]⟩)
    (used : pg ∈ rest) (node : NodePage (t pg) (Node.plug pre l.pg ((sep, r.pg) :: post)))
    (low : l.size < (l.size + r.size) / 2) :
    ∃ u l' m r', redistributePages t l.pg r.pg (pre.length : Int) = .ok u ∧
      (join l sep r).cut ((l.size + r.size) / 2) r.pg = (l', m, r') ∧
      Evened t u a pg e rest pre post l' m r' := by
  obtain ⟨left, right⟩ := graft.pair_stored
  have fitsLeft : l.root.size ≤ 248 := left.size_le
  have fitsRight : r.root.size ≤ 248 := right.size_le
  obtain ⟨keep, hkeep⟩ : ∃ keep, keep = (l.root.size + r.root.size) / 2 := ⟨_, rfl⟩
  have low : l.root.size < keep := hkeep ▸ low
  show ∃ u l' m r', _ ∧ (join l sep r).cut ((l.root.size + r.root.size) / 2) r.pg = _ ∧ _
  rw [← hkeep]
  -- the two halves, as trees
  obtain ⟨lt, m, rt, joined, width, -⟩ := Node.exists_join (n := Node.join l.root sep r.root) (i := keep)
    (by rw [Node.size_join]; omega)
  have cut : (join l sep r).cut keep r.pg = (branch l.pg lt, m, branch r.pg rt) := by
    have halves := Node.cut_join lt m rt
    rw [width, ← joined] at halves
    show (branch l.pg ((Node.join l.root sep r.root).cut keep).1,
      ((Node.join l.root sep r.root).cut keep).2.1,
      branch r.pg ((Node.join l.root sep r.root).cut keep).2.2) = _
    rw [halves]
  obtain ⟨moved, leftChildren, rightChildren⟩ := Node.join_moved joined (width ▸ low)
  -- ... and as pages
  obtain ⟨u, l', m', r', moved', run, same, width', leftChildren', -, parent, header, leftNode,
    leftUp, rightNode, rightUp, others⟩ := (graft.siblings used node).rotate_right
      (by simp only [Node.size_map, ← hkeep]; exact low)
      (by simp only [Node.size_map]; show _ ≤ 248; omega)
  simp only [Node.size_map, ← hkeep] at width'
  rw [← Node.map_join, joined, Node.map_join] at same
  have equal := (Node.cut_join (lt.map Paged.pg) m (rt.map Paged.pg)).symm
  rw [Node.size_map, width, same, ← width', Node.cut_join] at equal
  obtain ⟨rfl, rfl, rfl⟩ : lt.map Paged.pg = l' ∧ m = m' ∧ rt.map Paged.pg = r' := by simpa using equal
  obtain rfl : moved.map Paged.pg = moved' := by
    rw [Node.children_map, Node.children_map, leftChildren, List.map_append] at leftChildren'
    exact List.append_cancel_left leftChildren'
  exact ⟨u, _, m, _, run, cut, graft.evened_nodes used joined leftChildren rightChildren parent header
    leftNode leftUp rightNode rightUp others⟩

end Nodes

theorem evened_right {l r : Tree h} (graft : Grafted t a pg e rest ⟨l, [(sep, r)]⟩)
    (used : pg ∈ rest) (node : NodePage (t pg) (Node.plug pre l.pg ((sep, r.pg) :: post)))
    (low : l.size < (l.size + r.size) / 2) :
    ∃ u l' m r', redistributePages t l.pg r.pg (pre.length : Int) = .ok u ∧
      (join l sep r).cut ((l.size + r.size) / 2) r.pg = (l', m, r') ∧
      Evened t u a pg e rest pre post l' m r' := by
  cases h with
  | zero => exact graft.evened_leaf_right used node low
  | succ h => exact graft.evened_node_right used node low

end Grafted

end SimpleDatabase.Kernel
