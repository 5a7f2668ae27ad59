/- Kernel.Deletion -- `delete_entry` is deletion from a B+ tree

The cascade runs from a leaf up.  When a record is out of a page (`Removed`), the trees
are complete again, but that page may have too few keys.  If it has, it is settled with
a neighbour: `redistribute_pages` ends the cascade, and `coalesce_pages` calls
`delete_entry` for the parent, to take out the separator between the two.

`Deletion` says where a call has come to: it has returned, or it is about to look at
the root of the tree it was called on.  `shrink_outcome` climbs the path.  In one case the
trees are not complete again (`Spoiled`): two internal pages of which the right one is its
parent's last child and has too few keys, with too many in the left one to merge.  There
`redistribute_pages` is wrong (`redistribute_rotates_iff`), and the cascade ends.

Read as declared, `internal_record` must not be read at -1, so no last child of a page
with one key may come to that (`Overreads`).
-/
import SimpleDatabase.Kernel.Cascade
import SimpleDatabase.Kernel.Invariant
import SimpleDatabase.Kernel.Neighbors

namespace SimpleDatabase.Kernel

open SimpleDatabase.Theory SimpleDatabase.Theory.PageTree SimpleDatabase.Project5 Page

set_option autoImplicit false

/-- Two neighbours with fewer keys than this become one page. -/
def mergeBelow (h : Nat) : Nat := if h = 0 then maxLeafKey / 2 else maxInternalKey / 2

@[simp] theorem mergeBelow_zero : mergeBelow 0 = 15 := rfl

@[simp] theorem mergeBelow_succ (h : Nat) : mergeBelow (h + 1) = 124 := rfl

theorem capacity_two (h : Nat) : 2 ≤ mergeBelow h := by
  cases h <;> simp

theorem capacity_le_room (h : Nat) : mergeBelow h ≤ maxKeys h := by
  cases h <;> simp

/-- The deletion the code performs. -/
abbrev shrinkTree (k : Key) {h : Nat} (s : Tree h) (a : Alloc) : Shrinkage Key Value h :=
  shrink minKeys mergeBelow k s a

/-! ## One call of `delete_entry` -/

/-- The record with the key is out of the page, and the page is written back. -/
def Removed (t : Table) (pg : Pgnum) (key : Key) (u : Table) : Prop :=
  ∃ page, removeEntryFromPage (t pg) key = .ok page ∧ u = fileWritePage t pg page

section Call

open DeleteCall

variable {bounds : Bounds} {t u : Table} {pg : Pgnum} {key : Key}

theorem Removed.page (removed : Removed t pg key u) :
    removeEntryFromPage (t pg) key = .ok (u pg) := by
  obtain ⟨page, run, rfl⟩ := removed
  simpa [fileWritePage] using run

theorem Removed.wrote (removed : Removed t pg key u) : fileWritePage t pg (u pg) = u := by
  obtain ⟨page, run, rfl⟩ := removed
  simp [fileWritePage]

theorem Removed.other (removed : Removed t pg key u) {p : Pgnum} (other : p ≠ pg) : t p = u p := by
  obtain ⟨page, run, rfl⟩ := removed
  simp [fileWritePage, other]

theorem Removed.root (removed : Removed t pg key u) (nonzero : pg ≠ 0) :
    getRootpgnum t = getRootpgnum u := by
  obtain ⟨page, run, rfl⟩ := removed
  exact (SameHeader.write page nonzero).rootpgnum.symm

/-- Where the page is the root. -/
theorem Removed.ends_at_root (removed : Removed t pg key u) (nonzero : pg ≠ 0)
    (root : getRootpgnum u = pg) : Ends bounds ⟨t, pg, key⟩ (adjustRoot u pg) := by
  have ends : Ends bounds ⟨t, pg, key⟩ (adjustRoot (fileWritePage t pg (u pg)) pg) :=
    DeleteCall.ends_at_root removed.page (root.symm.trans (removed.root nonzero).symm)
  rwa [removed.wrote] at ends

variable (removed : Removed t pg key u) (nonzero : pg ≠ 0) (inner : getRootpgnum u ≠ pg)
include removed nonzero inner

/-- Where it has enough keys. -/
theorem Removed.ends_with_enough
    (enough : (if (u pg).isLeaf = 1 then maxLeafKey / 8 else maxInternalKey / 8) < (u pg).numofkeys) :
    Ends bounds ⟨t, pg, key⟩ u := by
  have inner : pg ≠ getRootpgnum t := removed.root nonzero ▸ Ne.symm inner
  have ends : Ends bounds ⟨t, pg, key⟩ (fileWritePage t pg (u pg)) :=
    DeleteCall.ends_with_enough removed.page inner enough
  rwa [removed.wrote] at ends

variable {par : Pgnum} (different : par ≠ pg) (up : (u pg).parentPgnum = par) {i : Int}
  (few : (u pg).numofkeys ≤ if (u pg).isLeaf = 1 then maxLeafKey / 8 else maxInternalKey / 8)
  (index : getNeighborIndex (u par) pg = .ok i)
include different up few index

/-- Where it has too few, the call goes on with a neighbour ... -/
theorem Removed.settles {neighborNum : Pgnum}
    (child : childAt bounds (u par) (if i = -1 then ((u par).numofkeys : Int) - 2 else i) =
      .ok neighborNum) : Settles bounds ⟨t, pg, key⟩ (u pg) neighborNum i := by
  have parent : t (u pg).parentPgnum = u par := by rw [up, removed.other different]
  rw [← parent] at index child
  exact ⟨removed.page, removed.root nonzero ▸ Ne.symm inner, few, index, child⟩

/-- ... if it can read which. -/
theorem Removed.overreads
    (outside : childAt bounds (u par) (if i = -1 then ((u par).numofkeys : Int) - 2 else i) =
      .error .outOfBounds) (fuel : Nat) :
    DeleteCall.run bounds ⟨t, pg, key⟩ (fuel + 1) = .error .outOfBounds := by
  have parent : t (u pg).parentPgnum = u par := by rw [up, removed.other different]
  rw [← parent] at index outside
  exact run_overreads (c := ⟨t, pg, key⟩) removed.page (removed.root nonzero ▸ Ne.symm inner) few
    index outside fuel

end Call

/-! ## Where a call has come to -/

/-- A call that deletes from a tree has returned, or it is about to look at the page of
the tree's root, which has lost a key. -/
def DeletesTo (bounds : Bounds) (c : DeleteCall) (u : Table) {h : Nat} : Shrunk Key Value h → Prop
  | .lost s => ∃ t key, c.Climbs bounds ⟨t, s.pg, key⟩ ∧ Removed t s.pg key u
  | .kept _ => ∃ c', c.Climbs bounds c' ∧ c'.Ends bounds u

/-- The call has come to the table `u`, in which the tree is complete; other pages in
use are as they were. -/
structure Deletion (bounds : Bounds) (c : DeleteCall) (t : Table) (par e : Pgnum) (rest : List Pgnum)
    {h : Nat} (d : Shrinkage Key Value h) (u : Table) : Prop where
  deletesTo : DeletesTo bounds c u d.shrunk
  grafted : Grafted u d.alloc par e rest ⟨d.shrunk.tree, []⟩
  kept : ∀ p ∈ rest, u p = t p
  root : getRootpgnum u = getRootpgnum t

/-- The pages that redistribution does not spoil: all but an internal page that is its
parent's last child, next to one with too many keys to merge. -/
def Underflow.Smooth (x : Underflow) : Prop := 1 ≤ x.height → x.last → x.keys + x.neighbor < 124

instance : DecidablePred Underflow.Smooth := fun x =>
  inferInstanceAs (Decidable (1 ≤ x.height → x.last → x.keys + x.neighbor < 124))

/-- The call has returned, from a redistribution that spoiled two pages. -/
structure Spoiled (bounds : Bounds) (c : DeleteCall) {h : Nat} (d : Shrinkage Key Value h) : Prop where
  kept : ∃ s, d.shrunk = .kept s
  rough : ∃ x ∈ d.underflows, ¬ Underflow.Smooth x
  ends : ∃ c' u, c.Climbs bounds c' ∧ c'.Ends bounds u

variable {bounds : Bounds} {t u : Table} {a : Alloc} {par pg e : Pgnum} {rest : List Pgnum} {h : Nat}
  {k key : Key} {c₀ c₁ : DeleteCall}

/-- What a call comes to, the calls before it come to. -/
theorem DeletesTo.after {s : Shrunk Key Value h}
    (before : ∀ c', c₁.Climbs bounds c' → c₀.Climbs bounds c') (comes : DeletesTo bounds c₁ u s) :
    DeletesTo bounds c₀ u s := by
  cases s with
  | lost s =>
      obtain ⟨t, key, path, removed⟩ := comes
      exact ⟨t, key, before _ path, removed⟩
  | kept s =>
      obtain ⟨c', path, ends⟩ := comes
      exact ⟨c', before c' path, ends⟩

theorem Spoiled.after {d : Shrinkage Key Value h}
    (before : ∀ c', c₁.Climbs bounds c' → c₀.Climbs bounds c') (spoiled : Spoiled bounds c₁ d) :
    Spoiled bounds c₀ d := by
  obtain ⟨c', u, path, ends⟩ := spoiled.ends
  exact ⟨spoiled.kept, spoiled.rough, c', u, before c' path, ends⟩

/-! ## At the leaf -/

theorem eraseAtLeaf_deletion {s : Tree 0} (graft : Grafted t a par e rest ⟨s, []⟩)
    (held : k ∈ s.keys) :
    ∃ u, Deletion bounds ⟨t, s.pg, k⟩ t par e rest (shrinkTree k s a) u := by
  have stored := graft.single_up
  have used : s.pg ∈ [s.pg] ++ rest := by simp
  have books : Heap t a ([s.pg] ++ rest) := graft.heap
  have link : Linked (nextOf t) [s.pg] e := graft.linked
  obtain ⟨v, record⟩ := (mem_keys_iff s k).mp held
  rw [records_zero] at record
  obtain ⟨i, inside, scan⟩ := stored.leafPage.seek_inside ⟨_, record, rfl⟩
  obtain ⟨page, run, written, header⟩ := removeEntry_leaf stored.leafPage ⟨_, record, rfl⟩
  have up := congrArg Header.parentPgnum header
  have next := congrArg Header.nextPgnum header
  have here : fileWritePage t s.pg page s.pg = page := by simp [fileWritePage]
  have first : DeleteCall.ScanInside ⟨t, s.pg, k⟩ :=
    ⟨i, inside, by rw [if_pos stored.leafPage.tag]; exact scan⟩
  refine ⟨fileWritePage t s.pg page, ⟨t, k, .stop first, page, run, rfl⟩, ⟨fun c child => ?_,
    books.write used page, ?_⟩, fun p member => ?_,
    (SameHeader.write page (graft.nonzero (by simp))).rootpgnum⟩
  · obtain rfl : c = eraseRecord k s := by simpa [shrink, Shrunk.tree] using child
    show (fileWritePage t s.pg page s.pg).parentPgnum = par ∧ LeafPage (fileWritePage t s.pg page s.pg) _
    rw [here]
    exact ⟨up.trans stored.up, written⟩
  · show nextOf (fileWritePage t s.pg page) s.pg = e ∧ True
    rw [nextOf, here]
    exact ⟨next.trans link.1, trivial⟩
  · have other : p ≠ s.pg := fun same => graft.not_rest (by simp) (pg_mem_pages s) (same ▸ member)
    simp [fileWritePage, other]

/-! ## At an internal page -/

section Parent

open DeleteCall

variable {pre : List (Tree h × Key)} {l c d r : Tree h} {sep : Key} {post : List (Key × Tree h)}
  {us : List Underflow}

/-- The number of keys that is too few, as the code reads it off a page. -/
theorem few_eq (stored : Stored u pg c) :
    (if (u c.pg).isLeaf = 1 then maxLeafKey / 8 else maxInternalKey / 8) = minKeys h := by
  simp only [stored.isLeaf_iff, minKeys]

theorem capacity_eq (stored : Stored u pg c) :
    (if (u c.pg).isLeaf = 1 then maxLeafKey / 2 else maxInternalKey / 2) = mergeBelow h := by
  simp only [stored.isLeaf_iff, mergeBelow]

theorem mergeable_iff (removed : Removed t c.pg key u) (here : Stored u pg c) (there : Stored u pg d)
    (other : d.pg ≠ c.pg) :
    Mergeable ⟨t, c.pg, key⟩ (u c.pg) d.pg ↔ d.size + c.size < mergeBelow h := by
  rw [← here.numofkeys, ← there.numofkeys, ← removed.other other, ← capacity_eq here]
  rfl

/-- The parent of two trees that have been joined loses the separator between them. -/
theorem unlisted_deletion (graft : Grafted u a pg e (pg :: rest) (Node.plug pre c post)) {d : Pgnum}
    (node : NodePage (u pg) (Node.plug (pre.map fun e => (e.1.pg, e.2)) c.pg
      ((sep, d) :: post.map fun r => (r.1, r.2.pg))))
    (distinct : (Node.plug (pre.map fun e => (e.1.pg, e.2)) c.pg
      ((sep, d) :: post.map fun r => (r.1, r.2.pg))).seps.Nodup) (up : (u pg).parentPgnum = par) :
    ∃ u', Deletion bounds ⟨u, pg, sep⟩ u par e rest
      ⟨.lost (branch pg (Node.plug pre c post)), a, us⟩ u' := by
  have record := Node.recs_plug_getElem? (pre.map fun e => (e.1.pg, e.2)) c.pg
    ((sep, d) :: post.map fun r => (r.1, r.2.pg)) 0
  obtain ⟨i, inside, scan⟩ := node.seek_inside ⟨_, List.mem_of_getElem? record, rfl⟩
  obtain ⟨page, run, written, header⟩ := removeEntry_node node distinct
  have parent := congrArg Header.parentPgnum header
  have here : fileWritePage u pg page pg = page := by simp [fileWritePage]
  have fresh : pg ∉ rest := (List.nodup_cons.mp (List.nodup_append.mp graft.heap.nodup).2.1).1
  have first : ScanInside ⟨u, pg, sep⟩ :=
    ⟨i, inside, by rw [if_neg (by rw [node.tag]; decide)]; exact scan⟩
  refine ⟨fileWritePage u pg page, ⟨u, sep, .stop first, page, run, rfl⟩,
    (graft.write List.mem_cons_self page).closed ?_ ?_, fun p member => ?_,
    (SameHeader.write page (graft.heap.live_nonzero (by simp))).rootpgnum⟩
  · rw [here, Node.map_plug]
    exact written
  · rw [here]
    exact parent.trans up
  · have other : p ≠ pg := fun same => fresh (same ▸ member)
    simp [fileWritePage, other]

section Pair

variable (graft : Grafted u a pg e (pg :: rest) (Node.plug pre l ((sep, r) :: post)))
  (node : NodePage (u pg) ((Node.plug pre l ((sep, r) :: post)).map Paged.pg))
  (up : (u pg).parentPgnum = par) (inside : c₁.ScanInside)
include graft

theorem pair_inner : Grafted u a pg (Grafted.nextLeaf post e) (Grafted.beside pre post ++ pg :: rest)
    ⟨l, [(sep, r)]⟩ :=
  Grafted.inner (n := ⟨l, [(sep, r)]⟩) graft

include up inside

include node in
/-- Two neighbours become one, and the cascade goes on in their parent. -/
theorem merge_deletion (distinct : (Node.plug pre l ((sep, r) :: post)).seps.Nodup)
    (small : l.size + r.size < mergeBelow h)
    (recurs : ∀ s, absorb u (u l.pg) (u r.pg) l.pg sep (together (u l.pg).isLeaf l.size r.size) = .ok s →
      Recurs bounds c₁ ⟨fileFreePage (fileWritePage s.1 l.pg s.2) r.pg, pg, sep⟩) (keep : Nat) :
    ∃ u', Deletion bounds c₁ u par e rest (settle mergeBelow pg pre l sep r post keep a us) u' := by
  rw [settle_one pg pre sep post small]
  obtain ⟨s, w, run, hw, joined, kept, root⟩ :=
    (pair_inner graft).merged (small.trans_le (capacity_le_room h))
  have widened : Grafted w (a.give r.pg) pg e (pg :: rest) (Node.plug pre (join l sep r) post) :=
    Grafted.replaced (n := ⟨l, [(sep, r)]⟩) graft joined
      (fun p member => kept p (List.mem_append_left _ member)) (firstLeaf_join l sep r)
  have same : ∀ p ∈ pg :: rest, w p = u p := fun p member => kept p (List.mem_append_right _ member)
  rw [Node.map_plug] at node
  have seps : (Node.plug (pre.map fun e => (e.1.pg, e.2)) (join l sep r).pg
      ((sep, r.pg) :: post.map fun r => (r.1, r.2.pg))).seps.Nodup := by
    simpa [Node.seps_plug, Function.comp_def] using distinct
  have here := same pg List.mem_cons_self
  have parent : (w pg).parentPgnum = par := by rw [here, up]
  obtain ⟨u', out⟩ := unlisted_deletion widened (by rw [here, join_pg]; exact node) seps parent
  exact ⟨u', out.deletesTo.after fun _ => .go inside (hw ▸ recurs s run), out.grafted,
    fun p member => (out.kept p member).trans (same p (List.mem_cons_of_mem _ member)),
    out.root.trans root⟩

/-- Two neighbours divide their keys anew, and the cascade ends. -/
theorem evened_deletion {u' : Table} {l' r' : Tree h} {m : Key} {keep : Nat}
    (large : ¬ l.size + r.size < mergeBelow h) (part : keep < l.size + r.size)
    (cut : (join l sep r).cut keep r.pg = (l', m, r'))
    (evened : Evened u u' a pg (Grafted.nextLeaf post e) (Grafted.beside pre post ++ pg :: rest)
      (pre.map fun e => (e.1.pg, e.2)) (post.map fun r => (r.1, r.2.pg)) l' m r')
    (ends : c₁.Ends bounds u') :
    Deletion bounds c₁ u par e rest (settle mergeBelow pg pre l sep r post keep a us) u' := by
  have inner : keep < (join l sep r).size := by
    rw [size_join]
    omega
  obtain ⟨l'', m', r'', cut', joined, -⟩ := cut_spec r.pg inner
  cases cut'.symm.trans cut
  have first := firstLeaf_join l sep r
  rw [joined, firstLeaf_join] at first
  simp only [settle, if_neg large, cut]
  have books := (pair_inner graft).heap.nodup
  have parts := (List.nodup_append.mp (List.nodup_append.mp books).2.1).2
  have fresh : pg ∉ rest := (List.nodup_cons.mp parts.1).1
  have widened : Grafted u' a pg e (pg :: rest) (Node.plug pre l' ((m, r') :: post)) :=
    Grafted.replaced (n := ⟨l, [(sep, r)]⟩) graft evened.grafted
      (fun p member => evened.kept p (List.mem_append_left _ member)
        (parts.2 p member pg List.mem_cons_self)) first
  refine ⟨⟨c₁, .stop inside, ends⟩, widened.closed ?_ (evened.up.trans up), fun p member => ?_,
    evened.root⟩
  · rw [Node.map_plug]
    exact evened.node
  · exact evened.kept p (List.mem_append_right _ (List.mem_cons_of_mem _ member))
      fun same => fresh (same ▸ member)

end Pair

section Right

variable (graft : Grafted u a pg e (pg :: rest) (Node.plug pre l ((sep, r) :: post)))
  (node : NodePage (u pg) ((Node.plug pre l ((sep, r) :: post)).map Paged.pg))
  (up : (u pg).parentPgnum = par) (inside : ScanInside ⟨t, l.pg, key⟩)
include graft node up inside

/-- A page with too few keys is settled with the neighbour on its right. -/
theorem settle_right (distinct : (Node.plug pre l ((sep, r) :: post)).seps.Nodup)
    (removed : Removed t l.pg key u) (inner : getRootpgnum u ≠ l.pg) (few : l.size ≤ minKeys h) :
    ∃ u', Deletion bounds ⟨t, l.pg, key⟩ u par e rest
      (settle mergeBelow pg pre l sep r post ((l.size + r.size) / 2) a us) u' := by
  have pair := pair_inner graft
  obtain ⟨left, right⟩ := pair.pair_stored
  have used : pg ∈ Grafted.beside pre post ++ pg :: rest := List.mem_append_right _ List.mem_cons_self
  obtain ⟨d1, d2, d3⟩ := pair.pair_different used
  have roots := graft.roots_nodup
  have listed := node
  rw [Node.map_plug, List.map_cons] at listed roots
  have settles : Settles bounds ⟨t, l.pg, key⟩ (u l.pg) r.pg (pre.map fun e => (e.1.pg, e.2)).length :=
    removed.settles (pair.nonzero (by simp)) inner d1 left.up
      (by rw [few_eq left, left.numofkeys]; exact few) (getNeighborIndex_right listed roots)
      (childAt_right listed)
  have mergeable := mergeable_iff removed left right (Ne.symm d3)
  rw [Nat.add_comm] at mergeable
  by_cases small : l.size + r.size < mergeBelow h
  · refine merge_deletion graft node up inside distinct small (fun s run => ?_) _
    rw [← left.numofkeys, ← right.numofkeys] at run
    refine .merge (m := ⟨fileFreePage (fileWritePage s.1 l.pg s.2) r.pg, pg, sep⟩) settles
      (mergeable.mpr small) ?_
    rw [removed.wrote, mergePages_right listed left.up, run]
    rfl
  · have low : l.size < (l.size + r.size) / 2 := by
      cases h <;> simp at small few <;> omega
    obtain ⟨u', l', m, r', run, cut, evened⟩ := pair.evened_right used listed low
    rw [← removed.wrote] at run
    exact ⟨u', evened_deletion graft up inside small (by omega) cut evened
      (settles.ends (fun fits => small (mergeable.mp fits)) run)⟩

end Right

/-- The last child has too few keys, and its neighbour too many to merge: the code redistributes,
and the pages come out wrong. -/
theorem settle_spoiled {pre : List (Tree (h + 1) × Key)} {l r : Tree (h + 1)}
    (graft : Grafted u a pg e (pg :: rest) (Node.plug pre l [(sep, r)]))
    (node : NodePage (u pg) (Node.plug (pre.map fun e => (e.1.pg, e.2)) l.pg [(sep, r.pg)]))
    (removed : Removed t r.pg key u) (inside : ScanInside ⟨t, r.pg, key⟩)
    (settles : Settles bounds ⟨t, r.pg, key⟩ (u r.pg) l.pg (-1))
    (large : ¬ Mergeable ⟨t, r.pg, key⟩ (u r.pg) l.pg) (few : r.root.size ≤ 31)
    (many : ¬ l.root.size + r.root.size < 124)
    (settled : (⟨h + 1, r.size, l.size, true⟩ : Underflow) ∈ us) (keep : Nat) :
    Spoiled bounds ⟨t, r.pg, key⟩ (settle mergeBelow pg pre l sep r [] keep a us) := by
  have used : pg ∈ Grafted.beside pre [] ++ pg :: rest := List.mem_append_right _ List.mem_cons_self
  obtain ⟨u', run⟩ := ((pair_inner graft).siblings used node).left_returns
    (by rw [Node.size_map]; exact few) (by rw [Node.size_map, Node.size_map]; show 124 ≤ _; omega)
  rw [← removed.wrote] at run
  refine ⟨?_, ⟨_, by rw [settle_underflows]; exact settled, fun smooth => ?_⟩,
    ⟨t, r.pg, key⟩, u', .stop inside, settles.ends large run⟩
  · have large : ¬ l.size + r.size < mergeBelow (h + 1) := many
    rw [settle, if_neg large]
    exact ⟨_, rfl⟩
  · have fine : r.root.size + l.root.size < 124 := smooth (Nat.le_add_left 1 h) rfl
    omega

/-- The last child has too few keys, and is settled with the neighbour on its left. -/
theorem settle_left (graft : Grafted u a pg e (pg :: rest) (Node.plug pre l [(sep, r)]))
    (node : NodePage (u pg) ((Node.plug pre l [(sep, r)]).map Paged.pg))
    (up : (u pg).parentPgnum = par) (distinct : (Node.plug pre l [(sep, r)]).seps.Nodup)
    (removed : Removed t r.pg key u) (inside : ScanInside ⟨t, r.pg, key⟩)
    (inner : getRootpgnum u ≠ r.pg) (few : r.size ≤ minKeys h)
    (listed : bounds = .declared → pre ≠ [])
    (settled : (⟨h, r.size, l.size, true⟩ : Underflow) ∈ us) :
    (∃ u', Deletion bounds ⟨t, r.pg, key⟩ u par e rest
      (settle mergeBelow pg pre l sep r [] (l.size + r.size - (l.size + r.size) / 2) a us) u') ∨
    Spoiled bounds ⟨t, r.pg, key⟩
      (settle mergeBelow pg pre l sep r [] (l.size + r.size - (l.size + r.size) / 2) a us) := by
  have pair := pair_inner graft
  obtain ⟨left, right⟩ := pair.pair_stored
  have used : pg ∈ Grafted.beside pre [] ++ pg :: rest := List.mem_append_right _ List.mem_cons_self
  obtain ⟨d1, d2, d3⟩ := pair.pair_different used
  have roots := graft.roots_nodup
  have parent := node
  rw [Node.map_plug, List.map_cons, List.map_nil] at parent roots
  have settles : Settles bounds ⟨t, r.pg, key⟩ (u r.pg) l.pg (-1) :=
    removed.settles (pair.nonzero (by simp)) inner d2 right.up
      (by rw [few_eq right, right.numofkeys]; exact few) (getNeighborIndex_last parent roots)
      (childAt_last parent (by simpa using listed))
  have mergeable := mergeable_iff removed right left d3
  by_cases small : l.size + r.size < mergeBelow h
  · refine .inl (merge_deletion graft node up inside distinct small (fun s run => ?_) _)
    have total : together (u r.pg).isLeaf (u r.pg).numofkeys (u l.pg).numofkeys =
        together (u l.pg).isLeaf l.size r.size := by
      simp only [together, left.isLeaf_iff, right.isLeaf_iff, left.numofkeys, right.numofkeys,
        Nat.add_comm r.size]
    rw [← total] at run
    refine .merge (m := ⟨fileFreePage (fileWritePage s.1 l.pg s.2) r.pg, pg, sep⟩) settles
      (mergeable.mpr small) ?_
    rw [removed.wrote, mergePages_last parent right.up, run]
    rfl
  · have large : ¬ Mergeable ⟨t, r.pg, key⟩ (u r.pg) l.pg := fun fits => small (mergeable.mp fits)
    cases h with
    | zero =>
        have low : r.size < (l.size + r.size) / 2 := by
          simp at small few
          omega
        obtain ⟨u', l', m, r', run, cut, evened⟩ := pair.evened_leaf_left used parent low
        rw [← removed.wrote] at run
        exact .inl ⟨u', evened_deletion graft up inside small (by omega) cut evened
          (settles.ends large run)⟩
    | succ h =>
        exact .inr (settle_spoiled graft parent removed inside settles large few small settled _)

theorem settleChild_deletion (graft : Grafted u a pg e (pg :: rest) (Node.plug pre c post))
    (node : NodePage (u pg) ((Node.plug pre c post).map Paged.pg)) (up : (u pg).parentPgnum = par)
    (distinct : (Node.plug pre c post).seps.Nodup) (removed : Removed t c.pg key u)
    (inside : ScanInside ⟨t, c.pg, key⟩) (inner : getRootpgnum u ≠ c.pg) (few : c.size ≤ minKeys h)
    (siblings : 1 ≤ pre.length + post.length)
    (listed : bounds = .declared → post = [] → pre.length ≠ 1) :
    (∃ u', Deletion bounds ⟨t, c.pg, key⟩ u par e rest (settleChild mergeBelow pg pre c post a us) u') ∨
    Spoiled bounds ⟨t, c.pg, key⟩ (settleChild mergeBelow pg pre c post a us) := by
  cases post with
  | cons r post => exact .inl (settle_right graft node up inside distinct removed inner few)
  | nil =>
      rcases List.eq_nil_or_concat pre with rfl | ⟨pre, ⟨l, sep⟩, same⟩
      · simp at siblings
      · rw [List.concat_eq_append] at same
        subst same
        rw [← Node.plug_shift] at graft node distinct
        rw [settleChild_last]
        refine settle_left graft node up distinct removed inside inner few (fun declared none_ => ?_)
          (by simp)
        exact listed declared rfl (by simp [none_])

end Parent

/-! ## Up the path -/

/-- The last child of a page with one key is left with too few: the code looks for its
neighbour before the first record. -/
def Overreads (k : Key) : {h : Nat} → Tree h → Prop
  | 0, _ => False
  | h + 1, s =>
      s.size = 1 ∧ (s.root.focus k).2.2 = [] ∧ Thins minKeys mergeBelow k (s.root.focus k).2.1 ∧
        (s.root.focus k).2.1.size ≤ minKeys h + 1

/-- Below the root no page has one key only. -/
theorem Overreads.not_filled {s : Tree h} (fill : Fill least maxKeys s) : ¬ Overreads k s := by
  cases h with
  | zero => exact id
  | succ h =>
      rintro ⟨one, -⟩
      have many : 32 ≤ s.size := fill.root.1
      omega

section Descent

variable {s : Tree (h + 1)} (graft : Grafted t a par e rest ⟨s, []⟩)
include graft

/-- Looking at the child the search goes to ... -/
theorem descend (k : Key) : Grafted t a s.pg (Grafted.nextLeaf (s.root.focus k).2.2 e)
    (Grafted.beside (s.root.focus k).1 (s.root.focus k).2.2 ++ s.pg :: rest)
    ⟨(s.root.focus k).2.1, []⟩ := by
  have children := graft.opened
  rw [← Node.plug_focus k s.root, ← Node.splice_single] at children
  exact children.inner

/-- ... and back up, once a record is out of it. -/
theorem Deletion.ascend (keyed : Keyed s)
    (below : Deletion bounds c₀ t s.pg (Grafted.nextLeaf (s.root.focus k).2.2 e)
      (Grafted.beside (s.root.focus k).1 (s.root.focus k).2.2 ++ s.pg :: rest)
      (shrinkTree k (s.root.focus k).2.1 a) u) :
    Grafted u (shrinkTree k (s.root.focus k).2.1 a).alloc s.pg e (s.pg :: rest)
        (Node.plug (s.root.focus k).1 (shrinkTree k (s.root.focus k).2.1 a).shrunk.tree
          (s.root.focus k).2.2) ∧
      NodePage (u s.pg) ((Node.plug (s.root.focus k).1
        (shrinkTree k (s.root.focus k).2.1 a).shrunk.tree (s.root.focus k).2.2).map Paged.pg) ∧
      (u s.pg).parentPgnum = par := by
  have child := keyed.child (s.root.focus_mem k)
  have children := graft.opened
  rw [← Node.plug_focus k s.root, ← Node.splice_single] at children
  have kept : u s.pg = t s.pg := below.kept _ (List.mem_append_right _ List.mem_cons_self)
  have widened := children.replaced below.grafted
    (fun p member => below.kept p (List.mem_append_left _ member))
    (shrink_firstLeaf capacity_two child a)
  have same : (shrinkTree k (s.root.focus k).2.1 a).shrunk.tree.pg = (s.root.focus k).2.1.pg :=
    shrink_pg child a
  refine ⟨widened, ?_, ?_⟩
  · rw [kept, Node.map_plug, same, ← Node.map_plug, Node.plug_focus]
    exact graft.single_up.nodePage
  · rw [kept]
    exact graft.single_up.up

end Descent

/-- A call that returned from a redistribution returned for every page above it. -/
theorem Spoiled.ascend {s : Tree (h + 1)} (below : Spoiled bounds c₀ (shrinkTree k (s.root.focus k).2.1 a)) :
    Spoiled bounds c₀ (shrinkTree k s a) := by
  obtain ⟨⟨c, shrunk⟩, rough, ends⟩ := below
  rw [shrinkTree, shrink_kept shrunk]
  exact ⟨⟨_, rfl⟩, rough, ends⟩

variable (bounds) in
/-- **Deleting from the leaf that a search ends in comes to the tree `shrink` says**, or to
a redistribution that is wrong. -/
theorem shrink_outcome {s : Tree h} (graft : Grafted t a par e rest ⟨s, []⟩)
    (root : getRootpgnum t ∈ s.pg :: rest) (keyed : Keyed s) (ordered : SearchOrdered s)
    (held : k ∈ (s.leafFor k).keys) (fill : bounds = .declared → FillBelow least maxKeys s)
    (reads : bounds = .declared → ¬ Overreads k s) :
    (∃ u, Deletion bounds ⟨t, (s.leafFor k).pg, k⟩ t par e rest (shrinkTree k s a) u) ∨
      Spoiled bounds ⟨t, (s.leafFor k).pg, k⟩ (shrinkTree k s a) := by
  induction h generalizing a par e rest with
  | zero => exact .inl (eraseAtLeaf_deletion graft held)
  | succ h ih =>
      have pos : 1 ≤ s.size := keyed.root
      have mem := s.root.focus_mem k
      have child := keyed.child mem
      rcases ih (descend graft k) (List.mem_cons_of_mem _ (List.mem_append_right _ root)) child
        (ordered.2.2 _ mem) held (fun declared => (fill declared _ mem).below)
        (fun declared => Overreads.not_filled (fill declared _ mem)) with ⟨u, below⟩ | spoiled
      swap
      · exact .inr spoiled.ascend
      obtain ⟨widened, node, up⟩ := below.ascend graft keyed
      have kept : ∀ p ∈ rest, u p = t p := fun p member =>
        below.kept p (List.mem_append_right _ (List.mem_cons_of_mem _ member))
      have came := below.deletesTo
      cases shrunk : (shrinkTree k (s.root.focus k).2.1 a).shrunk with
      | kept c =>
          rw [shrunk] at came widened node
          rw [shrinkTree, shrink_kept shrunk]
          exact .inl ⟨u, came, widened.closed node up, kept, below.root⟩
      | lost c =>
          have size := shrink_size minKeys capacity_two child.pos held a
          rw [shrinkTree] at shrunk
          rw [shrunk] at came widened node size
          have size : c.size + 1 = (s.root.focus k).2.1.size := size
          obtain ⟨t', key, path, removed⟩ := came
          have here : c ∈ (Node.plug (s.root.focus k).1 c (s.root.focus k).2.2).children := by simp
          have stored : Stored u s.pg c := widened.stored c here
          have inner : getRootpgnum u ≠ c.pg := fun same =>
            widened.not_rest here (pg_mem_pages c) (same ▸ below.root ▸ root)
          by_cases enough : minKeys h < c.size
          · rw [shrinkTree, shrink_enough shrunk enough]
            have ends : DeleteCall.Ends bounds ⟨t', c.pg, key⟩ u :=
              removed.ends_with_enough (widened.nonzero here) inner
                (by rw [few_eq stored, stored.numofkeys]; exact enough)
            exact .inl ⟨u, ⟨_, path, ends⟩, widened.closed node up, kept, below.root⟩
          · have small := not_lt.mp enough
            rw [shrinkTree, shrink_settled shrunk small]
            have seps : (Node.plug (s.root.focus k).1 c (s.root.focus k).2.2).seps = s.root.seps := by
              rw [Node.seps_plug, ← Node.seps_plug (s.root.focus k).1 (s.root.focus k).2.1,
                Node.plug_focus]
            -- a page with one key has no last child that comes here
            have listed : bounds = .declared → (s.root.focus k).2.2 = [] →
                (s.root.focus k).1.length ≠ 1 := by
              intro declared last one
              have thins := (shrink_lost_iff capacity_two child held a).mp ⟨c, shrunk⟩
              refine reads declared ⟨?_, last, thins, by omega⟩
              rw [size_focus k s, last, one]
              rfl
            rcases settleChild_deletion widened node up (seps ▸ ordered.1.imp fun less => ne_of_lt less)
              removed path.last_holds inner small (size_focus k s ▸ pos) listed with ⟨u', above⟩ | spoiled
            · exact .inl ⟨u', above.deletesTo.after fun _ => path.trans, above.grafted,
                fun p member => (above.kept p member).trans (kept p member), above.root.trans below.root⟩
            · exact .inr (spoiled.after fun _ => path.trans)

/-- ... which it is not, if the pages are as redistribution wants them. -/
theorem shrink_deletion {s : Tree h} (graft : Grafted t a par e rest ⟨s, []⟩)
    (root : getRootpgnum t ∈ s.pg :: rest) (keyed : Keyed s) (ordered : SearchOrdered s)
    (held : k ∈ (s.leafFor k).keys)
    (smooth : ∀ x ∈ (shrinkTree k s a).underflows, Underflow.Smooth x) :
    ∃ u, Deletion .layout ⟨t, (s.leafFor k).pg, k⟩ t par e rest (shrinkTree k s a) u := by
  apply (shrink_outcome .layout graft root keyed ordered held nofun nofun).resolve_right
  intro spoiled
  obtain ⟨x, member, rough⟩ := spoiled.rough
  exact rough (smooth x member)

end SimpleDatabase.Kernel
