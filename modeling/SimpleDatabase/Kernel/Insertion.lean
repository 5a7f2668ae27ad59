/- Kernel.Insertion -- `db_insert` is insertion into a B+ tree

The cascade of splits runs from a leaf up: each call of `insert_into_parent` is made
from a table in which the trees below are complete, two of them where one child was,
and only the page of their parent is out of date.  `Outcome` says so of one level: what
the call has come to, and the trees that stand there now.  Each level is one lemma
(`insertAtLeaf_outcome`, `insertIntoParent_outcome`); `insert_outcome` climbs the path.
-/
import SimpleDatabase.Theory.Growth
import SimpleDatabase.Kernel.Graft
import SimpleDatabase.Kernel.Lookup

namespace SimpleDatabase.Kernel

open SimpleDatabase.Theory SimpleDatabase.Theory.PageTree SimpleDatabase.Project5 Page

set_option autoImplicit false

/-- What a 64-bit key is once an `int` has carried it. -/
def throughInt (k : Key) : Key := k.toInt32.toInt64

section Cascade

variable (heap : Nat → Page)

/-- A call that inserts into a tree has returned, or it has come to
`insert_into_parent` with the two trees that stand there now. -/
def ComesTo (call : Nat → Exec Table) (u : Table) (par : Pgnum) {h : Nat} : Grown Key Value h → Prop
  | .one _ => ∃ n, ∀ fuel, call (fuel + n) = .ok u
  | .two l sep r => ∃ n, ∀ fuel, call (fuel + n) = insertIntoParent heap fuel u par l.pg sep r.pg

/-- The call has come to the table `u`, in which the trees are complete; other pages
in use are as they were. -/
structure Outcome (call : Nat → Exec Table) (t : Table) (par e : Pgnum) (rest : List Pgnum)
    {h : Nat} (g : Growth Key Value h) (u : Table) : Prop where
  comesTo : ComesTo heap call u par g.grown
  grafted : Grafted u g.alloc par e rest g.grown.node
  kept : ∀ p ∈ rest, u p = t p
  root : getRootpgnum u = getRootpgnum t

variable {heap} {t : Table} {a : Alloc} {par pg e : Pgnum} {rest : List Pgnum} {h : Nat}

/-- The insertion the code performs. -/
abbrev growTree (k : Key) (v : Value) {h : Nat} (s : Tree h) (a : Alloc) : Growth Key Value h :=
  grow maxKeys freepageGrowRate throughInt k v s a

abbrev overflowTree {h : Nat} (s : Tree h) (a : Alloc) (posted : List (Posting Key)) :
    Growth Key Value h :=
  overflow maxKeys freepageGrowRate throughInt s a posted

/-! ## At the leaf -/

/-- The leaves a full leaf becomes. -/
theorem growTree_full {s : Tree 0} (full : s.recs.length = 31) (k : Key) (v : Value) (a : Alloc)
    {sep : Key} (first : sep ∈ ((leafWith s.recs k v).drop 15).head?.map Prod.fst) :
    growTree k v s a = ⟨.two (leaf s.pg ((leafWith s.recs k v).take 15)) (throughInt sep)
        (leaf (Heap.take a).1 ((leafWith s.recs k v).drop 15)), (Heap.take a).2,
      [⟨(leaf s.pg ((leafWith s.recs k v).take 15)).keys, sep,
        (leaf (Heap.take a).1 ((leafWith s.recs k v).drop 15)).keys⟩]⟩ := by
  have excess : ¬ (insertRecord k v s).size ≤ maxKeys 0 := by
    have size : s.size = 31 := full
    rw [insertRecord_size, maxKeys_zero]
    omega
  have cut : (insertRecord k v s).cut (maxKeys 0 / 2) (Heap.take a).1 =
      (leaf s.pg ((leafWith s.recs k v).take 15), sep,
        leaf (Heap.take a).1 ((leafWith s.recs k v).drop 15)) := by
    rw [← show (((leafWith s.recs k v).drop 15).head?.map Prod.fst).getD default = sep by
      rw [Option.mem_def.mp first]; rfl]
    rfl
  simp only [growTree, grow, overflow, if_neg excess, cut, List.nil_append]

theorem insertAtLeaf_outcome {s : Tree 0} (graft : Grafted t a par e rest ⟨s, []⟩) (k : Key)
    (v : Value) :
    ∃ u, Outcome heap (fun fuel => insertAtLeaf heap fuel t s.pg k v) t par e rest
      (growTree k v s a) u := by
  have stored := graft.single_up
  have held := stored.leafPage
  have fits := held.length_le
  have count := held.numofkeys
  have used : s.pg ∈ [s.pg] ++ rest := by simp
  have books : Heap t a ([s.pg] ++ rest) := graft.heap
  have link : Linked (nextOf t) [s.pg] e := graft.linked
  have other : ∀ p ∈ rest, p ≠ s.pg := fun p member same =>
    graft.not_rest (by simp) (pg_mem_pages s) (same ▸ member)
  by_cases room : s.recs.length < 31
  · obtain ⟨page, run, written, header⟩ := insertIntoLeaf_spec held k v room
    have up := congrArg Header.parentPgnum header
    have next := congrArg Header.nextPgnum header
    have one : growTree k v s a = ⟨.one (insertRecord k v s), a, []⟩ := by
      refine overflow_one ?_ _ _
      rw [insertRecord_size]
      exact room
    have here : fileWritePage t s.pg page s.pg = page := by simp [fileWritePage]
    refine ⟨fileWritePage t s.pg page, ?_⟩
    rw [one]
    refine ⟨⟨0, fun fuel => ?_⟩, ⟨fun c child => ?_, books.write used page, ?_⟩, fun p member => ?_,
      (SameHeader.write page (graft.nonzero (by simp))).rootpgnum⟩
    · simp only [insertAtLeaf, fileReadPage]
      rw [if_pos (by rw [count]; exact room), run]
      rfl
    · obtain rfl : c = insertRecord k v s := by simpa [Grown.node] using child
      show (fileWritePage t s.pg page s.pg).parentPgnum = par ∧ LeafPage (fileWritePage t s.pg page s.pg) _
      rw [here]
      exact ⟨up.trans stored.up, written⟩
    · show nextOf (fileWritePage t s.pg page) s.pg = e ∧ True
      rw [nextOf, here]
      exact ⟨next.trans link.1, trivial⟩
    · simp [fileWritePage, other p member]
  · have full : s.recs.length = 31 := by omega
    obtain ⟨u, sep, run, first, oldLeaf, oldUp, oldNext, newLeaf, newUp, newNext, kept, after, root⟩ :=
      splitLeaf_spec books used held full (heap s.pg) k v
    refine ⟨u, ?_⟩
    rw [growTree_full full k v a first]
    refine ⟨⟨0, fun fuel => ?_⟩, ⟨fun c child => ?_, ?_, ?_⟩,
      fun p member => kept p (List.mem_cons_of_mem _ member) (other p member), root⟩
    · simp only [insertAtLeaf, fileReadPage]
      rw [if_neg (by rw [count]; exact room), insertIntoLeafAfterSplitting, run, stored.up]
      rfl
    · have either : c = leaf s.pg ((leafWith s.recs k v).take 15) ∨
          c = leaf (Heap.take a).1 ((leafWith s.recs k v).drop 15) := by
        simpa [Grown.node] using child
      rcases either with rfl | rfl
      · exact ⟨oldUp.trans stored.up, oldLeaf⟩
      · exact ⟨newUp.trans stored.up, newLeaf⟩
    · exact after.perm (List.Perm.swap _ _ _)
    · exact ⟨oldNext, newNext.trans link.1, trivial⟩

/-! ## At an internal page -/

section Parent

variable {pre : List (Tree h × Key)} {l : Tree h} {sep : Key} {r : Tree h}
  {post : List (Key × Tree h)}

/-- The page of the parent, with the new child listed. -/
theorem insertAt_map (pre : List (Tree h × Key)) (l : Tree h) (sep : Key) (r : Tree h)
    (post : List (Key × Tree h)) :
    ((Node.plug pre l post).map Paged.pg).insertAt pre.length sep r.pg =
      (Node.plug pre l ((sep, r) :: post)).map Paged.pg := by
  have inserted := Node.insertAt_plug (pre.map fun e => (e.1.pg, e.2)) l.pg
    (post.map fun r => (r.1, r.2.pg)) sep r.pg
  rw [List.length_map] at inserted
  rw [Node.map_plug, Node.map_plug]
  exact inserted

variable (graft : Grafted t a pg e (pg :: rest) (Node.plug pre l ((sep, r) :: post)))
  (node : NodePage (t pg) ((Node.plug pre l post).map Paged.pg))

include graft node

theorem getRightIndex_map : getRightIndex (t pg) l.pg = .ok pre.length := by
  have distinct := graft.roots_nodup
  rw [Node.map_plug, Node.children_plug] at distinct
  rw [Node.map_plug] at node
  have index := getRightIndex_eq node (by
    rw [Node.children_plug]
    refine distinct.sublist (List.Sublist.append_left (List.Sublist.cons_cons _ ?_) _)
    exact List.sublist_cons_self _ _)
  rwa [List.length_map] at index

variable (up : (t pg).parentPgnum = par) (posted : List (Posting Key))

include up

variable (heap) in
/-- Where the parent has room for another child. -/
theorem insertIntoParent_fits (room : (Node.plug pre l post).size < 248) :
    ∃ u, Outcome heap (fun fuel => insertIntoParent heap fuel t pg l.pg sep r.pg) t par e rest
      (overflowTree (branch pg (Node.plug pre l ((sep, r) :: post))) a posted) u := by
  have nonzero : pg ≠ 0 := graft.heap.live_nonzero (by simp)
  have fresh : pg ∉ rest := (List.nodup_cons.mp (List.nodup_append.mp graft.heap.nodup).2.1).1
  have index := getRightIndex_map graft node
  have count := node.numofkeys
  rw [Node.size_map] at count
  obtain ⟨page, run, written, header⟩ := insertIntoNode_spec node (i := pre.length) sep r.pg
    (by simp [Node.size_plug]) (by rw [Node.size_map]; exact room)
  rw [insertAt_map] at written
  have one : overflowTree (branch pg (Node.plug pre l ((sep, r) :: post))) a posted =
      ⟨.one (branch pg (Node.plug pre l ((sep, r) :: post))), a, posted⟩ := by
    refine overflow_one ?_ _ _
    show (Node.plug pre l ((sep, r) :: post)).size ≤ 248
    rw [Node.size_plug] at room ⊢
    rw [List.length_cons]
    omega
  have here : fileWritePage t pg page pg = page := by simp [fileWritePage]
  have parent := congrArg Header.parentPgnum header
  refine ⟨fileWritePage t pg page, ?_⟩
  rw [one]
  refine ⟨⟨1, fun fuel => ?_⟩, (graft.write (by simp) page).closed ?_ ?_, fun p member => ?_,
    (SameHeader.write page nonzero).rootpgnum⟩
  · simp only [insertIntoParent, nonzero, if_false, fileReadPage, index, Exec.ok_bind]
    rw [if_pos (by rw [count]; exact room), run]
    rfl
  · rw [here]
    exact written
  · rw [here]
    exact parent.trans up
  · have ne : p ≠ pg := fun same => fresh (same ▸ member)
    simp [fileWritePage, ne]

variable (heap) in
/-- Where it is full, and splits: the children that move are those of the right half. -/
theorem insertIntoParent_splits (full : (Node.plug pre l post).size = 248) :
    ∃ u, Outcome heap (fun fuel => insertIntoParent heap fuel t pg l.pg sep r.pg) t par e rest
      (overflowTree (branch pg (Node.plug pre l ((sep, r) :: post))) a posted) u := by
  have nonzero : pg ≠ 0 := graft.heap.live_nonzero (by simp)
  have used : pg ∈ (Node.plug pre l ((sep, r) :: post)).children.flatMap pages ++ pg :: rest := by
    simp
  have fresh : pg ∉ rest := (List.nodup_cons.mp (List.nodup_append.mp graft.heap.nodup).2.1).1
  have index := getRightIndex_map graft node
  have count := node.numofkeys
  rw [Node.size_map] at count
  have excess : maxKeys (h + 1) < (branch pg (Node.plug pre l ((sep, r) :: post))).size := by
    show 248 < (Node.plug pre l ((sep, r) :: post)).size
    rw [Node.size_plug] at full ⊢
    rw [List.length_cons]
    omega
  obtain ⟨lt, m, rt, joined, leftPage, rightPage, width, -, two⟩ :=
    overflow_two freepageGrowRate throughInt excess a posted
  have leftPage : lt.pg = pg := leftPage
  have joined : Node.plug pre l ((sep, r) :: post) = Node.join lt.root m rt.root :=
    congrArg PageTree.root joined
  have halves := (insertAt_map pre l sep r post).trans (congrArg (Node.map Paged.pg) joined)
  rw [Node.map_join] at halves
  have children : ∀ c ∈ (((Node.plug pre l post).map Paged.pg).insertAt pre.length sep r.pg).children,
      c ∈ (Node.plug pre l ((sep, r) :: post)).children.flatMap pages ++ pg :: rest ∧ c ≠ pg := by
    intro c member
    rw [insertAt_map, Node.children_map] at member
    obtain ⟨d, child, rfl⟩ := List.mem_map.mp member
    refine ⟨List.mem_append_left _ (List.mem_flatMap.mpr ⟨d, child, pg_mem_pages d⟩), ?_⟩
    intro same
    exact graft.not_rest child (pg_mem_pages d) (by rw [same]; exact List.mem_cons_self)
  obtain ⟨u, run, oldNode, oldUp, newNode, newUp, kept, after, root⟩ :=
    splitNode_spec graft.heap used node (by rw [Node.size_map]; exact full) (i := pre.length)
      (by simp [Node.size_plug]) (heap pg) sep r.pg halves (by rw [Node.size_map]; exact width) children
  rw [joined] at graft kept after
  have moved : ∀ c ∈ (Node.join lt.root m rt.root).children, ∀ p ∈ c.pages, u p =
      if p ∈ rt.root.children.map Paged.pg then { t p with parentPgnum := (Heap.take a).1 }
      else t p := by
    intro c child p member
    have ne : p ≠ pg := fun same => graft.not_rest child member (by simp [same])
    rw [kept p (List.mem_append_left _ (List.mem_flatMap.mpr ⟨c, child, member⟩)) ne,
      Node.children_map]
  have grafted := graft.parted ⟨oldUp.trans up, oldNode⟩ ⟨newUp.trans up, newNode⟩ moved after
    (throughInt m)
  refine ⟨u, ?_⟩
  rw [overflowTree, two]
  refine ⟨⟨2, fun fuel => ?_⟩, ?_, fun p member => ?_, root⟩
  · simp only [insertIntoParent, nonzero, if_false, fileReadPage, index, Exec.ok_bind]
    rw [if_neg (by rw [count, full]; decide), insertIntoNodeAfterSplitting, run, Exec.ok_bind,
      leftPage, rightPage, up]
    rfl
  · rw [← leftPage, ← rightPage] at grafted
    exact grafted
  · have ne : p ≠ pg := fun same => fresh (same ▸ member)
    have outside : p ∉ (Node.map Paged.pg rt.root).children := by
      rw [Node.children_map]
      intro at_
      obtain ⟨c, child, rfl⟩ := List.mem_map.mp at_
      refine graft.not_rest ?_ (pg_mem_pages c) (List.mem_cons_of_mem _ member)
      rw [Node.children_join]
      exact List.mem_append_right _ child
    rw [kept p (List.mem_append_right _ (List.mem_cons_of_mem _ member)) ne, if_neg outside]

variable (heap) in
theorem insertIntoParent_outcome :
    ∃ u, Outcome heap (fun fuel => insertIntoParent heap fuel t pg l.pg sep r.pg) t par e rest
      (overflowTree (branch pg (Node.plug pre l ((sep, r) :: post))) a posted) u := by
  have fits := node.size_le
  rw [Node.size_map] at fits
  rcases Nat.lt_or_eq_of_le fits with room | full
  · exact insertIntoParent_fits heap graft node up posted room
  · exact insertIntoParent_splits heap graft node up posted full

end Parent

/-! ## Up the path -/

theorem ComesTo.trans {call : Nat → Exec Table} {u : Table} {b : Nat} {l : Tree b} {sep : Key}
    {r : Tree b} (first : ComesTo heap call t pg (.two l sep r)) {g : Grown Key Value h}
    (second : ComesTo heap (fun fuel => insertIntoParent heap fuel t pg l.pg sep r.pg) u par g) :
    ComesTo heap call u par g := by
  obtain ⟨m, first⟩ := first
  cases g with
  | one s =>
      obtain ⟨n, second⟩ := second
      exact ⟨n + m, fun fuel => by rw [← Nat.add_assoc, first]; exact second fuel⟩
  | two l' sep' r' =>
      obtain ⟨n, second⟩ := second
      exact ⟨n + m, fun fuel => by rw [← Nat.add_assoc, first]; exact second fuel⟩

variable (heap) in
/-- **Inserting at the leaf that a search ends in comes to the trees `grow` says.** -/
theorem insert_outcome {s : Tree h} (graft : Grafted t a par e rest ⟨s, []⟩) (k : Key) (v : Value) :
    ∃ u, Outcome heap (fun fuel => insertAtLeaf heap fuel t (s.leafFor k).pg k v) t par e rest
      (growTree k v s a) u := by
  induction h generalizing a par e rest with
  | zero => exact insertAtLeaf_outcome graft k v
  | succ h ih =>
      -- look at the child the search goes to
      have children := graft.opened
      rw [← Node.plug_focus k s.root, ← Node.splice_single] at children
      obtain ⟨u, below⟩ := ih children.inner
      have kept : ∀ p ∈ s.pg :: rest, u p = t p := fun p member =>
        below.kept p (List.mem_append_right _ member)
      have widened := children.replaced below.grafted
        (fun p member => below.kept p (List.mem_append_left _ member)) (grow_firstLeaf _ _)
      have node : NodePage (u s.pg) (s.root.map Paged.pg) := by
        rw [kept s.pg List.mem_cons_self]
        exact graft.single_up.nodePage
      have up : (u s.pg).parentPgnum = par := by
        rw [kept s.pg List.mem_cons_self]
        exact graft.single_up.up
      have same : (growTree k v (s.root.focus k).2.1 a).grown.node.left.pg = (s.root.focus k).2.1.pg :=
        grow_pg _ a
      rw [← Node.plug_focus k s.root] at node
      rw [growTree, grow]
      cases grown : (growTree k v (s.root.focus k).2.1 a).grown with
      | one c =>
          rw [grown] at widened same
          have same : c.pg = (s.root.focus k).2.1.pg := same
          refine ⟨u, ?_, ?_, ?_, ?_⟩
          · have came := below.comesTo
            rw [grown] at came
            exact came
          · refine widened.closed ?_ up
            rw [Grown.node, Node.splice_single, Node.map_plug, same, ← Node.map_plug]
            exact node
          · exact fun p member => kept p (List.mem_cons_of_mem _ member)
          · exact below.root
      | two l sep r =>
          rw [grown] at widened same
          have same : l.pg = (s.root.focus k).2.1.pg := same
          rw [Node.map_plug, ← same, ← Node.map_plug] at node
          obtain ⟨u', above⟩ := insertIntoParent_outcome heap widened node up
            (growTree k v (s.root.focus k).2.1 a).posted
          have came := below.comesTo
          rw [grown] at came
          exact ⟨u', came.trans above.comesTo, above.grafted,
            fun p member => (above.kept p member).trans (kept p (List.mem_cons_of_mem _ member)),
            above.root.trans below.root⟩

end Cascade

end SimpleDatabase.Kernel
