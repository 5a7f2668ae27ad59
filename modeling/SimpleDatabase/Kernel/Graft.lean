/- Kernel.Graft -- some neighbouring trees, in the pages of a table

An operation works its way along one path, and at each level of it one or two trees
stand where a child was.  `Grafted` says of such neighbouring trees -- the children of
a node, whether or not a page holds that node -- what `Represents` says of a whole
table: they are stored below the page `par`, the other pages in use are `rest`, and
the links lead through their leaves to `e`.

`inner` narrows the view from a node's children to some of them, `replaced` widens
it again after these have changed; `opened` goes from a tree to the children of its
root, and `closed` back, once the root's page holds them.
-/
import SimpleDatabase.Kernel.Stored
import SimpleDatabase.Kernel.Split

namespace SimpleDatabase.Kernel

open SimpleDatabase.Theory SimpleDatabase.Theory.PageTree SimpleDatabase.Project5 Page

set_option autoImplicit false

/-- The children of `n` are in the table, below the page `par`. -/
structure Grafted (t : Table) (a : Alloc) (par e : Pgnum) (rest : List Pgnum) {h : Nat}
    (n : Node Key (Tree h)) : Prop where
  stored : ∀ c ∈ n.children, Stored t par c
  heap : Heap t a (n.children.flatMap pages ++ rest)
  linked : Linked (nextOf t) (n.children.flatMap leafPages) e

/-! ## Trees side by side -/

section Trees

variable {t u : Table} {par par' : Pgnum} {h : Nat} {cs moved : List (Tree h)}

/-- A page lies in one of several trees at most. -/
theorem same_tree (distinct : (cs.flatMap pages).Nodup) {c d : Tree h} (left : c ∈ cs) (right : d ∈ cs)
    {p : Pgnum} (inLeft : p ∈ c.pages) (inRight : p ∈ d.pages) : c = d := by
  by_contra different
  have symmetric : Std.Symm (Function.onFun List.Disjoint (pages : Tree h → List Nat)) :=
    ⟨fun _ _ disjoint _ right left => disjoint left right⟩
  exact (List.nodup_flatMap.mp distinct).2.forall left right different inLeft inRight

/-- The pages of the roots are different. -/
theorem map_pg_nodup (distinct : (cs.flatMap pages).Nodup) : (cs.map Paged.pg).Nodup := by
  refine distinct.sublist ?_
  rw [← List.flatMap_singleton' (cs.map Paged.pg), List.flatMap_map]
  exact List.Sublist.flatMap_right _ fun c _ => List.singleton_sublist.mpr (pg_mem_pages c)

/-- The roots of some of the trees get another parent, and nothing else changes. -/
theorem Stored.reparented (distinct : (cs.flatMap pages).Nodup) (some_ : ∀ c ∈ moved, c ∈ cs)
    (same : ∀ c ∈ cs, ∀ p ∈ c.pages, u p =
      if p ∈ moved.map Paged.pg then { t p with parentPgnum := par' } else t p)
    {c : Tree h} (child : c ∈ cs) (stored : Stored t par c) :
    (c ∈ moved → Stored u par' c) ∧ (c ∉ moved → Stored u par c) := by
  have only : ∀ p ∈ c.pages, p ∈ moved.map Paged.pg → c ∈ moved ∧ p = c.pg := by
    intro p inside member
    obtain ⟨d, at_, rfl⟩ := List.mem_map.mp member
    cases same_tree distinct (some_ d at_) child (pg_mem_pages d) inside
    exact ⟨at_, rfl⟩
  constructor
  · intro member
    refine stored.adopted ((List.nodup_flatMap.mp distinct).1 c child) ?_ fun p inside other => ?_
    · rw [same c child _ (pg_mem_pages c), if_pos (List.mem_map_of_mem member)]
    · rw [same c child p inside, if_neg fun at_ => other (only p inside at_).2]
  · intro absent
    apply stored.frame
    intro p inside
    rw [same c child p inside, if_neg fun at_ => absent (only p inside at_).1]

end Trees

namespace Grafted

variable {t u : Table} {a b : Alloc} {par pg e : Pgnum} {rest : List Pgnum} {h : Nat}
  {n n' : Node Key (Tree h)} {pre : List (Tree h × Key)} {post : List (Key × Tree h)}

theorem nodup (graft : Grafted t a par e rest n) : (n.children.flatMap pages).Nodup :=
  (List.nodup_append.mp graft.heap.nodup).1

theorem not_rest (graft : Grafted t a par e rest n) {c : Tree h} (child : c ∈ n.children)
    {p : Pgnum} (inside : p ∈ c.pages) : p ∉ rest := fun other =>
  (List.nodup_append.mp graft.heap.nodup).2.2 p (List.mem_flatMap.mpr ⟨c, child, inside⟩) p other rfl

theorem nonzero (graft : Grafted t a par e rest n) {c : Tree h} (child : c ∈ n.children) :
    c.pg ≠ 0 :=
  graft.heap.live_nonzero
    (List.mem_append_left _ (List.mem_flatMap.mpr ⟨c, child, pg_mem_pages c⟩))

theorem roots_nodup (graft : Grafted t a par e rest n) : (n.map Paged.pg).children.Nodup := by
  rw [Node.children_map]
  exact map_pg_nodup graft.nodup

/-- Pages outside the trees do not matter, but for the books. -/
theorem congr (graft : Grafted t a par e rest n)
    (same : ∀ c ∈ n.children, ∀ p ∈ c.pages, u p = t p)
    (heap : Heap u b (n.children.flatMap pages ++ rest)) : Grafted u b par e rest n where
  stored c child := (graft.stored c child).frame (same c child)
  heap := heap
  linked := graft.linked.congr fun p member => by
    obtain ⟨c, child, inside⟩ := List.mem_flatMap.mp member
    rw [nextOf, same c child p (c.leafPages_subset inside)]

/-- Writing another page in use. -/
theorem write (graft : Grafted t a par e rest n) {p : Pgnum} (other : p ∈ rest) (page : Page) :
    Grafted (fileWritePage t p page) a par e rest n := by
  refine graft.congr (fun c child q inside => ?_)
    (graft.heap.write (List.mem_append_right _ other) page)
  have ne : q ≠ p := fun same => graft.not_rest child inside (same ▸ other)
  simp [fileWritePage, ne]

/-! ## Telling the trees another parent -/

section Adopt

variable {moved : List (Tree h)}

/-- The roots of some of the trees get another parent. -/
theorem adopted (graft : Grafted t a par e rest n) (some_ : ∀ c ∈ moved, c ∈ n.children)
    {par' : Pgnum} (same : ∀ c ∈ n.children, ∀ p ∈ c.pages, u p =
      if p ∈ moved.map Paged.pg then { t p with parentPgnum := par' } else t p)
    {c : Tree h} (child : c ∈ n.children) :
    (c ∈ moved → Stored u par' c) ∧ (c ∉ moved → Stored u par c) :=
  (graft.stored c child).reparented graft.nodup some_ same child

theorem adopted_linked (graft : Grafted t a par e rest n) {par' : Pgnum}
    (same : ∀ c ∈ n.children, ∀ p ∈ c.pages, u p =
      if p ∈ moved.map Paged.pg then { t p with parentPgnum := par' } else t p) :
    Linked (nextOf u) (n.children.flatMap leafPages) e :=
  graft.linked.congr fun p member => by
    obtain ⟨c, child, inside⟩ := List.mem_flatMap.mp member
    rw [nextOf, same c child p (c.leafPages_subset inside)]
    split <;> rfl

/-- Two nodes next to each other have no child in common. -/
theorem join_disjoint {l : Node Key (Tree h)} {k : Key} {r : Node Key (Tree h)}
    (graft : Grafted t a par e rest (Node.join l k r)) {c : Tree h} (left : c ∈ l.children) :
    c ∉ r.children := by
  have distinct := graft.nodup
  rw [Node.children_join, List.flatMap_append, List.nodup_append] at distinct
  intro right
  exact distinct.2.2 c.pg (List.mem_flatMap.mpr ⟨c, left, pg_mem_pages c⟩) c.pg
    (List.mem_flatMap.mpr ⟨c, right, pg_mem_pages c⟩) rfl

end Adopt

/-! ## Narrowing and widening the view -/

/-- The pages of the trees beside some of a node's children. -/
def beside (pre : List (Tree h × Key)) (post : List (Key × Tree h)) : List Pgnum :=
  pre.flatMap (fun e => e.1.pages) ++ post.flatMap fun r => r.2.pages

theorem pages_splice (pre : List (Tree h × Key)) (n : Node Key (Tree h))
    (post : List (Key × Tree h)) (rest : List Pgnum) :
    ((Node.splice pre n post).children.flatMap pages ++ rest).Perm
      (n.children.flatMap pages ++ (beside pre post ++ rest)) := by
  rw [flatMap_splice, beside, ← List.append_assoc (n.children.flatMap pages)]
  exact (List.perm_append_comm_assoc _ _ _).append_right rest

/-- The leaf page after some of a node's children. -/
def nextLeaf (post : List (Key × Tree h)) (e : Pgnum) : Pgnum :=
  (post.flatMap fun r => r.2.leafPages).headD e

theorem inner (graft : Grafted t a par e rest (Node.splice pre n post)) :
    Grafted t a par (nextLeaf post e) (beside pre post ++ rest) n where
  stored c child := graft.stored c (by simp [child])
  heap := graft.heap.perm (pages_splice pre n post rest).symm
  linked := by
    have linked := graft.linked
    rw [flatMap_splice, Linked.append_iff, Linked.append_iff] at linked
    exact linked.2.1

theorem firstLeaf_head (n : Node Key (Tree h)) (post : List Pgnum) (e : Pgnum) :
    (n.children.flatMap leafPages ++ post).headD e = n.left.firstLeaf := by
  obtain ⟨more, first⟩ := n.left.leafPages_head
  simp [Node.children, first]

/-- Some children have become others, that start at the same leaf. -/
theorem replaced (graft : Grafted t a par e rest (Node.splice pre n post))
    (inner : Grafted u b par (nextLeaf post e) (beside pre post ++ rest) n')
    (same : ∀ p ∈ beside pre post, u p = t p) (first : n'.left.firstLeaf = n.left.firstLeaf) :
    Grafted u b par e rest (Node.splice pre n' post) := by
  have before : ∀ d ∈ pre, ∀ p ∈ d.1.pages, u p = t p := fun d member p inside =>
    same p (List.mem_append_left _ (List.mem_flatMap.mpr ⟨d, member, inside⟩))
  have after : ∀ r ∈ post, ∀ p ∈ r.2.pages, u p = t p := fun r member p inside =>
    same p (List.mem_append_right _ (List.mem_flatMap.mpr ⟨r, member, inside⟩))
  refine ⟨fun c child => ?_, inner.heap.perm (pages_splice pre n' post rest), ?_⟩
  · simp only [Node.children_splice, List.mem_append, List.mem_map] at child
    rcases child with ⟨d, member, rfl⟩ | here | ⟨r, member, rfl⟩
    · exact (graft.stored d.1 (by simp; exact .inl ⟨_, member⟩)).frame (before d member)
    · exact inner.stored c here
    · exact (graft.stored r.2 (by simp; exact .inr (.inr ⟨_, member⟩))).frame (after r member)
  · have linked := graft.linked
    rw [flatMap_splice, Linked.append_iff, Linked.append_iff, firstLeaf_head] at linked ⊢
    rw [first]
    refine ⟨linked.1.congr fun p member => ?_, inner.linked, linked.2.2.congr fun p member => ?_⟩
    · obtain ⟨d, at_, inside⟩ := List.mem_flatMap.mp member
      rw [nextOf, before d at_ p (d.1.leafPages_subset inside)]
    · obtain ⟨r, at_, inside⟩ := List.mem_flatMap.mp member
      rw [nextOf, after r at_ p (r.2.leafPages_subset inside)]

/-! ## A tree and the children of its root -/

theorem opened {s : Tree (h + 1)} (graft : Grafted t a par e rest ⟨s, []⟩) :
    Grafted t a s.pg e (s.pg :: rest) s.root where
  stored c child := All.child (graft.stored s (by simp)) child
  heap := by
    refine graft.heap.perm ?_
    simp only [Node.children_mk, List.map_nil, List.flatMap_cons, List.flatMap_nil, List.append_nil,
      pages_succ]
    exact List.perm_middle
  linked := by simpa [leafPages_succ] using graft.linked

theorem closed (graft : Grafted t a pg e (pg :: rest) n) (node : NodePage (t pg) (n.map Paged.pg))
    (up : (t pg).parentPgnum = par) : Grafted t a par e rest ⟨branch pg n, []⟩ where
  stored c child := by
    obtain rfl : c = branch pg n := by simpa using child
    exact ⟨⟨up, node⟩, graft.stored⟩
  heap := by
    refine graft.heap.perm ?_
    simp only [Node.children_mk, List.map_nil, List.flatMap_cons, List.flatMap_nil, List.append_nil,
      pages_succ, pg_branch, root_branch]
    exact List.perm_middle.symm
  linked := by simpa [leafPages_succ] using graft.linked

/-- Two trees next to each other, from the children of their roots. -/
theorem closed_two {lp rp : Pgnum} {l r : Node Key (Tree h)} {k : Key}
    (left : Stored u par (branch lp l)) (right : Stored u par (branch rp r))
    (heap : Heap u b (rp :: (l.children.flatMap pages ++ r.children.flatMap pages ++ lp :: rest)))
    (linked : Linked (nextOf u) (l.children.flatMap leafPages ++ r.children.flatMap leafPages) e) :
    Grafted u b par e rest ⟨branch lp l, [(k, branch rp r)]⟩ where
  stored c child := by
    have either : c = branch lp l ∨ c = branch rp r := by simpa using child
    rcases either with rfl | rfl
    · exact left
    · exact right
  heap := by
    refine heap.perm ?_
    simp only [Node.children_mk, List.map_cons, List.map_nil, List.flatMap_cons, List.flatMap_nil,
      List.append_nil, pages_succ, pg_branch, root_branch, List.cons_append, List.append_assoc]
    -- `lp`, the left pages, `rp`, the right pages: bring `rp` to the front
    refine (List.Perm.cons lp List.perm_middle).trans ((List.Perm.swap _ _ _).trans (.cons rp ?_))
    rw [← List.append_assoc, ← List.append_assoc]
    exact List.perm_middle.symm
  linked := by simpa [leafPages_succ] using linked

/-- A node's children, some of which the page `new` has adopted, under two pages. -/
theorem parted {l r : Node Key (Tree h)} {m : Key} {new : Pgnum}
    (graft : Grafted t a pg e (pg :: rest) (Node.join l m r))
    (left : (u pg).parentPgnum = par ∧ NodePage (u pg) (l.map Paged.pg))
    (right : (u new).parentPgnum = par ∧ NodePage (u new) (r.map Paged.pg))
    (same : ∀ c ∈ (Node.join l m r).children, ∀ p ∈ c.pages, u p =
      if p ∈ r.children.map Paged.pg then { t p with parentPgnum := new } else t p)
    (heap : Heap u b (new :: ((Node.join l m r).children.flatMap pages ++ pg :: rest))) (k : Key) :
    Grafted u b par e rest ⟨branch pg l, [(k, branch new r)]⟩ := by
  have children := Node.children_join l m r
  have moved : ∀ c ∈ r.children, c ∈ (Node.join l m r).children := fun c child => by
    rw [children]
    exact List.mem_append_right _ child
  have linked := graft.adopted_linked same
  rw [children, List.flatMap_append] at linked heap
  refine closed_two ⟨left, fun c child => ?_⟩ ⟨right, fun c child => ?_⟩ heap linked
  · have here : c ∈ (Node.join l m r).children := by
      rw [children]
      exact List.mem_append_left _ child
    exact (graft.adopted moved same here).2 (graft.join_disjoint child)
  · exact (graft.adopted moved same (moved c child)).1 child

theorem single_up {s : Tree h} (graft : Grafted t a par e rest ⟨s, []⟩) : Stored t par s :=
  graft.stored s (by simp)

end Grafted

/-! ## A whole table -/

section Table

variable {t : Table} {a : Alloc} {h : Nat} {s : Tree h}

/-- A table with a tree. -/
theorem represents_some (root : getRootpgnum t = s.pg)
    (graft : Grafted t a 0 0 [] ⟨s, []⟩) : Represents t ⟨some ⟨h, s⟩, a⟩ where
  root := root
  heap := by simpa [Contents.pages] using graft.heap
  stored := by
    rintro _ _ ⟨⟩
    exact graft.single_up
  linked := by
    rintro _ _ ⟨⟩
    simpa using graft.linked

theorem Represents.grafted (represents : Represents t ⟨some ⟨h, s⟩, a⟩) :
    Grafted t a 0 0 [] ⟨s, []⟩ where
  stored c child := by
    obtain rfl : c = s := by simpa using child
    exact represents.stored h c rfl
  heap := by simpa [Contents.pages] using represents.heap
  linked := by simpa using represents.linked h s rfl

end Table

end SimpleDatabase.Kernel
