/- InMemory.Layout -- a B+ tree as the blocks it is made of

A tree lies in memory as one node for each of its pages and one record for each of its
entries.  `cells parent next s` lists them all with what they hold, where `parent` is the
page above the root of `s` and `next` the leaf behind its last one; `frame path pg first`
lists those of a tree with a hole, where the page in the hole is to be `pg` and the first
leaf in it `first`.  `cells_plug` puts the two together.

`Holds order m F` says that `F` is all that is allocated.  The rest of this file says what
the memory operations of `Bpt.Type` do to it.
-/
import SimpleDatabase.InMemory.Nodes
import SimpleDatabase.Theory.Footprint
import SimpleDatabase.Theory.Path
import Mathlib.Algebra.Order.Group.Multiset
import Mathlib.Tactic.Abel

namespace SimpleDatabase.InMemory

open SimpleDatabase.Theory SimpleDatabase.Bpt

set_option autoImplicit false

/-- A key, where its record is, and the record's value. -/
abbrev Item := Key × Ptr × Int32

abbrev Tree (h : Nat) := PageTree Key (Ptr × Int32) h

abbrev Hole (h : Nat) := Path Key (Ptr × Int32) h

def entry (r : Item) : Entry := (r.1, r.2.1)

/-- What is known of a block. -/
inductive Desc where
  | record (value : Int32)
  | leaf (parent next : Ptr) (recs : List Entry)
  | inner (parent : Ptr) (nd : Theory.Node Key Ptr)
  /-- A node that is not in the tree yet, or no longer. -/
  | loose (parent : Ptr)

def Fits (order : Nat) : Block → Desc → Prop
  | .record r, .record value => r.value = value
  | .node n, .leaf parent next recs => LeafNode order n next recs ∧ n.parent = parent
  | .node n, .inner parent nd => InnerNode order n nd ∧ n.parent = parent
  | .node n, .loose parent => n.parent = parent
  | _, _ => False

abbrev Cell := Ptr × Desc

/-- All that is allocated is `F`. -/
abbrev Holds (order : Nat) (m : Memory) (F : Multiset Cell) : Prop := Owns (Fits order) m.block F

/-! ## The blocks of a tree -/

/-- The root's node. -/
def rootDesc (parent next : Ptr) : {h : Nat} → Tree h → Desc
  | 0, s => .leaf parent next (s.recs.map entry)
  | _ + 1, s => .inner parent (s.root.map Paged.pg)

def recordCells (recs : List Item) : Multiset Cell := (recs.map fun r => (r.2.1, Desc.record r.2.2) : List Cell)

/-- What each of some neighbouring trees has, given the leaf behind it. -/
def chain {h : Nat} (f : Ptr → Tree h → Multiset Cell) (next : Ptr) : List (Tree h) → Multiset Cell
  | [] => 0
  | s :: rest => f ((rest.map PageTree.firstLeaf).headD next) s + chain f next rest

/-- The blocks below the root. -/
def below (next : Ptr) : {h : Nat} → Tree h → Multiset Cell
  | 0, s => recordCells s.recs
  | _ + 1, s => chain (fun next c => {(c.pg, rootDesc s.pg next c)} + below next c) next s.root.children

def cells {h : Nat} (parent next : Ptr) (s : Tree h) : Multiset Cell :=
  {(s.pg, rootDesc parent next s)} + below next s

/-- The pages before and after a hole, as its node lists them. -/
def pagesBefore {h : Nat} (pre : List (Tree h × Key)) : List (Ptr × Key) := pre.map fun e => (e.1.pg, e.2)

def pagesAfter {h : Nat} (post : List (Key × Tree h)) : List (Key × Ptr) := post.map fun e => (e.1, e.2.pg)

/-- The blocks around a hole. -/
def frame : {h : Nat} → Hole h → (pg first : Ptr) → Multiset Cell
  | _, .top, _, _ => 0
  | _, .under p pre post up, pg, first =>
      {(p, .inner up.parent (Theory.Node.plug (pagesBefore pre) pg (pagesAfter post)))} +
        chain (cells p) first (pre.map Prod.fst) + chain (cells p) up.next (post.map Prod.snd) +
        frame up p ((pre.map fun e => e.1.firstLeaf).headD first)

variable {h : Nat} {parent next p : Ptr}

theorem below_zero (s : Tree 0) : below next s = recordCells s.recs := rfl

theorem below_succ (s : Tree (h + 1)) : below next s = chain (cells s.pg) next s.root.children := rfl

theorem recordCells_append (recs recs' : List Item) :
    recordCells (recs ++ recs') = recordCells recs + recordCells recs' := by
  simp [recordCells]

theorem recordCells_cons (r : Item) (recs : List Item) :
    recordCells (r :: recs) = {(r.2.1, Desc.record r.2.2)} + recordCells recs := rfl

theorem chain_append (f : Ptr → Tree h → Multiset Cell) (l r : List (Tree h)) :
    chain f next (l ++ r) = chain f ((r.map PageTree.firstLeaf).headD next) l + chain f next r := by
  induction l with
  | nil => simp [chain]
  | cons s l ih =>
      rw [List.cons_append, chain, chain, ih, add_assoc]
      congr 2
      cases l <;> rfl

/-- The pages of a node, around one child. -/
theorem map_plug (pre : List (Tree h × Key)) (s : Tree h) (post : List (Key × Tree h)) :
    (Theory.Node.plug pre s post).map Paged.pg =
      Theory.Node.plug (pagesBefore pre) s.pg (pagesAfter post) := Theory.Node.map_plug _ pre s post

theorem firstLeaf_plug (pre : List (Tree h × Key)) (s : Tree h) (post : List (Key × Tree h)) :
    (PageTree.branch p (Theory.Node.plug pre s post)).firstLeaf =
      (pre.map fun e => e.1.firstLeaf).headD s.firstLeaf := by
  cases pre with
  | nil => rfl
  | cons e pre => rfl

theorem cells_branch (nd : Theory.Node Key (Tree h)) :
    cells parent next (PageTree.branch p nd) =
      {(p, .inner parent (nd.map Paged.pg))} + chain (cells p) next nd.children := rfl

/-- Two neighbours among the children of a node. -/
theorem chain_two (f : Ptr → Tree h → Multiset Cell) (pre : List (Tree h × Key)) (l : Tree h) (k : Key)
    (r : Tree h) (post : List (Key × Tree h)) :
    chain f next (Theory.Node.plug pre l ((k, r) :: post)).children =
      chain f l.firstLeaf (pre.map Prod.fst) + (f r.firstLeaf l +
        (f ((post.map fun e => e.2.firstLeaf).headD next) r + chain f next (post.map Prod.snd))) := by
  have first : (post.map Prod.snd).map PageTree.firstLeaf = post.map fun e => e.2.firstLeaf := by
    rw [List.map_map]
    rfl
  simp only [Theory.Node.children_plug, chain_append, List.map_cons, chain, first]
  rfl

/-- The blocks of a tree, around one child. -/
theorem cells_around (pre : List (Tree h × Key)) (s : Tree h) (post : List (Key × Tree h)) :
    cells parent next (PageTree.branch p (Theory.Node.plug pre s post)) =
      {(p, .inner parent (Theory.Node.plug (pagesBefore pre) s.pg (pagesAfter post)))} +
        chain (cells p) s.firstLeaf (pre.map Prod.fst) + chain (cells p) next (post.map Prod.snd) +
        cells p ((post.map fun e => e.2.firstLeaf).headD next) s := by
  have first : (post.map Prod.snd).map PageTree.firstLeaf = post.map fun e => e.2.firstLeaf := by
    rw [List.map_map]
    rfl
  rw [cells, below_succ, PageTree.pg_branch, PageTree.root_branch, Theory.Node.children_plug, chain_append,
    chain, first]
  simp only [rootDesc, PageTree.root_branch, map_plug, List.map_cons, List.headD_cons]
  ac_rfl

/-- The node above a hole, with what is in the hole. -/
theorem frame_under (pre : List (Tree h × Key)) (s : Tree h) (post : List (Key × Tree h)) (up : Hole (h + 1)) :
    frame (.under p pre post up) s.pg s.firstLeaf + cells p (Path.under p pre post up).next s =
      frame up p (PageTree.branch p (Theory.Node.plug pre s post)).firstLeaf +
        cells up.parent up.next (PageTree.branch p (Theory.Node.plug pre s post)) := by
  rw [cells_around, firstLeaf_plug, frame, Path.next]
  abel

/-- **A tree with its hole filled.** -/
theorem cells_plug (path : Hole h) (s : Tree h) :
    cells null null (path.plug s).2 = frame path s.pg s.firstLeaf + cells path.parent path.next s := by
  induction path with
  | top => exact (zero_add _).symm
  | under p pre post up ih => exact (ih _).trans (frame_under pre s post up).symm

/-- The root's node is one of those around the hole. -/
theorem frame_root {h : Nat} (p : Ptr) (pre : List (Tree h × Key)) (post : List (Key × Tree h))
    (up : Hole (h + 1)) (pg first : Ptr) :
    ∃ d, (up.rootPage p, d) ∈ frame (.under p pre post up) pg first := by
  match up with
  | .top =>
      refine ⟨.inner null (Theory.Node.plug (pagesBefore pre) pg (pagesAfter post)), ?_⟩
      rw [frame, Multiset.mem_add, Multiset.mem_add, Multiset.mem_add]
      exact .inl (.inl (.inl (Multiset.mem_singleton_self _)))
  | .under q pre' post' up =>
      obtain ⟨d, member⟩ := frame_root q pre' post' up p ((pre.map fun e => e.1.firstLeaf).headD first)
      exact ⟨d, Multiset.mem_add.mpr (.inr member)⟩

theorem root_mem (s : Tree h) : (s.pg, rootDesc parent next s) ∈ cells parent next s := by simp [cells]

/-- The blocks of a child are among those of the tree. -/
theorem cells_child {s : Tree (h + 1)} {c : Tree h} (child : c ∈ s.root.children) :
    ∃ next', cells s.pg next' c ≤ cells parent next s := by
  obtain ⟨pre, post, same⟩ := Theory.Node.exists_plug child
  rw [PageTree.eq_branch s, same, cells_around]
  exact ⟨_, Multiset.le_add_left _ _⟩

/-- Neighbours have different pages. -/
theorem pages_le_chain (next q : Ptr) (ss : List (Tree h)) :
    ((ss.map Paged.pg : List Ptr) : Multiset Ptr) ≤ (chain (cells q) next ss).map Prod.fst := by
  induction ss with
  | nil => exact Multiset.zero_le _
  | cons s ss ih =>
      rw [chain, Multiset.map_add, List.map_cons, ← Multiset.cons_coe, ← Multiset.singleton_add]
      refine add_le_add ?_ ih
      rw [cells, Multiset.map_add]
      exact Multiset.le_add_right _ _

theorem pages_nodup {order : Nat} {m : Memory} {F : Multiset Cell} (holds : Holds order m F) {q : Ptr}
    {ss : List (Tree h)} (inside : chain (cells q) next ss ≤ F) : (ss.map Paged.pg).Nodup := by
  have distinct := Multiset.nodup_of_le (Multiset.map_le_map inside) holds.nodup
  exact Multiset.coe_nodup.mp (Multiset.nodup_of_le (pages_le_chain next q ss) distinct)

/-! ## Memory operations -/

section Operations

variable {order : Nat} {m : Memory} {R : Multiset Cell} {d : Desc} {recs : List Entry}
  {nd : Theory.Node Key Ptr} {v : Int32} {s : Tree h}

theorem Memory.node_of_block {n : Bpt.Node} (there : m.block p = some (.node n)) : m.node p = .ok n := by
  rw [Memory.node, there]

/-- What is allocated is not at `NULL`. -/
theorem ne_null {F : Multiset Cell} (holds : Holds order m F) (member : (p, d) ∈ F) : p ≠ null := by
  rintro rfl
  obtain ⟨b, there, -⟩ := holds.get_of_mem member
  simp at there

theorem front (c : Cell) (R : Multiset Cell) : c ∈ {c} + R := by simp

theorem node_leaf {F : Multiset Cell} (holds : Holds order m F) (member : (p, .leaf parent next recs) ∈ F) :
    ∃ n, m.node p = .ok n ∧ LeafNode order n next recs ∧ n.parent = parent := by
  obtain ⟨b, there, fits⟩ := holds.get_of_mem member
  cases b with
  | record r => exact fits.elim
  | node n => exact ⟨n, Memory.node_of_block there, fits⟩

theorem node_inner {F : Multiset Cell} (holds : Holds order m F) (member : (p, .inner parent nd) ∈ F) :
    ∃ n, m.node p = .ok n ∧ InnerNode order n nd ∧ n.parent = parent := by
  obtain ⟨b, there, fits⟩ := holds.get_of_mem member
  cases b with
  | record r => exact fits.elim
  | node n => exact ⟨n, Memory.node_of_block there, fits⟩

theorem node_loose {F : Multiset Cell} (holds : Holds order m F) (member : (p, .loose parent) ∈ F) :
    ∃ n, m.node p = .ok n ∧ n.parent = parent := by
  obtain ⟨b, there, fits⟩ := holds.get_of_mem member
  cases b with
  | record r => exact fits.elim
  | node n => exact ⟨n, Memory.node_of_block there, fits⟩

theorem node_root {F : Multiset Cell} (holds : Holds order m F)
    (member : (s.pg, rootDesc parent next s) ∈ F) :
    ∃ n, m.node s.pg = .ok n ∧ Fits order (.node n) (rootDesc parent next s) ∧ n.parent = parent := by
  cases h with
  | zero =>
      obtain ⟨n, there, leaf, up⟩ := node_leaf holds member
      exact ⟨n, there, ⟨leaf, up⟩, up⟩
  | succ h =>
      obtain ⟨n, there, inner, up⟩ := node_inner holds member
      exact ⟨n, there, ⟨inner, up⟩, up⟩

/-- Writing a node. -/
theorem setNode_spec {n x : Bpt.Node} {e : Desc} (holds : Holds order m ({(p, d)} + R))
    (there : m.node p = .ok n) (fits : Fits order (.node x) e) :
    ∃ m', m.setNode p x = .ok m' ∧ Holds order m' ({(p, e)} + R) := by
  refine ⟨m.put p (.node x), ?_, ?_⟩
  · rw [Memory.setNode, there]
    rfl
  · rw [Holds, m.block_put (ne_null holds (front _ _))]
    exact holds.set fits

/-- Writing two nodes. -/
theorem setTwo_spec {a b : Ptr} {d e f g : Desc} {x x' y y' : Bpt.Node}
    (holds : Holds order m ({(a, d)} + ({(b, e)} + R))) (first : m.node a = .ok x) (second : m.node b = .ok y)
    (fits : Fits order (.node x') f) (fits' : Fits order (.node y') g) :
    ∃ m₁ m₂, m.setNode a x' = .ok m₁ ∧ m₁.setNode b y' = .ok m₂ ∧
      Holds order m₂ ({(a, f)} + ({(b, g)} + R)) := by
  have other : a ≠ b := holds.ne (Multiset.mem_add.mpr (.inl (Multiset.mem_singleton_self _)))
  have nonNull := ne_null holds (front _ _)
  have nonNull' : b ≠ null := ne_null holds (Multiset.mem_add.mpr (.inr (front _ _)))
  have kept : (m.put a (.node x')).node b = .ok y := by
    simp only [Memory.node, m.block_put nonNull, Function.update_of_ne other.symm] at second ⊢
    exact second
  refine ⟨m.put a (.node x'), (m.put a (.node x')).put b (.node y'), ?_, ?_, ?_⟩
  · rw [Memory.setNode, first]
    rfl
  · rw [Memory.setNode, kept]
    rfl
  · rw [Holds, Memory.block_put _ nonNull', m.block_put nonNull]
    exact (((holds.set fits).rearrange (add_left_comm _ _ _)).set fits').rearrange (add_left_comm _ _ _)

theorem free_spec (holds : Holds order m ({(p, d)} + R)) :
    ∃ m', m.free p = .ok m' ∧ Holds order m' R := by
  obtain ⟨b, there, -⟩ := holds.get
  refine ⟨⟨m.blocks.filter fun e => e.1 ≠ p⟩, ?_, ?_⟩
  · rw [Memory.free, if_neg (ne_null holds (front _ _)), if_pos (by rw [there]; rfl)]
  · rw [Holds, m.block_free]
    exact holds.free

theorem setParent_spec (holds : Holds order m (cells parent next s + R)) (q : Ptr) :
    ∃ m', setParent m s.pg q = .ok m' ∧ Holds order m' (cells q next s + R) := by
  rw [cells, add_assoc] at holds
  obtain ⟨n, there, fits, -⟩ := node_root holds (front _ _)
  have moved : Fits order (.node { n with parent := q }) (rootDesc q next s) := by
    cases h with
    | zero => exact ⟨fits.1.reparent q, rfl⟩
    | succ h => exact ⟨fits.1.reparent q, rfl⟩
  obtain ⟨m', set, holds'⟩ := setNode_spec holds there moved
  refine ⟨m', ?_, ?_⟩
  · rw [setParent, there, Exec.ok_bind, set]
  · rwa [cells, add_assoc]

/-- The loop over a node's children: those it has come to get it as their parent. -/
theorem adoptChildren_spec {n : Bpt.Node} {q : Ptr} {i : Nat} {cs : List (Tree h)}
    (holds : Holds order m (chain (cells parent) next cs + R)) (fits : i + cs.length ≤ order)
    (listed : ∀ j (inside : j < cs.length), n.pointers (i + j) = cs[j].pg) :
    ∃ m', adoptChildren order q n i cs.length m = .ok m' ∧ Holds order m' (chain (cells q) next cs + R) := by
  induction cs generalizing i m R with
  | nil => exact ⟨m, rfl, holds⟩
  | cons c cs ih =>
      rw [List.length_cons] at fits
      rw [chain, add_assoc] at holds
      obtain ⟨m₁, set, holds⟩ := setParent_spec holds q
      rw [add_left_comm] at holds
      obtain ⟨m₂, rest, holds⟩ := ih (i := i + 1) holds (by omega) (by
        intro j inside
        have there := listed (j + 1) (by simpa using inside)
        rwa [show i + (j + 1) = i + 1 + j by omega] at there)
      have first : n.pointers i = c.pg := listed 0 (by simp)
      refine ⟨m₂, ?_, ?_⟩
      · rw [List.length_cons, adoptChildren, read_array _ (by omega), Exec.ok_bind, first, set, Exec.ok_bind,
          rest]
      · rwa [chain, add_assoc, add_left_comm]

/-- The loop over all children of a node. -/
theorem adoptAll_spec {n : Bpt.Node} {q : Ptr} {nd : Theory.Node Key (Tree h)}
    (inner : InnerNode order n (nd.map Paged.pg)) (order_pos : 1 ≤ order)
    (holds : Holds order m (chain (cells parent) next nd.children + R)) :
    ∃ m', adoptChildren order q n 0 (n.numKeys + 1) m = .ok m' ∧
      Holds order m' (chain (cells q) next nd.children + R) := by
  have size := inner.size_lt order_pos
  have count := inner.count
  rw [Theory.Node.size_map] at size count
  rw [count, ← Theory.Node.children_length]
  refine adoptChildren_spec holds (by rw [Theory.Node.children_length]; omega) fun j inside => ?_
  rw [Nat.zero_add, inner.pointer_at (by rw [Theory.Node.children_map, List.length_map]; exact inside)]
  simp

theorem adoptChildren_add (q : Ptr) (n : Bpt.Node) (i a b : Nat) (m : Memory) :
    adoptChildren order q n i (a + b) m =
      adoptChildren order q n i a m >>= adoptChildren order q n (i + a) b := by
  induction a generalizing i m with
  | zero => rw [Nat.zero_add]; rfl
  | succ a ih =>
      rw [Nat.add_right_comm, adoptChildren, adoptChildren]
      simp only [ih, bind_assoc, Nat.add_assoc, Nat.add_comm 1 a]

variable (heap : Malloc)

theorem makeRecord_spec (holds : Holds order m R) (v : Int32) :
    Holds order (makeRecord heap m v).2 ({((makeRecord heap m v).1, .record v)} + R) := by
  have fits : Fits order (.record ⟨v⟩) (.record v) := rfl
  rw [Holds, makeRecord, m.block_put (heap.nonNull m)]
  exact holds.alloc (heap.fresh m) fits

/-- A new block for a node that has no parent. -/
theorem alloc_node (holds : Holds order m R) {n : Bpt.Node} (orphan : n.parent = null) :
    (m.put (heap.place m) (.node n)).node (heap.place m) = .ok n ∧
      Holds order (m.put (heap.place m) (.node n)) ({(heap.place m, .loose null)} + R) := by
  have block := m.block_put (heap.nonNull m) (.node n)
  have fits : Fits order (.node n) (.loose null) := orphan
  refine ⟨?_, ?_⟩
  · apply Memory.node_of_block
    rw [block, Function.update_self]
  · rw [Holds, block]
    exact holds.alloc (heap.fresh m) fits

end Operations

end SimpleDatabase.InMemory
