/- InMemory.Deletion -- `delete` on a tree in memory

A coalesced node stays allocated until the calls for its ancestors have returned, so it is
among the other blocks meanwhile.
-/
import SimpleDatabase.InMemory.Neighbors

namespace SimpleDatabase.InMemory

open SimpleDatabase.Theory SimpleDatabase.Bpt

set_option autoImplicit false

variable {order h : Nat} {m : Memory} {R : Multiset Cell} {p q parent next : Ptr} {k key : Key} {pointer : Ptr}
  {n x : Bpt.Node}

/-! ## The neighbour -/

section Neighbor

variable {pre : List (Ptr × Key)} {c d : Ptr} {post : List (Key × Ptr)}

theorem getNeighborIndex_eq {nd : Theory.Node Key Ptr} (here : m.node q = .ok x) (under : x.parent = p)
    (there : m.node p = .ok n) (inner : InnerNode order n nd) (order_pos : 1 ≤ order) {i : Nat}
    (index : nd.children.findIdx (fun c => c = q) = i) (inside : i ≤ nd.size) :
    getNeighborIndex order m q = .ok (if i = 0 then none else some (i - 1)) := by
  have size := inner.size_lt order_pos
  have scan := find_shown (c := order) n.pointers (fun c => c = q) (show nd.size + 1 ≤ order by omega)
  rw [inner.pointers, index] at scan
  rw [getNeighborIndex, here, Exec.ok_bind, under, there, Exec.ok_bind, inner.count, scan, Exec.ok_bind,
    if_neg (by omega)]
  cases i <;> rfl

/-- The first child has no left neighbour, ... -/
theorem getNeighborIndex_first (here : m.node q = .ok x) (under : x.parent = p) (there : m.node p = .ok n)
    (inner : InnerNode order n ⟨q, post⟩) (order_pos : 1 ≤ order) : getNeighborIndex order m q = .ok none :=
  getNeighborIndex_eq here under there inner order_pos (i := 0) (by simp [Theory.Node.children, List.findIdx_cons])
    (Nat.zero_le _)

/-- ... another one is behind its left neighbour. -/
theorem getNeighborIndex_later (here : m.node q = .ok x) (under : x.parent = p) (there : m.node p = .ok n)
    (inner : InnerNode order n (Theory.Node.plug pre c ((k, q) :: post))) (order_pos : 1 ≤ order)
    (distinct : (Theory.Node.plug pre c ((k, q) :: post)).children.Nodup) :
    getNeighborIndex order m q = .ok (some pre.length) := by
  refine getNeighborIndex_eq here under there inner order_pos (i := pre.length + 1) ?_ ?_
  · rw [Theory.Node.plug_shift] at distinct ⊢
    rw [Theory.Node.children_findIdx_plug distinct, List.length_append, List.length_singleton]
  · rw [Theory.Node.size_plug, List.length_cons]
    omega

/-- The key between two neighbours, and the pointers to them. -/
theorem reads_between (inner : InnerNode order n (Theory.Node.plug pre c ((k, d) :: post))) (order_pos : 1 ≤ order) :
    (keyArray order).read n.keys pre.length = .ok k ∧ (pointerArray order).read n.pointers pre.length = .ok c ∧
      (pointerArray order).read n.pointers (pre.length + 1) = .ok d := by
  have size := inner.size_lt order_pos
  rw [Theory.Node.size_plug, List.length_cons] at size
  have keys := inner.keys
  have pointers := inner.pointers
  rw [Theory.Node.seps_plug, List.map_cons] at keys
  rw [Theory.Node.children_plug, List.map_cons] at pointers
  refine ⟨?_, ?_, ?_⟩
  · rw [read_array _ (by omega), get_of_shown keys (by simp)]
    simp
  · rw [read_array _ (by omega), get_of_shown pointers (by simp)]
    simp
  · rw [read_array _ (by omega), get_of_shown pointers (by simp)]
    simp [List.getElem_append_right]

end Neighbor

/-! ## One round of the cascade -/

/-- What a root's node says about its tree. -/
theorem root_counts {s : Tree h} (fits : Fits order (.node n) (rootDesc parent next s)) :
    n.numKeys = s.size ∧ n.isLeaf = decide (h = 0) := by
  cases h with
  | zero =>
      refine ⟨fits.1.count.trans ?_, fits.1.tag⟩
      rw [List.length_map]
      rfl
  | succ h =>
      refine ⟨fits.1.count.trans ?_, fits.1.tag⟩
      rw [Theory.Node.size_map]
      rfl

/-- The root lost an entry. -/
theorem adjustRoot_spec (wide : 3 ≤ order) {s : Tree h} (holds : Holds order m (cells null null s + R)) :
    ∃ T m', adjustRoot order m s.pg = .ok (Whole.root T, m') ∧ Holds order m' (Whole.blocks T + R) ∧
      Underflows (limits order wide) .top s T := by
  obtain ⟨n, there, fits, -⟩ := node_root holds (Multiset.mem_of_le (Multiset.le_add_right _ _) (root_mem s))
  obtain ⟨count, tag⟩ := root_counts fits
  by_cases some_ : s.size > 0
  · refine ⟨some ⟨h, s⟩, m, ?_, holds, .root some_⟩
    rw [adjustRoot, there, Exec.ok_bind, if_pos (count ▸ some_)]
    rfl
  · have empty : ¬ n.numKeys > 0 := count ▸ some_
    cases h with
    | zero =>
        have nil : s.recs = [] := List.eq_nil_of_length_eq_zero (by
          have some_ : ¬ s.recs.length > 0 := some_
          omega)
        have holds : Holds order m ({(s.pg, rootDesc null null s)} + R) := by
          apply holds.rearrange
          rw [cells, below_zero, nil]
          rfl
        obtain ⟨m', free, holds⟩ := free_spec holds
        refine ⟨none, m', ?_, holds.rearrange (zero_add R).symm, .none (by omega)⟩
        rw [adjustRoot, there, Exec.ok_bind, if_neg empty, if_pos (show n.isLeaf = true from tag), free]
        rfl
    | succ h =>
        obtain ⟨pg, c, rfl⟩ : ∃ pg c, s = PageTree.branch pg ⟨c, []⟩ := by
          have nil : s.root.recs = [] := List.eq_nil_of_length_eq_zero (by
            have some_ : ¬ s.root.recs.length > 0 := some_
            omega)
          exact ⟨s.pg, s.root.left, congrArg (fun recs => PageTree.branch s.pg ⟨s.root.left, recs⟩) nil⟩
        have holds : Holds order m (cells pg null c + ({(pg, .inner null ⟨c.pg, []⟩)} + R)) := by
          apply holds.rearrange
          have whole : cells null null (PageTree.branch pg ⟨c, []⟩) =
              {(pg, .inner null ⟨c.pg, []⟩)} + (cells pg null c + 0) := rfl
          rw [whole, add_zero]
          abel
        obtain ⟨m₁, adopt, holds⟩ := setParent_spec holds null
        obtain ⟨m₂, free, holds⟩ := free_spec (holds.rearrange (add_left_comm _ _ _))
        refine ⟨some ⟨h, c⟩, m₂, ?_, holds, .promote pg c⟩
        have inner : InnerNode order n ⟨c.pg, []⟩ := fits.1
        have child : n.pointers 0 = c.pg := inner.pointer_at (i := 0) (Nat.succ_pos _)
        rw [adjustRoot, there, Exec.ok_bind, if_neg empty, if_neg (by rw [tag]; simp), read_array _ (by omega),
          Exec.ok_bind, child, adopt, Exec.ok_bind, PageTree.pg_branch, free]
        rfl

theorem removeEntryFromNode_inner {pre : List (Ptr × Key)} {c d : Ptr} {post : List (Key × Ptr)}
    (holds : Holds order m ({(p, .inner parent (Theory.Node.plug pre c ((k, d) :: post)))} + R))
    (order_pos : 1 ≤ order) (seps : (Theory.Node.plug pre c ((k, d) :: post)).seps.Nodup)
    (children : (Theory.Node.plug pre c ((k, d) :: post)).children.Nodup) :
    ∃ m', removeEntryFromNode order m p k d = .ok m' ∧
      Holds order m' ({(p, .inner parent (Theory.Node.plug pre c post))} + R) := by
  obtain ⟨n, there, inner, up⟩ := node_inner holds (front _ _)
  obtain ⟨n', run, inner', same⟩ := removeEntry_inner inner order_pos seps children
  obtain ⟨m', set, holds⟩ := setNode_spec holds there (e := .inner parent (Theory.Node.plug pre c post))
    ⟨inner', same.trans up⟩
  refine ⟨m', ?_, holds⟩
  rw [removeEntryFromNode, there, Exec.ok_bind, run, Exec.ok_bind, set]

/-- A tree, around two neighbours. -/
theorem cells_two (pre : List (Tree h × Key)) (l : Tree h) (k : Key) (r : Tree h) (post : List (Key × Tree h))
    (up : Hole (h + 1)) :
    cells null null (up.plug (PageTree.branch p (Theory.Node.plug pre l ((k, r) :: post)))).2 =
      {(p, .inner up.parent (Theory.Node.plug (pagesBefore pre) l.pg ((k, r.pg) :: pagesAfter post)))} +
        (cells p r.firstLeaf l + (cells p ((post.map fun e => e.2.firstLeaf).headD up.next) r +
          (chain (cells p) l.firstLeaf (pre.map Prod.fst) + (chain (cells p) up.next (post.map Prod.snd) +
            frame up p ((pre.map fun e => e.1.firstLeaf).headD l.firstLeaf))))) := by
  have pages : (Theory.Node.plug pre l ((k, r) :: post)).map Paged.pg =
      Theory.Node.plug (pagesBefore pre) l.pg ((k, r.pg) :: pagesAfter post) := map_plug pre l ((k, r) :: post)
  rw [cells_plug, cells_branch, chain_two, firstLeaf_plug, pages, PageTree.pg_branch]
  abel

/-- The nodes of two neighbours and of the one above. -/
theorem nodes_two {pre : List (Tree h × Key)} {l r : Tree h} {post : List (Key × Tree h)} {up : Hole (h + 1)}
    (holds : Holds order m
      (cells null null (up.plug (PageTree.branch p (Theory.Node.plug pre l ((k, r) :: post)))).2 + R)) :
    ∃ np x y, m.node p = .ok np ∧
      InnerNode order np (Theory.Node.plug (pagesBefore pre) l.pg ((k, r.pg) :: pagesAfter post)) ∧
      (Theory.Node.plug (pagesBefore pre) l.pg ((k, r.pg) :: pagesAfter post)).children.Nodup ∧
      (m.node l.pg = .ok x ∧ x.parent = p ∧ x.numKeys = l.size) ∧
      (m.node r.pg = .ok y ∧ y.parent = p ∧ y.numKeys = r.size) := by
  have pages : (Theory.Node.plug pre l ((k, r) :: post)).map Paged.pg =
      Theory.Node.plug (pagesBefore pre) l.pg ((k, r.pg) :: pagesAfter post) := map_plug pre l ((k, r) :: post)
  have children : (Theory.Node.plug (pagesBefore pre) l.pg ((k, r.pg) :: pagesAfter post)).children.Nodup := by
    rw [← pages, Theory.Node.children_map]
    refine pages_nodup holds (?_ : chain (cells p) up.next _ ≤ _)
    rw [cells_plug, cells_branch]
    exact ((Multiset.le_add_left _ _).trans (Multiset.le_add_left _ _)).trans (Multiset.le_add_right _ _)
  rw [cells_two, add_assoc, add_assoc, add_assoc] at holds
  obtain ⟨np, above, inner, -⟩ := node_inner holds (front _ _)
  obtain ⟨x, here, fits, under⟩ := node_root holds
    (show (l.pg, rootDesc p r.firstLeaf l) ∈ _ by simp [cells])
  obtain ⟨y, there, fits', under'⟩ := node_root holds
    (show (r.pg, rootDesc p ((post.map fun e => e.2.firstLeaf).headD up.next) r) ∈ _ by simp [cells])
  exact ⟨np, x, y, above, inner, children, ⟨here, under, (root_counts fits).1⟩,
    there, under', (root_counts fits').1⟩

/-- Two neighbours that fit into one node: the right one goes into the left one, and out of the
node above. -/
theorem coalesce_step {pre : List (Tree h × Key)} {l r : Tree h} {post : List (Key × Tree h)} {up : Hole (h + 1)}
    (order_pos : 1 ≤ order) (fits : (PageTree.join l k r).size ≤ order - 1)
    (seps : (Theory.Node.plug pre l ((k, r) :: post)).seps.Nodup)
    (children : (Theory.Node.plug (pagesBefore pre) l.pg ((k, r.pg) :: pagesAfter post)).children.Nodup)
    (holds : Holds order m
      (cells null null (up.plug (PageTree.branch p (Theory.Node.plug pre l ((k, r) :: post)))).2 + R)) :
    ∃ m₁ m₂ y, coalesceInto order m l.pg r.pg k = .ok m₁ ∧ m₁.node r.pg = .ok y ∧ y.parent = p ∧
      removeEntryFromNode order m₁ p k r.pg = .ok m₂ ∧
      Holds order m₂
        (frame up p (PageTree.branch p (Theory.Node.plug pre (PageTree.join l k r) post)).firstLeaf +
          (cells up.parent up.next (PageTree.branch p (Theory.Node.plug pre (PageTree.join l k r) post)) +
            ({(r.pg, .loose p)} + R))) := by
  have pages : (Theory.Node.plug pre l ((k, r) :: post)).map Paged.pg =
      Theory.Node.plug (pagesBefore pre) l.pg ((k, r.pg) :: pagesAfter post) := map_plug pre l ((k, r) :: post)
  rw [← Theory.Node.seps_map Paged.pg, pages] at seps
  rw [cells_two] at holds
  obtain ⟨F, rest⟩ : ∃ F, F = chain (cells p) l.firstLeaf (pre.map Prod.fst) +
    (chain (cells p) up.next (post.map Prod.snd) +
      frame up p ((pre.map fun e => e.1.firstLeaf).headD l.firstLeaf)) := ⟨_, rfl⟩
  obtain ⟨P, above⟩ : ∃ P, P = ({(p, .inner up.parent (Theory.Node.plug (pagesBefore pre) l.pg
    ((k, r.pg) :: pagesAfter post)))} : Multiset Cell) := ⟨_, rfl⟩
  rw [← rest, ← above] at holds
  have holds : Holds order m (cells p r.firstLeaf l +
      (cells p ((post.map fun e => e.2.firstLeaf).headD up.next) r + (P + (F + R)))) := holds.rearrange (by abel)
  obtain ⟨m₁, run, holds⟩ := coalesceInto_spec order_pos fits holds
  obtain ⟨y, here, under⟩ := node_loose holds (show (r.pg, Desc.loose p) ∈ _ by simp)
  have holds : Holds order m₁ (P + (cells p ((post.map fun e => e.2.firstLeaf).headD up.next) (PageTree.join l k r) +
      ({(r.pg, .loose p)} + (F + R)))) := holds.rearrange (by abel)
  rw [above] at holds
  obtain ⟨m₂, removed, holds⟩ := removeEntryFromNode_inner holds order_pos seps children
  refine ⟨m₁, m₂, y, run, here, under, removed, holds.rearrange ?_⟩
  rw [cells_around, firstLeaf_plug, PageTree.join_pg, PageTree.firstLeaf_join, rest]
  abel

/-- `coalesce_nodes`, given what the call for the parent returns. -/
theorem coalesceNodes_returns {root root' nb l r : Ptr} {m₁ m₂ m₃ : Memory} (index : Option Nat) {y : Bpt.Node}
    (swap : (if index = none then (nb, q) else (q, nb)) = (r, l)) (run : coalesceInto order m l r k = .ok m₁)
    (here : m₁.node r = .ok y) (under : y.parent = p)
    (returns : Returns (fun fuel => deleteEntry order fuel m₁ root p k r) (root', m₂))
    (freed : m₂.free r = .ok m₃) :
    Returns (fun fuel => coalesceNodes order fuel m root q nb index k) (root', m₃) := by
  obtain ⟨enough, cascade⟩ := returns
  refine Returns.succ_iff.mp ⟨enough, fun fuel le => ?_⟩
  have cascade : deleteEntry order fuel m₁ root p k r = .ok (root', m₂) := cascade fuel le
  simp only [coalesceNodes, swap]
  rw [run, Exec.ok_bind, here, Exec.ok_bind, under, cascade, Exec.ok_bind]
  simp only [freed]
  rfl

/-- Two neighbours that do not fit into one node, with the left one to give ... -/
theorem shareLeft_step {pre : List (Tree h × Key)} {l s : Tree h} {post : List (Key × Tree h)} {up : Hole (h + 1)}
    (some_ : 1 ≤ l.size) (room : s.size < order - 1) (i : Nat)
    (holds : Holds order m
      (cells null null (up.plug (PageTree.branch p (Theory.Node.plug pre l ((k, s) :: post)))).2 + R)) :
    ∃ l' k' s' m', redistributeNodes order m s.pg l.pg (some i) (pagesBefore pre).length k = .ok m' ∧
      Share l k s (l.size - 1) l' k' s' ∧
      Holds order m'
        (cells null null (up.plug (PageTree.branch p (Theory.Node.plug pre l' ((k', s') :: post)))).2 + R) := by
  rw [cells_two, add_assoc, add_assoc, add_assoc] at holds
  obtain ⟨l', k', s', m', run, share, page, page', first, holds⟩ :=
    redistributeRight_spec (i := i) some_ room holds
  refine ⟨l', k', s', m', run, share, ?_⟩
  rwa [cells_two, page, page', first, add_assoc, add_assoc, add_assoc]

/-- ... or the right one. -/
theorem shareRight_step (pre : List (Tree h × Key)) {s r : Tree h} {post : List (Key × Tree h)} {up : Hole (h + 1)}
    (two : 2 ≤ r.size) (room : s.size < order - 1)
    (holds : Holds order m
      (cells null null (up.plug (PageTree.branch p (Theory.Node.plug pre s ((k, r) :: post)))).2 + R)) :
    ∃ s' k' r' m', redistributeNodes order m s.pg r.pg none (pagesBefore pre).length k = .ok m' ∧
      Share s k r (s.size + 1) s' k' r' ∧
      Holds order m'
        (cells null null (up.plug (PageTree.branch p (Theory.Node.plug pre s' ((k', r') :: post)))).2 + R) := by
  rw [cells_two, add_assoc, add_assoc, add_assoc] at holds
  obtain ⟨s', k', r', m', run, share, page, page', first, holds⟩ := redistributeLeft_spec two room holds
  refine ⟨s', k', r', m', run, share, ?_⟩
  rwa [cells_two, page, page', first, add_assoc, add_assoc, add_assoc]

/-- `delete_entry` where the node has a key too few. -/
theorem deleteEntry_few {m₀ : Memory} {root nb : Ptr} {np y : Bpt.Node} {index : Option Nat}
    (removed : removeEntryFromNode order m₀ q key pointer = .ok m) (notRoot : q ≠ root) (here : m.node q = .ok n)
    (few : ¬ n.numKeys ≥ if n.isLeaf then cut (order - 1) else cut order - 1)
    (neighbor : getNeighborIndex order m q = .ok index) (above : m.node n.parent = .ok np)
    (between : (keyArray order).read np.keys (kPrimeIndexOf index) = .ok k)
    (beside : (pointerArray order).read np.pointers (neighborSlot index) = .ok nb) (there : m.node nb = .ok y)
    (fuel : Nat) :
    deleteEntry order (fuel + 1) m₀ root q key pointer =
      if y.numKeys + n.numKeys < if n.isLeaf then order else order - 1 then
        coalesceNodes order fuel m root q nb index k
      else do
        let m ← redistributeNodes order m q nb index (kPrimeIndexOf index) k
        return (root, m) := by
  rw [deleteEntry, removed, Exec.ok_bind, if_neg notRoot, here, Exec.ok_bind]
  simp only [if_neg few]
  rw [neighbor, Exec.ok_bind, above, Exec.ok_bind, between, Exec.ok_bind, beside, Exec.ok_bind, there,
    Exec.ok_bind]

/-- Whether two neighbours fit into one node. -/
theorem capacity_iff {l r : Tree h} (tag : n.isLeaf = decide (h = 0)) (order_pos : 1 ≤ order) {keys : Nat}
    (total : keys = l.size + r.size) :
    (keys < if n.isLeaf then order else order - 1) ↔ (PageTree.join l k r).size ≤ order - 1 := by
  rw [PageTree.size_join, tag, total]
  cases h with
  | zero =>
      simp only [decide_true, if_true]
      omega
  | succ h =>
      simp only [Nat.succ_ne_zero, decide_false, Bool.false_eq_true, if_false]
      omega

section Cascade

/-! ## The cascade -/

/-- The call for a node that lost an entry returns, and what was in the hole is settled. -/
def Settled (wide : 3 ≤ order) (path : Hole h) (s : Tree h) (m₀ : Memory) (key : Key) (pointer : Ptr)
    (R : Multiset Cell) : Prop :=
  ∃ T m', Returns (fun fuel => deleteEntry order fuel m₀ (path.rootPage s.pg) s.pg key pointer) (Whole.root T, m') ∧
    Holds order m' (Whole.blocks T + R) ∧ Underflows (limits order wide) path s T

variable {wide : 3 ≤ order} {m₀ : Memory} {pre : List (Tree h × Key)} {post : List (Key × Tree h)}
  {up : Hole (h + 1)} {s : Tree h} {a : WithBot Key} {b : WithTop Key}

/-- The node in a hole below the root, as the call looks at it. -/
theorem hole_node
    (holds : Holds order m (frame (.under p pre post up) s.pg s.firstLeaf +
      (cells p (Path.under p pre post up).next s + R))) :
    ∃ n, m.node s.pg = .ok n ∧ n.parent = p ∧ n.numKeys = s.size ∧ n.isLeaf = decide (h = 0) ∧
      s.pg ≠ up.rootPage p := by
  have member : (s.pg, rootDesc p (Path.under p pre post up).next s) ∈
      frame (.under p pre post up) s.pg s.firstLeaf + (cells p (Path.under p pre post up).next s + R) := by
    simp [cells]
  obtain ⟨n, here, desc, under⟩ := node_root holds member
  obtain ⟨count, tag⟩ := root_counts desc
  obtain ⟨d, inside⟩ := frame_root p pre post up s.pg s.firstLeaf
  have holds : Holds order m ({(s.pg, rootDesc p (Path.under p pre post up).next s)} +
      (frame (.under p pre post up) s.pg s.firstLeaf + (below (Path.under p pre post up).next s + R))) := by
    apply holds.rearrange
    rw [cells]
    abel
  exact ⟨n, here, under, count, tag, holds.ne (Multiset.mem_add.mpr (.inl inside))⟩

/-- The whole tree, with the page in its hole. -/
theorem hole_tree (holds : Holds order m (frame (.under p pre post up) s.pg s.firstLeaf +
      (cells p (Path.under p pre post up).next s + R))) :
    Holds order m (cells null null (up.plug (PageTree.branch p (Theory.Node.plug pre s post))).2 + R) := by
  have whole := cells_plug (Path.under p pre post up) s
  rw [Path.plug] at whole
  exact holds.rearrange (by rw [whole, Path.parent, add_assoc])

/-- The bound that the call holds the node against. -/
theorem least_eq (wide : 3 ≤ order) (tag : n.isLeaf = decide (h = 0)) :
    (if n.isLeaf then cut (order - 1) else cut order - 1) = (limits order wide).lo h := by
  rw [tag]
  simp [limits]

/-- Two neighbours become one, and the call for the node above does the rest. -/
theorem Settled.coalesced {path : Hole h} {merged : Tree (h + 1)} {l r nb : Ptr} {m₁ : Memory} {y : Bpt.Node}
    (index : Option Nat) (above : Settled wide up merged m₁ k r ({(r, .loose p)} + R))
    (root : up.rootPage merged.pg = path.rootPage s.pg) (page : merged.pg = p)
    (opened : ∀ fuel, deleteEntry order (fuel + 1) m₀ (path.rootPage s.pg) s.pg key pointer =
      coalesceNodes order fuel m (path.rootPage s.pg) s.pg nb index k)
    (swap : (if index = none then (nb, s.pg) else (s.pg, nb)) = (r, l))
    (run : coalesceInto order m l r k = .ok m₁) (here : m₁.node r = .ok y) (under : y.parent = p)
    (settles : ∀ T, Underflows (limits order wide) up merged T → Underflows (limits order wide) path s T) :
    Settled wide path s m₀ key pointer R := by
  obtain ⟨T, m₂, returns, holds, underflows⟩ := above
  rw [root, page] at returns
  obtain ⟨m₃, freed, holds⟩ := free_spec (holds.rearrange (add_left_comm _ _ _))
  obtain ⟨enough, cascade⟩ := coalesceNodes_returns index swap run here under returns freed
  exact ⟨T, m₃, Returns.succ_iff.mp ⟨enough, fun fuel le => (opened fuel).trans (cascade fuel le)⟩, holds,
    settles T underflows⟩

/-- Two neighbours share out what they have, and the node above keeps all its keys. -/
theorem Settled.shared {path : Hole h} {pair : Tree (h + 1)} {nb : Ptr} {m₁ : Memory} (index : Option Nat)
    (root : up.rootPage pair.pg = path.rootPage s.pg)
    (opened : ∀ fuel, deleteEntry order (fuel + 1) m₀ (path.rootPage s.pg) s.pg key pointer = do
      let m ← redistributeNodes order m s.pg nb index (kPrimeIndexOf index) k
      return (path.rootPage s.pg, m))
    (run : redistributeNodes order m s.pg nb index (kPrimeIndexOf index) k = .ok m₁)
    (holds : Holds order m₁ (cells null null (up.plug pair).2 + R))
    (settles : Underflows (limits order wide) path s (some (up.plug pair))) :
    Settled wide path s m₀ key pointer R := by
  refine ⟨some (up.plug pair), m₁, Returns.of_le 1 fun fuel => ?_, holds, settles⟩
  rw [opened, run, Exec.ok_bind, Whole.root, Path.plug_pg, root]
  rfl

/-- The first child has a key too few: its right neighbour goes into it, or gives it one. -/
theorem settled_first {r : Tree h} (good : (Path.under p [] ((k, r) :: post) up).Good (limits order wide) a b)
    (ordered : PageTree.Ordered (limits order wide) a b s) (lo : (limits order wide).lo h = s.size + 1)
    (removed : removeEntryFromNode order m₀ s.pg key pointer = .ok m)
    (holds : Holds order m (frame (.under p [] ((k, r) :: post) up) s.pg s.firstLeaf +
      (cells p (Path.under p [] ((k, r) :: post) up).next s + R)))
    (above : ∀ m₁ m₂, removeEntryFromNode order m₁ p k r.pg = .ok m₂ →
      (PageTree.join s k r).size ≤ order - 1 →
      Holds order m₂ (frame up p (PageTree.branch p (Theory.Node.plug [] (PageTree.join s k r) post)).firstLeaf +
        (cells up.parent up.next (PageTree.branch p (Theory.Node.plug [] (PageTree.join s k r) post)) +
          ({(r.pg, .loose p)} + R))) →
      Settled wide up (PageTree.branch p (Theory.Node.plug [] (PageTree.join s k r) post)) m₁ k r.pg
        ({(r.pg, .loose p)} + R)) :
    Settled wide (.under p [] ((k, r) :: post) up) s m₀ key pointer R := by
  have order_pos : 1 ≤ order := by omega
  have hi : (limits order wide).hi h = order - 1 := rfl
  have lo_le := (limits order wide).lo_le h
  obtain ⟨n, here, under, count, tag, notRoot⟩ := hole_node holds
  have few : ¬ n.numKeys ≥ if n.isLeaf then cut (order - 1) else cut order - 1 := by
    rw [least_eq wide tag, count]
    omega
  have tree := hole_tree holds
  obtain ⟨np, x, y, node, inner, children, -, there, -, count'⟩ := nodes_two tree
  have reads := reads_between inner order_pos
  have opened := deleteEntry_few removed notRoot here few
    (getNeighborIndex_first here under node inner order_pos) (under.symm ▸ node) reads.1 reads.2.2 there
  have total : y.numKeys + n.numKeys = s.size + r.size := by rw [count, count', Nat.add_comm]
  have capacity := capacity_iff (k := k) tag order_pos total
  by_cases small : (PageTree.join s k r).size ≤ order - 1
  · have seps := Path.seps_nodup good ordered.apart s
    obtain ⟨m₁, m₂, z, run, here', under', removed', holds⟩ := coalesce_step order_pos small seps children tree
    refine (above m₁ m₂ removed' small holds).coalesced none rfl rfl (fun fuel => ?_) rfl run here' under'
      fun T => .mergeRight (by omega) small
    exact (opened fuel).trans (if_pos (capacity.mpr small))
  · have size := PageTree.size_join s k r
    obtain ⟨s', k', r', m', run, share, holds⟩ :=
      shareRight_step [] (by have := spare (d := r) lo (by omega); omega) (by omega) tree
    refine .shared none rfl (fun fuel => ?_) run holds (.shareRight p post up (by omega) (by omega) share)
    exact (opened fuel).trans (if_neg (mt capacity.mp small))

/-- A later child has a key too few: it goes into its left neighbour, or gets one from it. -/
theorem settled_later {l : Tree h} (good : (Path.under p (pre ++ [(l, k)]) post up).Good (limits order wide) a b)
    (ordered : PageTree.Ordered (limits order wide) a b s) (lo : (limits order wide).lo h = s.size + 1)
    (removed : removeEntryFromNode order m₀ s.pg key pointer = .ok m)
    (holds : Holds order m (frame (.under p (pre ++ [(l, k)]) post up) s.pg s.firstLeaf +
      (cells p (Path.under p (pre ++ [(l, k)]) post up).next s + R)))
    (above : ∀ m₁ m₂, removeEntryFromNode order m₁ p k s.pg = .ok m₂ →
      (PageTree.join l k s).size ≤ order - 1 →
      Holds order m₂ (frame up p (PageTree.branch p (Theory.Node.plug pre (PageTree.join l k s) post)).firstLeaf +
        (cells up.parent up.next (PageTree.branch p (Theory.Node.plug pre (PageTree.join l k s) post)) +
          ({(s.pg, .loose p)} + R))) →
      Settled wide up (PageTree.branch p (Theory.Node.plug pre (PageTree.join l k s) post)) m₁ k s.pg
        ({(s.pg, .loose p)} + R)) :
    Settled wide (.under p (pre ++ [(l, k)]) post up) s m₀ key pointer R := by
  have order_pos : 1 ≤ order := by omega
  have hi : (limits order wide).hi h = order - 1 := rfl
  have lo_le := (limits order wide).lo_le h
  obtain ⟨n, here, under, count, tag, notRoot⟩ := hole_node holds
  have few : ¬ n.numKeys ≥ if n.isLeaf then cut (order - 1) else cut order - 1 := by
    rw [least_eq wide tag, count]
    omega
  have whole := Theory.Node.plug_shift pre l k s post
  have tree := hole_tree holds
  rw [← whole] at tree
  obtain ⟨np, x, y, node, inner, children, ⟨there, -, count'⟩, -⟩ := nodes_two tree
  have reads := reads_between inner order_pos
  have opened := deleteEntry_few removed notRoot here few
    (getNeighborIndex_later here under node inner order_pos children) (under.symm ▸ node) reads.1 reads.2.1 there
  have total : x.numKeys + n.numKeys = l.size + s.size := by rw [count, count']
  have capacity := capacity_iff (k := k) tag order_pos total
  by_cases small : (PageTree.join l k s).size ≤ order - 1
  · have seps := Path.seps_nodup good ordered.apart s
    rw [← whole] at seps
    obtain ⟨m₁, m₂, z, run, here', under', removed', holds⟩ := coalesce_step order_pos small seps children tree
    refine (above m₁ m₂ removed' small holds).coalesced (some (pagesBefore pre).length) rfl rfl (fun fuel => ?_) rfl
      run here' under' fun T => .mergeLeft (by omega) small
    exact (opened fuel).trans (if_pos (capacity.mpr small))
  · have size := PageTree.size_join l k s
    obtain ⟨l', k', s', m', run, share, holds⟩ :=
      shareLeft_step (by have := spare (d := l) lo (by omega); omega) (by omega) (pagesBefore pre).length tree
    refine .shared (some (pagesBefore pre).length) rfl (fun fuel => ?_) run holds
      (.shareLeft p pre post up (by omega) (by omega) share)
    exact (opened fuel).trans (if_neg (mt capacity.mp small))

/-- A first child has a right neighbour. -/
theorem neighbor_behind (good : (Path.under p [] post up).Good (limits order wide) a b) :
    ∃ k r post', post = (k, r) :: post' := by
  obtain ⟨a', b', -, -, -, low, -⟩ := good
  have pos : 1 ≤ up.floor (limits order wide) := by
    cases up with
    | top => exact le_rfl
    | under => exact (limits order wide).pos _
  cases post with
  | nil =>
      rw [List.length_nil, List.length_nil] at low
      omega
  | cons e post => exact ⟨e.1, e.2, post, rfl⟩

/-- **A node that lost an entry.**  By induction on the path up: where the node has a key too few
and goes into its neighbour, the next round is the same for the node above. -/
theorem deleteEntry_spec (path : Hole h) {s : Tree h}
    (good : path.Good (limits order wide) a b) (ordered : PageTree.Ordered (limits order wide) a b s)
    (short : path.floor (limits order wide) ≤ s.size + 1) (fits : s.size ≤ order - 1)
    (removed : removeEntryFromNode order m₀ s.pg key pointer = .ok m)
    (holds : Holds order m (frame path s.pg s.firstLeaf + (cells path.parent path.next s + R))) :
    Settled wide path s m₀ key pointer R := by
  induction path generalizing m₀ m a b key pointer R with
  | top =>
      obtain ⟨T, m', run, holds, underflows⟩ := adjustRoot_spec wide (holds.rearrange (Multiset.zero_add _))
      refine ⟨T, m', Returns.of_le 1 fun fuel => ?_, holds, underflows⟩
      rw [deleteEntry, removed, Exec.ok_bind]
      simp only [Path.rootPage, if_true]
      exact run
  | @under h p pre post up ih =>
      by_cases enough : (limits order wide).lo h ≤ s.size
      · obtain ⟨n, here, -, count, tag, notRoot⟩ := hole_node holds
        have notRoot : s.pg ≠ (Path.under p pre post up).rootPage s.pg := notRoot
        refine ⟨some ((Path.under p pre post up).plug s), m, Returns.of_le 1 fun fuel => ?_,
          hole_tree holds, .enough p pre post up enough⟩
        rw [deleteEntry, removed, Exec.ok_bind, if_neg notRoot, here, Exec.ok_bind]
        simp only [least_eq wide tag, count, ge_iff_le, if_pos enough, Whole.root, Path.plug_pg]
        rfl
      · have lo : (limits order wide).lo h = s.size + 1 := by
          have short : (limits order wide).lo h ≤ s.size + 1 := short
          omega
        rcases pre.eq_nil_or_concat' with rfl | ⟨pre, ⟨l, k⟩, rfl⟩
        · obtain ⟨k, r, post, rfl⟩ := neighbor_behind good
          refine settled_first good ordered lo removed holds fun m₁ m₂ removed small holds => ?_
          obtain ⟨a', b', good, ordered, short, fits⟩ := Path.good_mergeRight good ordered small
          exact ih good ordered short fits removed holds
        · refine settled_later good ordered lo removed holds fun m₁ m₂ removed small holds => ?_
          obtain ⟨a', b', good, ordered, short, fits⟩ := Path.good_mergeLeft good ordered small
          exact ih good ordered short fits removed holds

end Cascade

/-! ## Deletion -/

theorem removeEntryFromNode_leaf {pre post : List Entry}
    (holds : Holds order m ({(p, .leaf parent next (pre ++ (key, pointer) :: post))} + R))
    (newKey : key ∉ pre.map Prod.fst) (newPointer : pointer ∉ pre.map Prod.snd) :
    ∃ m', removeEntryFromNode order m p key pointer = .ok m' ∧
      Holds order m' ({(p, .leaf parent next (pre ++ post))} + R) := by
  obtain ⟨n, there, leaf, up⟩ := node_leaf holds (front _ _)
  obtain ⟨n', run, leaf', same⟩ := removeEntry_leaf leaf newKey newPointer
  obtain ⟨m', set, holds⟩ := setNode_spec holds there (e := .leaf parent next (pre ++ post)) ⟨leaf', same.trans up⟩
  refine ⟨m', ?_, holds⟩
  rw [removeEntryFromNode, there, Exec.ok_bind, run, Exec.ok_bind, set]

/-- The first round: the entry is taken out of the leaf, its record stays for now. -/
theorem removeEntry_step (path : Hole 0) {s : Tree 0} {value : Int32}
    (found : (s.recs.find? fun r => r.1 = key) = some (key, pointer, value))
    (holds : Holds order m (frame path s.pg s.firstLeaf + (cells path.parent path.next s + R))) :
    ∃ m', removeEntryFromNode order m s.pg key pointer = .ok m' ∧
      Holds order m' (frame path s.pg s.pg + (cells path.parent path.next (PageTree.eraseRecord key s) +
        ({(pointer, .record value)} + R))) := by
  obtain ⟨-, pre, post, split, earlier⟩ := List.find?_eq_some_iff_append.mp found
  have newKey : key ∉ pre.map Prod.fst := by
    intro member
    obtain ⟨r, inside, same⟩ := List.mem_map.mp member
    simpa [same] using earlier r inside
  have place : s.recs.findIdx (fun r => r.1 = key) = pre.length := by
    have index := Theory.Node.findIdx_append_cons newKey (post.map Prod.fst)
    rw [← List.map_cons (f := Prod.fst) (a := (key, pointer, value)), ← List.map_append, ← split, List.findIdx_map,
      List.length_map] at index
    exact index
  have rest : (PageTree.eraseRecord key s).recs = pre ++ post := by
    rw [PageTree.eraseRecord, PageTree.recs_leaf, place, split, eraseIdx_append_cons]
  have holds : Holds order m ({(pointer, .record value)} +
      ({(s.pg, .leaf path.parent path.next (pre.map entry ++ (key, pointer) :: post.map entry))} +
        (recordCells pre + (recordCells post + (frame path s.pg s.pg + R))))) := by
    apply holds.rearrange
    rw [cells, rootDesc, below_zero, split, recordCells_append, recordCells_cons, List.map_append, List.map_cons]
    simp only [PageTree.firstLeaf, entry]
    abel
  have newPointer : pointer ∉ (pre.map entry).map Prod.snd := by
    intro member
    obtain ⟨e, inside, same⟩ := List.mem_map.mp member
    obtain ⟨r, before, rfl⟩ := List.mem_map.mp inside
    have there : (r.2.1, Desc.record r.2.2) ∈ recordCells pre :=
      Multiset.mem_coe.mpr (List.mem_map.mpr ⟨r, before, rfl⟩)
    exact holds.ne (Multiset.mem_add.mpr (.inr (Multiset.mem_add.mpr (.inl there)))) same.symm
  have newKey : key ∉ (pre.map entry).map Prod.fst := by
    rw [List.map_map]
    exact newKey
  obtain ⟨m', removed, holds⟩ :=
    removeEntryFromNode_leaf (holds.rearrange (add_left_comm _ _ _)) newKey newPointer
  refine ⟨m', removed, holds.rearrange ?_⟩
  rw [cells, rootDesc, below_zero, rest, recordCells_append, List.map_append]
  simp only [PageTree.eraseRecord, PageTree.pg_leaf]
  abel

variable {wide : 3 ≤ order} {root : Ptr} {T : Whole}

/-- The search ends in some leaf. -/
theorem Stored.findLeaf_returns (stored : Stored order wide m root T R) (key : Key) :
    ∃ keyLeaf, ∀ fuel, T.levels ≤ fuel → findLeaf order m fuel root key = .ok keyLeaf := by
  cases T with
  | none => exact ⟨null, fun fuel _ => by rw [stored.root]; rfl⟩
  | some t =>
      refine ⟨(t.2.leafFor key).pg, fun fuel enough => ?_⟩
      rw [stored.root]
      exact findLeaf_spec stored.holds (Multiset.le_add_right _ _) (by omega) key enough

/-- A key that is stored goes, and its record after it. -/
theorem Stored.delete_held {s : Tree h} (stored : Stored order wide m root (some ⟨h, s⟩) R) {value : Int32}
    (looked : Whole.item (some ⟨h, s⟩) key = some (key, pointer, value)) :
    ∃ m' T', Returns (fun fuel => Bpt.delete order fuel m root key) (Whole.root T', m') ∧
      Stored order wide m' (Whole.root T') T' R ∧
      (Whole.items (some ⟨h, s⟩)).Perm ((key, pointer, value) :: Whole.items T') := by
  have valid := stored.valid ⟨h, s⟩ rfl
  have inLeaf : ((s.leafFor key).recs.find? fun r => r.1 = key) = some (key, pointer, value) :=
    (valid.find?_leafFor key).trans looked
  obtain ⟨m₁, removed, holds⟩ := removeEntry_step (Path.walk key s .top).1 inLeaf
    (stored.holds.rearrange (by rw [Whole.blocks, cells_walk key s, add_assoc]))
  obtain ⟨a, b, good, ordered, short, fits⟩ := valid.lost inLeaf
  obtain ⟨T', m₂, ⟨enough, cascade⟩, holds, underflows⟩ := deleteEntry_spec _ good ordered short fits removed holds
  obtain ⟨m₃, freed, holds⟩ := free_spec (holds.rearrange (add_left_comm _ _ _))
  obtain ⟨valid', perm⟩ := underflows.delete valid inLeaf
  refine ⟨m₃, T', ⟨max enough (h + 1), fun fuel le => ?_⟩, ⟨rfl, holds, valid'⟩, perm⟩
  have levels : Whole.levels (some ⟨h, s⟩) ≤ fuel := (le_max_right enough (h + 1)).trans le
  have leaf := findLeaf_spec stored.holds (Multiset.le_add_right _ _) (by omega) key levels
  have pointerNonNull : pointer ≠ null := by
    have member : (key, pointer, value) ∈ s.records := List.mem_of_find?_eq_some looked
    exact (stored.record member).1
  have leafNonNull : (s.leafFor key).pg ≠ null := by
    apply ne_null stored.holds
    rw [Whole.blocks, cells_walk key s, cells]
    simp only [Multiset.mem_add, Multiset.mem_singleton]
    exact .inl (.inr (.inl rfl))
  have cascade : deleteEntry order fuel m ((Path.walk key s .top).1.rootPage (s.leafFor key).pg) (s.leafFor key).pg
      key pointer = .ok (T'.root, m₂) := cascade fuel ((le_max_left _ _).trans le)
  rw [Path.walk_rootPage] at cascade
  show Bpt.delete order fuel m root key = _
  rw [Bpt.delete, stored.find key levels, Exec.ok_bind, stored.root, Whole.root, leaf, Exec.ok_bind, looked]
  simp only [Option.map_some, Option.getD_some]
  rw [if_pos ⟨pointerNonNull, leafNonNull⟩, cascade, Exec.ok_bind]
  simp only [freed]
  rfl

/-- **`delete`**: the key goes and its record is freed; an absent key changes nothing; no other
record moves. -/
theorem Stored.delete (stored : Stored order wide m root T R) (key : Key) :
    ∃ root' m' T', Returns (fun fuel => Bpt.delete order fuel m root key) (root', m') ∧
      Stored order wide m' root' T' R ∧
      if key ∈ T.items.map Prod.fst then ∃ r, r.1 = key ∧ T.items.Perm (r :: T'.items)
      else root' = root ∧ m' = m ∧ T' = T := by
  by_cases held : key ∈ T.items.map Prod.fst
  · simp only [if_pos held]
    cases T with
    | none => exact absurd held List.not_mem_nil
    | some t =>
        have nonNull := mt (stored.pointer_eq_null key).mp (not_not_intro held)
        cases looked : Whole.item (some t) key with
        | none => simp [looked] at nonNull
        | some r =>
            obtain ⟨key', pointer, value⟩ := r
            obtain rfl : key' = key := by simpa using List.find?_some looked
            obtain ⟨m', T', run, stored', perm⟩ := stored.delete_held looked
            exact ⟨_, m', T', run, stored', _, rfl, perm⟩
  · simp only [if_neg held]
    have isNull := (stored.pointer_eq_null key).mpr held
    obtain ⟨keyLeaf, leaf⟩ := stored.findLeaf_returns key
    refine ⟨root, m, T, ⟨T.levels, fun fuel enough => ?_⟩, stored, rfl, rfl, rfl⟩
    show Bpt.delete order fuel m root key = _
    rw [Bpt.delete, stored.find key enough, Exec.ok_bind, leaf fuel enough, Exec.ok_bind, isNull,
      if_neg fun both => both.1 rfl]
    rfl

end SimpleDatabase.InMemory
