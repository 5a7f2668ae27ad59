/- InMemory.Neighbors -- coalescing and redistributing two neighbours in memory

The functions of the source get a node and its neighbour; here they are the left one and the
right one of two neighbours under the node at `p`, with the key `k` between them.  After
coalescing, the right one is still allocated, for `delete_entry` has yet to take it out of its
parent.  Redistributing is cutting what both hold at another place (`Theory.Share`).
-/
import SimpleDatabase.InMemory.Stored

namespace SimpleDatabase.InMemory

open SimpleDatabase.Theory SimpleDatabase.Bpt

set_option autoImplicit false

variable {order h : Nat} {m : Memory} {R : Multiset Cell} {p parent next : Ptr} {k : Key}

/-! ## Coalescing -/

theorem mergeLeaf_step {l r : Tree 0} (order_pos : 1 ≤ order) (fits : (PageTree.join l k r).size ≤ order - 1)
    (holds : Holds order m (cells p r.firstLeaf l + (cells p next r + R))) :
    ∃ m', coalesceInto order m l.pg r.pg k = .ok m' ∧
      Holds order m' (cells p next (PageTree.join l k r) + ({(r.pg, .loose p)} + R)) := by
  obtain ⟨A, left⟩ : ∃ A, A = recordCells l.recs := ⟨_, rfl⟩
  obtain ⟨B, right⟩ : ∃ B, B = recordCells r.recs := ⟨_, rfl⟩
  rw [PageTree.size_join, if_pos rfl] at fits
  have holds : Holds order m ({(l.pg, .leaf p r.pg (l.recs.map entry))} +
      ({(r.pg, .leaf p next (r.recs.map entry))} + (A + (B + R)))) := by
    apply holds.rearrange
    simp only [cells, rootDesc, below_zero, left, right, PageTree.firstLeaf]
    ac_rfl
  obtain ⟨nb, there, leaf, up⟩ := node_leaf holds (front _ _)
  have second : (r.pg, Desc.leaf p next (r.recs.map entry)) ∈ ({(l.pg, .leaf p r.pg (l.recs.map entry))} +
      ({(r.pg, .leaf p next (r.recs.map entry))} + (A + (B + R))) : Multiset Cell) := by simp
  obtain ⟨n, there', leaf', up'⟩ := node_leaf holds second
  obtain ⟨nb', run, merged, same⟩ := mergeLeaves_spec leaf leaf' order_pos (by
    rw [List.length_map, List.length_map]
    exact fits)
  rw [← List.map_append] at merged
  obtain ⟨m', set, holds⟩ := setNode_spec holds there (e := .leaf p next ((l.recs ++ r.recs).map entry))
    ⟨merged, same.trans up⟩
  refine ⟨m', ?_, ?_⟩
  · rw [coalesceInto, there', Exec.ok_bind, there, Exec.ok_bind, if_pos leaf'.tag, run, Exec.ok_bind, set]
  · have holds := (holds.rearrange (add_left_comm _ _ _)).describe (e := .loose p) (by
      intro b fits
      cases b with
      | record x => exact fits.elim
      | node x => exact fits.2)
    apply holds.rearrange
    have joined : cells p next (PageTree.join l k r) =
        {(l.pg, .leaf p next ((l.recs ++ r.recs).map entry))} + recordCells (l.recs ++ r.recs) := rfl
    rw [joined, recordCells_append, ← left, ← right]
    ac_rfl

theorem mergeNode_step {l r : Tree (h + 1)} (order_pos : 1 ≤ order)
    (fits : (PageTree.join l k r).size ≤ order - 1)
    (holds : Holds order m (cells p r.firstLeaf l + (cells p next r + R))) :
    ∃ m', coalesceInto order m l.pg r.pg k = .ok m' ∧
      Holds order m' (cells p next (PageTree.join l k r) + ({(r.pg, .loose p)} + R)) := by
  obtain ⟨A, left⟩ : ∃ A, A = chain (cells l.pg) r.firstLeaf l.root.children := ⟨_, rfl⟩
  obtain ⟨B, right⟩ : ∃ B, B = chain (cells r.pg) next r.root.children := ⟨_, rfl⟩
  rw [PageTree.size_join, if_neg (Nat.succ_ne_zero h)] at fits
  have holds : Holds order m ({(l.pg, .inner p (l.root.map Paged.pg))} +
      ({(r.pg, .inner p (r.root.map Paged.pg))} + (A + (B + R)))) := by
    apply holds.rearrange
    simp only [cells, rootDesc, below_succ, left, right]
    ac_rfl
  obtain ⟨nb, there, inner, up⟩ := node_inner holds (front _ _)
  have second : (r.pg, Desc.inner p (r.root.map Paged.pg)) ∈ ({(l.pg, .inner p (l.root.map Paged.pg))} +
      ({(r.pg, .inner p (r.root.map Paged.pg))} + (A + (B + R))) : Multiset Cell) := by simp
  obtain ⟨n, there', inner', up'⟩ := node_inner holds second
  obtain ⟨nb', n', run, merged, same, same'⟩ := mergeNodes_spec inner inner' k (by
    rw [Theory.Node.size_map, Theory.Node.size_map]
    exact fits)
  rw [← Theory.Node.map_join] at merged
  obtain ⟨m₁, set, holds⟩ := setNode_spec holds there
    (e := .inner p ((Theory.Node.join l.root k r.root).map Paged.pg)) ⟨merged, same.trans up⟩
  have holds := holds.rearrange (add_left_comm _ _ _)
  obtain ⟨n₁, there₁, -⟩ := node_inner holds (front _ _)
  have loose : Fits order (.node n') (.loose p) := same'.trans up'
  obtain ⟨m₂, set', holds⟩ := setNode_spec holds there₁ loose
  -- all children of the merged node: those it had, ...
  have count := merged.count
  have width := merged.size_lt order_pos
  rw [Theory.Node.size_map, Theory.Node.size_join] at count width
  have children := Theory.Node.children_join l.root k r.root
  have listed : ∀ j (inside : j < (l.root.children ++ r.root.children).length),
      nb'.pointers j = (l.root.children ++ r.root.children)[j].pg := by
    intro j inside
    rw [merged.pointer_at (by rw [Theory.Node.children_map, List.length_map, children]; exact inside)]
    simp only [Theory.Node.children_map, children, List.getElem_map]
  obtain ⟨P, looseCell⟩ : ∃ P, P = ({(r.pg, .loose p)} : Multiset Cell) := ⟨_, rfl⟩
  obtain ⟨Q, mergedCell⟩ : ∃ Q, Q = ({(l.pg, .inner p ((Theory.Node.join l.root k r.root).map Paged.pg))} :
    Multiset Cell) := ⟨_, rfl⟩
  rw [← looseCell, ← mergedCell] at holds
  have holds : Holds order m₂ (chain (cells l.pg) r.firstLeaf l.root.children + (B + (P + (Q + R)))) :=
    holds.rearrange (by rw [← left]; ac_rfl)
  obtain ⟨m₃, adopt, holds⟩ := adoptChildren_spec (i := 0) (q := l.pg) (n := nb') holds
    (by rw [Theory.Node.children_length]; omega) (by
      intro j inside
      rw [Nat.zero_add, listed j (by rw [List.length_append]; omega), List.getElem_append_left inside])
  -- ... and those it got
  rw [← left] at holds
  have holds : Holds order m₃ (chain (cells r.pg) next r.root.children + (A + (P + (Q + R)))) :=
    holds.rearrange (by rw [← right]; ac_rfl)
  obtain ⟨m₄, adopt', holds⟩ := adoptChildren_spec (i := 0 + l.root.children.length) (q := l.pg) (n := nb') holds
    (by rw [Theory.Node.children_length, Theory.Node.children_length]; omega) (by
      intro j inside
      rw [Nat.zero_add, listed _ (by rw [List.length_append]; omega), List.getElem_append_right (Nat.le_add_right _ _)]
      simp only [Nat.add_sub_cancel_left])
  refine ⟨m₄, ?_, ?_⟩
  · have rounds : nb'.numKeys + 1 = l.root.children.length + r.root.children.length := by
      rw [count, Theory.Node.children_length, Theory.Node.children_length]
      omega
    rw [coalesceInto, there', Exec.ok_bind, there, Exec.ok_bind, if_neg (by rw [inner'.tag]; decide), run,
      Exec.ok_bind]
    simp only [set, set', Exec.ok_bind]
    rw [rounds, adoptChildren_add, adopt, Exec.ok_bind, adopt']
  · apply holds.rearrange
    have joined : cells p next (PageTree.join l k r) =
        {(l.pg, .inner p ((Theory.Node.join l.root k r.root).map Paged.pg))} +
          chain (cells l.pg) next (Theory.Node.join l.root k r.root).children := rfl
    have first : (r.root.children.map PageTree.firstLeaf).headD next = r.firstLeaf := rfl
    rw [joined, children, chain_append, first, ← left, looseCell, mergedCell]
    ac_rfl

/-- **Coalescing**: the right one's entries go into the left one. -/
theorem coalesceInto_spec {l r : Tree h} (order_pos : 1 ≤ order) (fits : (PageTree.join l k r).size ≤ order - 1)
    (holds : Holds order m (cells p r.firstLeaf l + (cells p next r + R))) :
    ∃ m', coalesceInto order m l.pg r.pg k = .ok m' ∧
      Holds order m' (cells p next (PageTree.join l k r) + ({(r.pg, .loose p)} + R)) := by
  cases h with
  | zero => exact mergeLeaf_step order_pos fits holds
  | succ h => exact mergeNode_step order_pos fits holds

/-! ## Redistributing -/

variable {pre : List (Ptr × Key)} {c d : Ptr} {post : List (Key × Ptr)}

/-- Another key between two children. -/
theorem innerNode_setKey {n : Bpt.Node} (inner : InnerNode order n (Theory.Node.plug pre c ((k, d) :: post)))
    (k' : Key) :
    InnerNode order { n with keys := Function.update n.keys pre.length k' }
      (Theory.Node.plug pre c ((k', d) :: post)) := by
  have size : (Theory.Node.plug pre c ((k', d) :: post)).size = (Theory.Node.plug pre c ((k, d) :: post)).size := by
    rw [Theory.Node.size_plug, Theory.Node.size_plug]
    rfl
  refine ⟨inner.tag, size ▸ inner.fits, inner.count.trans size.symm, ?_, ?_⟩
  · show shown (Function.update n.keys pre.length k') _ = _
    rw [size, shown_update, inner.keys, Theory.Node.seps_plug, Theory.Node.seps_plug, List.map_cons, List.map_cons,
      List.set_append_right _ _ (by simp), List.length_map, Nat.sub_self, List.set_cons_zero]
  · rw [size]
    refine inner.pointers.trans ?_
    rw [Theory.Node.children_plug, Theory.Node.children_plug]
    rfl

theorem setParentKey_spec {q : Ptr} {x : Bpt.Node}
    (holds : Holds order m ({(p, .inner parent (Theory.Node.plug pre c ((k, d) :: post)))} + R))
    (there : m.node q = .ok x) (under : x.parent = p) (k' : Key) :
    ∃ m', setParentKey order m q pre.length k' = .ok m' ∧
      Holds order m' ({(p, .inner parent (Theory.Node.plug pre c ((k', d) :: post)))} + R) := by
  obtain ⟨n, there', inner, up⟩ := node_inner holds (front _ _)
  have inside : pre.length < order - 1 := by
    have fits := inner.fits
    rw [Theory.Node.size_plug, List.length_cons] at fits
    omega
  obtain ⟨m', set, holds⟩ := setNode_spec holds there'
    (e := .inner parent (Theory.Node.plug pre c ((k', d) :: post))) ⟨innerNode_setKey inner k', up⟩
  refine ⟨m', ?_, holds⟩
  rw [setParentKey, there, Exec.ok_bind, under, there', Exec.ok_bind, write_array _ _ inside, Exec.ok_bind, set]

/-- The last entry of the left leaf goes to the right one. -/
theorem leafRight_step {l s : Tree 0} {i : Nat} (some_ : 1 ≤ l.size) (room : s.size < order - 1)
    (holds : Holds order m ({(p, .inner parent (Theory.Node.plug pre l.pg ((k, s.pg) :: post)))} +
      (cells p s.firstLeaf l + (cells p next s + R)))) :
    ∃ l' k' s' m', redistributeNodes order m s.pg l.pg (some i) pre.length k = .ok m' ∧
      Share l k s (l.size - 1) l' k' s' ∧ l'.pg = l.pg ∧ s'.pg = s.pg ∧ l'.firstLeaf = l.firstLeaf ∧
      Holds order m' ({(p, .inner parent (Theory.Node.plug pre l.pg ((k', s.pg) :: post)))} +
        (cells p s'.firstLeaf l' + (cells p next s' + R))) := by
  obtain ⟨recs, e, last⟩ : ∃ recs e, l.recs = recs ++ [e] := by
    have nonempty : l.recs ≠ [] := List.length_pos_iff.mp some_
    exact ⟨_, _, (List.dropLast_concat_getLast nonempty).symm⟩
  obtain ⟨A, left⟩ : ∃ A, A = recordCells recs := ⟨_, rfl⟩
  obtain ⟨B, right⟩ : ∃ B, B = recordCells s.recs := ⟨_, rfl⟩
  obtain ⟨P, above⟩ : ∃ P, P = ({(p, .inner parent (Theory.Node.plug pre l.pg ((k, s.pg) :: post)))} :
    Multiset Cell) := ⟨_, rfl⟩
  have holds : Holds order m ({(s.pg, .leaf p next (s.recs.map entry))} +
      ({(l.pg, .leaf p s.pg ((recs ++ [e]).map entry))} + (recordCells [e] + (A + (B + (P + R)))))) := by
    apply holds.rearrange
    simp only [cells, rootDesc, below_zero, last, recordCells_append, left, right, above, PageTree.firstLeaf]
    ac_rfl
  obtain ⟨n, there, leaf, up⟩ := node_leaf holds (front _ _)
  obtain ⟨nb, there', leaf', up'⟩ := node_leaf holds (Multiset.mem_add.mpr (.inr (front _ _)))
  rw [List.map_append] at leaf'
  obtain ⟨n', nb', run, second, first, same, same'⟩ :=
    rotateLeafRight_spec leaf' leaf (by rw [List.length_map]; exact room)
  obtain ⟨m₁, m₂, set, set', holds⟩ := setTwo_spec holds there there'
    (f := .leaf p next ((e :: s.recs).map entry)) (g := .leaf p s.pg (recs.map entry))
    ⟨second, same.trans up⟩ ⟨first, same'.trans up'⟩
  have holds : Holds order m₂ (P + ({(s.pg, .leaf p next ((e :: s.recs).map entry))} +
      ({(l.pg, .leaf p s.pg (recs.map entry))} + (recordCells [e] + (A + (B + R)))))) :=
    holds.rearrange (by ac_rfl)
  obtain ⟨x, here, -, under⟩ := node_leaf holds (Multiset.mem_add.mpr (.inr (front _ _)))
  rw [above] at holds
  obtain ⟨m₃, set'', holds⟩ := setParentKey_spec holds here under e.1
  refine ⟨PageTree.leaf l.pg recs, e.1, PageTree.leaf s.pg (e :: s.recs), m₃, ?_, ⟨?_, ?_, fun _ => ?_⟩, rfl, rfl, rfl,
    holds.rearrange ?_⟩
  · rw [redistributeNodes, there, Exec.ok_bind, there', Exec.ok_bind]
    simp only [leaf.tag, if_true, run, Exec.ok_bind, set, set']
    exact set''
  · rw [PageTree.join, PageTree.join, last, List.append_assoc]
    rfl
  · show recs.length = l.recs.length - 1
    rw [last, List.length_append, List.length_singleton, Nat.add_sub_cancel]
  · simp [PageTree.keys, PageTree.records_zero]
  · have items := recordCells_append [e] s.recs
    rw [List.singleton_append] at items
    simp only [cells, rootDesc, below_zero, PageTree.firstLeaf, PageTree.pg_leaf, PageTree.recs_leaf, items, left,
      right]
    ac_rfl

/-- The last child of the left node goes to the right one. -/
theorem nodeRight_step {l s : Tree (h + 1)} {i : Nat} (some_ : 1 ≤ l.size) (room : s.size < order - 1)
    (holds : Holds order m ({(p, .inner parent (Theory.Node.plug pre l.pg ((k, s.pg) :: post)))} +
      (cells p s.firstLeaf l + (cells p next s + R)))) :
    ∃ l' k' s' m', redistributeNodes order m s.pg l.pg (some i) pre.length k = .ok m' ∧
      Share l k s (l.size - 1) l' k' s' ∧ l'.pg = l.pg ∧ s'.pg = s.pg ∧ l'.firstLeaf = l.firstLeaf ∧
      Holds order m' ({(p, .inner parent (Theory.Node.plug pre l.pg ((k', s.pg) :: post)))} +
        (cells p s'.firstLeaf l' + (cells p next s' + R))) := by
  obtain ⟨rest, k', c, last, width⟩ := Theory.Node.exists_last (n := l.root) some_
  obtain ⟨A, left⟩ : ∃ A, A = chain (cells l.pg) c.firstLeaf rest.children := ⟨_, rfl⟩
  obtain ⟨B, right⟩ : ∃ B, B = chain (cells s.pg) next s.root.children := ⟨_, rfl⟩
  obtain ⟨P, above⟩ : ∃ P, P = ({(p, .inner parent (Theory.Node.plug pre l.pg ((k, s.pg) :: post)))} :
    Multiset Cell) := ⟨_, rfl⟩
  have children : chain (cells l.pg) s.firstLeaf l.root.children = A + cells l.pg s.firstLeaf c := by
    rw [last, Theory.Node.children_join, chain_append, left]
    exact congrArg _ (add_zero _)
  have holds : Holds order m ({(s.pg, .inner p (s.root.map Paged.pg))} +
      ({(l.pg, .inner p (l.root.map Paged.pg))} + (cells l.pg s.firstLeaf c + (A + (B + (P + R)))))) := by
    apply holds.rearrange
    rw [← above, cells, cells, below_succ, below_succ, children, rootDesc, rootDesc, right]
    ac_rfl
  obtain ⟨n, there, inner, up⟩ := node_inner holds (front _ _)
  obtain ⟨nb, there', inner', up'⟩ := node_inner holds (Multiset.mem_add.mpr (.inr (front _ _)))
  rw [last, Theory.Node.map_join] at inner'
  obtain ⟨n', nb', run, second, first, moved, same, same'⟩ :=
    rotateNodeRight_spec (c := c.pg) inner' inner k (by rw [Theory.Node.size_map]; exact room)
  obtain ⟨m₁, m₂, set, set', holds⟩ := setTwo_spec holds there there'
    (f := .inner p ((Theory.Node.join ⟨c, []⟩ k s.root).map Paged.pg)) (g := .inner p (rest.map Paged.pg))
    ⟨by rw [Theory.Node.map_join]; exact second, same.trans up⟩ ⟨first, same'.trans up'⟩
  obtain ⟨L, leftCell⟩ : ∃ L, L = ({(l.pg, .inner p (rest.map Paged.pg))} : Multiset Cell) := ⟨_, rfl⟩
  have holds : Holds order m₂ (cells l.pg s.firstLeaf c +
      ({(s.pg, .inner p ((Theory.Node.join ⟨c, []⟩ k s.root).map Paged.pg))} + (L + (A + (B + (P + R)))))) :=
    holds.rearrange (by rw [← leftCell]; ac_rfl)
  obtain ⟨m₃, adopt, holds⟩ := setParent_spec holds s.pg
  have holds : Holds order m₃ (P + ({(s.pg, .inner p ((Theory.Node.join ⟨c, []⟩ k s.root).map Paged.pg))} +
      (cells s.pg s.firstLeaf c + (L + (A + (B + R)))))) := holds.rearrange (by ac_rfl)
  obtain ⟨x, here, -, under⟩ := node_inner holds (Multiset.mem_add.mpr (.inr (front _ _)))
  rw [above] at holds
  obtain ⟨m₄, set'', holds⟩ := setParentKey_spec holds here under k'
  refine ⟨PageTree.branch l.pg rest, k', PageTree.branch s.pg (Theory.Node.join ⟨c, []⟩ k s.root), m₄, ?_,
    ⟨?_, width, fun zero => absurd zero (Nat.succ_ne_zero h)⟩, rfl, rfl, ?_, holds.rearrange ?_⟩
  · have fits := inner.fits
    rw [redistributeNodes, there, Exec.ok_bind, there', Exec.ok_bind]
    simp only [inner.tag, Bool.false_eq_true, if_false, run, Exec.ok_bind, set, set']
    rw [read_array _ (by omega), Exec.ok_bind, moved, adopt, Exec.ok_bind, set'']
  · rw [PageTree.join, last, Theory.Node.join_assoc]
    rfl
  · rw [PageTree.firstLeaf, PageTree.firstLeaf, last]
    rfl
  · have rightCells : chain (cells s.pg) next (Theory.Node.join ⟨c, []⟩ k s.root).children =
        cells s.pg s.firstLeaf c + B := by
      rw [Theory.Node.children_join, right]
      rfl
    have firstOf : (PageTree.branch s.pg (Theory.Node.join ⟨c, []⟩ k s.root)).firstLeaf = c.firstLeaf := rfl
    rw [cells_branch, cells_branch, rightCells, firstOf, ← left, leftCell]
    abel

/-- The first entry of the right leaf goes to the left one. -/
theorem leafLeft_step {s r : Tree 0} (two : 2 ≤ r.size) (room : s.size < order - 1)
    (holds : Holds order m ({(p, .inner parent (Theory.Node.plug pre s.pg ((k, r.pg) :: post)))} +
      (cells p r.firstLeaf s + (cells p next r + R)))) :
    ∃ s' k' r' m', redistributeNodes order m s.pg r.pg none pre.length k = .ok m' ∧
      Share s k r (s.size + 1) s' k' r' ∧ s'.pg = s.pg ∧ r'.pg = r.pg ∧ s'.firstLeaf = s.firstLeaf ∧
      Holds order m' ({(p, .inner parent (Theory.Node.plug pre s.pg ((k', r.pg) :: post)))} +
        (cells p r'.firstLeaf s' + (cells p next r' + R))) := by
  obtain ⟨e, f, rest, first⟩ : ∃ e f rest, r.recs = e :: f :: rest := by
    have two : 2 ≤ r.recs.length := two
    match same : r.recs with
    | [] => simp [same] at two
    | [_] => simp [same] at two
    | e :: f :: rest => exact ⟨e, f, rest, rfl⟩
  obtain ⟨A, left⟩ : ∃ A, A = recordCells s.recs := ⟨_, rfl⟩
  obtain ⟨B, right⟩ : ∃ B, B = recordCells (f :: rest) := ⟨_, rfl⟩
  obtain ⟨P, above⟩ : ∃ P, P = ({(p, .inner parent (Theory.Node.plug pre s.pg ((k, r.pg) :: post)))} :
    Multiset Cell) := ⟨_, rfl⟩
  have items : recordCells (e :: f :: rest) = recordCells [e] + B := by
    rw [right]
    exact recordCells_append [e] (f :: rest)
  have holds : Holds order m ({(s.pg, .leaf p r.pg (s.recs.map entry))} +
      ({(r.pg, .leaf p next ((e :: f :: rest).map entry))} + (recordCells [e] + (A + (B + (P + R)))))) := by
    apply holds.rearrange
    simp only [cells, rootDesc, below_zero, first, items, left, above, PageTree.firstLeaf]
    abel
  obtain ⟨n, there, leaf, up⟩ := node_leaf holds (front _ _)
  obtain ⟨nb, there', leaf', up'⟩ := node_leaf holds (Multiset.mem_add.mpr (.inr (front _ _)))
  obtain ⟨n', nb', run, wider, shorter, same, same'⟩ :=
    rotateLeafLeft_spec leaf leaf' (by rw [List.length_map]; exact room)
  obtain ⟨m₁, m₂, set, set', holds⟩ := setTwo_spec holds there there'
    (f := .leaf p r.pg ((s.recs ++ [e]).map entry)) (g := .leaf p next ((f :: rest).map entry))
    ⟨by rw [List.map_append]; exact wider, same.trans up⟩ ⟨shorter, same'.trans up'⟩
  have holds : Holds order m₂ (P + ({(s.pg, .leaf p r.pg ((s.recs ++ [e]).map entry))} +
      ({(r.pg, .leaf p next ((f :: rest).map entry))} + (recordCells [e] + (A + (B + R)))))) :=
    holds.rearrange (by abel)
  obtain ⟨x, here, -, under⟩ := node_leaf holds (Multiset.mem_add.mpr (.inr (front _ _)))
  rw [above] at holds
  obtain ⟨m₃, set'', holds⟩ := setParentKey_spec holds here under f.1
  refine ⟨PageTree.leaf s.pg (s.recs ++ [e]), f.1, PageTree.leaf r.pg (f :: rest), m₃, ?_, ⟨?_, ?_, fun _ => ?_⟩, rfl,
    rfl, rfl, holds.rearrange ?_⟩
  · rw [redistributeNodes, there, Exec.ok_bind, there', Exec.ok_bind]
    simp only [leaf.tag, if_true, run, Exec.ok_bind, set, set']
    exact set''
  · rw [PageTree.join, PageTree.join, first, PageTree.recs_leaf, PageTree.recs_leaf, List.append_assoc]
    rfl
  · show (s.recs ++ [e]).length = s.recs.length + 1
    rw [List.length_append, List.length_singleton]
  · simp [PageTree.keys, PageTree.records_zero]
  · simp only [cells, rootDesc, below_zero, PageTree.firstLeaf, PageTree.pg_leaf, PageTree.recs_leaf,
      recordCells_append, left, right]
    abel

/-- The first child of the right node goes to the left one. -/
theorem nodeLeft_step {s r : Tree (h + 1)} (some_ : 1 ≤ r.size) (room : s.size < order - 1)
    (holds : Holds order m ({(p, .inner parent (Theory.Node.plug pre s.pg ((k, r.pg) :: post)))} +
      (cells p r.firstLeaf s + (cells p next r + R)))) :
    ∃ s' k' r' m', redistributeNodes order m s.pg r.pg none pre.length k = .ok m' ∧
      Share s k r (s.size + 1) s' k' r' ∧ s'.pg = s.pg ∧ r'.pg = r.pg ∧ s'.firstLeaf = s.firstLeaf ∧
      Holds order m' ({(p, .inner parent (Theory.Node.plug pre s.pg ((k', r.pg) :: post)))} +
        (cells p r'.firstLeaf s' + (cells p next r' + R))) := by
  obtain ⟨c, k', rest, first⟩ := Theory.Node.exists_first (n := r.root) some_
  obtain ⟨A, left⟩ : ∃ A, A = chain (cells s.pg) r.firstLeaf s.root.children := ⟨_, rfl⟩
  obtain ⟨B, right⟩ : ∃ B, B = chain (cells r.pg) next rest.children := ⟨_, rfl⟩
  obtain ⟨P, above⟩ : ∃ P, P = ({(p, .inner parent (Theory.Node.plug pre s.pg ((k, r.pg) :: post)))} :
    Multiset Cell) := ⟨_, rfl⟩
  have start : r.firstLeaf = c.firstLeaf := by
    rw [PageTree.firstLeaf, first]
    rfl
  have children : chain (cells r.pg) next r.root.children = cells r.pg rest.left.firstLeaf c + B := by
    rw [first, Theory.Node.children_join, right]
    rfl
  have holds : Holds order m ({(s.pg, .inner p (s.root.map Paged.pg))} +
      ({(r.pg, .inner p (r.root.map Paged.pg))} + (cells r.pg rest.left.firstLeaf c + (A + (B + (P + R)))))) := by
    apply holds.rearrange
    rw [← above, cells, cells, below_succ, below_succ, children, rootDesc, rootDesc, left]
    abel
  obtain ⟨n, there, inner, up⟩ := node_inner holds (front _ _)
  obtain ⟨nb, there', inner', up'⟩ := node_inner holds (Multiset.mem_add.mpr (.inr (front _ _)))
  rw [first, Theory.Node.map_join] at inner'
  obtain ⟨n', nb', run, wider, shorter, moved, same, same'⟩ :=
    rotateNodeLeft_spec (c := c.pg) inner inner' k (by rw [Theory.Node.size_map]; exact room)
  obtain ⟨m₁, m₂, set, set', holds⟩ := setTwo_spec holds there there'
    (f := .inner p ((Theory.Node.join s.root k ⟨c, []⟩).map Paged.pg)) (g := .inner p (rest.map Paged.pg))
    ⟨by rw [Theory.Node.map_join]; exact wider, same.trans up⟩ ⟨shorter, same'.trans up'⟩
  have holds : Holds order m₂ (cells r.pg rest.left.firstLeaf c +
      ({(s.pg, .inner p ((Theory.Node.join s.root k ⟨c, []⟩).map Paged.pg))} +
        ({(r.pg, .inner p (rest.map Paged.pg))} + (A + (B + (P + R)))))) := holds.rearrange (by abel)
  obtain ⟨m₃, adopt, holds⟩ := setParent_spec holds s.pg
  have holds : Holds order m₃ (P + ({(s.pg, .inner p ((Theory.Node.join s.root k ⟨c, []⟩).map Paged.pg))} +
      ({(r.pg, .inner p (rest.map Paged.pg))} + (cells s.pg rest.left.firstLeaf c + (A + (B + R)))))) :=
    holds.rearrange (by abel)
  obtain ⟨x, here, -, under⟩ := node_inner holds (Multiset.mem_add.mpr (.inr (front _ _)))
  rw [above] at holds
  obtain ⟨m₄, set'', holds⟩ := setParentKey_spec holds here under k'
  refine ⟨PageTree.branch s.pg (Theory.Node.join s.root k ⟨c, []⟩), k', PageTree.branch r.pg rest, m₄, ?_,
    ⟨?_, ?_, fun zero => absurd zero (Nat.succ_ne_zero h)⟩, rfl, rfl, rfl, holds.rearrange ?_⟩
  · have fits := wider.size_lt (by omega)
    rw [← wider.count] at fits
    rw [redistributeNodes, there, Exec.ok_bind, there', Exec.ok_bind]
    simp only [inner.tag, Bool.false_eq_true, if_false, run, Exec.ok_bind, set, set']
    rw [read_array _ (by omega), Exec.ok_bind, moved, adopt, Exec.ok_bind, set'']
  · rw [PageTree.join, first, ← Theory.Node.join_assoc]
    rfl
  · exact Theory.Node.size_join _ _ _
  · have leftCells : chain (cells s.pg) rest.left.firstLeaf (Theory.Node.join s.root k ⟨c, []⟩).children =
        A + cells s.pg rest.left.firstLeaf c := by
      rw [Theory.Node.children_join, chain_append, left, start]
      exact congrArg _ (add_zero _)
    have firstOf : (PageTree.branch r.pg rest).firstLeaf = rest.left.firstLeaf := rfl
    rw [cells_branch, cells_branch, firstOf, leftCells, ← right]
    abel

/-- **Redistributing** from the left, ... -/
theorem redistributeRight_spec {l s : Tree h} {i : Nat} (some_ : 1 ≤ l.size) (room : s.size < order - 1)
    (holds : Holds order m ({(p, .inner parent (Theory.Node.plug pre l.pg ((k, s.pg) :: post)))} +
      (cells p s.firstLeaf l + (cells p next s + R)))) :
    ∃ l' k' s' m', redistributeNodes order m s.pg l.pg (some i) pre.length k = .ok m' ∧
      Share l k s (l.size - 1) l' k' s' ∧ l'.pg = l.pg ∧ s'.pg = s.pg ∧ l'.firstLeaf = l.firstLeaf ∧
      Holds order m' ({(p, .inner parent (Theory.Node.plug pre l.pg ((k', s.pg) :: post)))} +
        (cells p s'.firstLeaf l' + (cells p next s' + R))) := by
  cases h with
  | zero => exact leafRight_step some_ room holds
  | succ h => exact nodeRight_step some_ room holds

/-- ... and from the right. -/
theorem redistributeLeft_spec {s r : Tree h} (two : 2 ≤ r.size) (room : s.size < order - 1)
    (holds : Holds order m ({(p, .inner parent (Theory.Node.plug pre s.pg ((k, r.pg) :: post)))} +
      (cells p r.firstLeaf s + (cells p next r + R)))) :
    ∃ s' k' r' m', redistributeNodes order m s.pg r.pg none pre.length k = .ok m' ∧
      Share s k r (s.size + 1) s' k' r' ∧ s'.pg = s.pg ∧ r'.pg = r.pg ∧ s'.firstLeaf = s.firstLeaf ∧
      Holds order m' ({(p, .inner parent (Theory.Node.plug pre s.pg ((k', r.pg) :: post)))} +
        (cells p r'.firstLeaf s' + (cells p next r' + R))) := by
  cases h with
  | zero => exact leafLeft_step two room holds
  | succ h => exact nodeLeft_step (Nat.le_of_succ_le two) room holds

end SimpleDatabase.InMemory
