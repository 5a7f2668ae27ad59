/- InMemory.LevelOrder -- `print_tree` goes through a tree level by level

The queue is linked through the `next` fields of the nodes, which nothing else uses: whatever is
queued, the tree stays what it is.  A level is a list of trees with the places they have
(`Placed`); while it is printed, the queue is what is left of it and, behind that, the children of
what has been printed.  A line ends where `path_to_root` of a first child is not that of the node
printed before: at the first node of each level, and nowhere else.
-/
import SimpleDatabase.InMemory.Output
import SimpleDatabase.Theory.Links

namespace SimpleDatabase.InMemory

open SimpleDatabase.Theory SimpleDatabase.Bpt

set_option autoImplicit false

variable {order h : Nat} {m : Memory} {F : Multiset Cell} {p q : Ptr} {ps : List Ptr} {verbose : Bool}

/-! ## The queue -/

/-- `n->next` -/
def nextOf (m : Memory) (p : Ptr) : Ptr :=
  match m.block p with
  | some (.node n) => n.next
  | _ => null

/-- A block that is a node. -/
def IsNode (F : Multiset Cell) (p : Ptr) : Prop := ∃ d, (p, d) ∈ F ∧ ∀ value, d ≠ .record value

theorem Memory.block_of_node {n : Bpt.Node} (there : m.node p = .ok n) : m.block p = some (.node n) := by
  rw [Memory.node] at there
  split at there
  · next same => rw [same, Except.ok.inj there]
  · cases there

theorem nextOf_of_node {n : Bpt.Node} (there : m.node p = .ok n) : nextOf m p = n.next := by
  rw [nextOf, Memory.block_of_node there]

/-- The queue is no part of what is known of a node. -/
theorem Fits.requeue {n : Bpt.Node} {d : Desc} (fits : Fits order (.node n) d) (next : Ptr) :
    Fits order (.node { n with next }) d := by
  cases d with
  | record value => exact fits
  | leaf parent after recs =>
      exact ⟨⟨fits.1.tag, fits.1.fits, fits.1.count, fits.1.keys, fits.1.pointers, fits.1.next⟩, fits.2⟩
  | inner parent nd => exact ⟨⟨fits.1.tag, fits.1.fits, fits.1.count, fits.1.keys, fits.1.pointers⟩, fits.2⟩
  | loose parent => exact fits

theorem isNode_there (holds : Holds order m F) (node : IsNode F p) :
    ∃ n d, m.node p = .ok n ∧ (p, d) ∈ F ∧ Fits order (.node n) d := by
  obtain ⟨d, member, other⟩ := node
  obtain ⟨b, there, fits⟩ := holds.get_of_mem member
  cases b with
  | node n => exact ⟨n, d, Memory.node_of_block there, member, fits⟩
  | record r =>
      cases d with
      | record value => exact absurd rfl (other value)
      | _ => exact fits.elim

theorem isNode_ne_null (holds : Holds order m F) (node : IsNode F p) : p ≠ null := by
  obtain ⟨d, member, -⟩ := node
  exact ne_null holds member

theorem setNext_spec (holds : Holds order m F) (node : IsNode F p) (next : Ptr) :
    ∃ m', setNext m p next = .ok m' ∧ Holds order m' F ∧ nextOf m' = Function.update (nextOf m) p next := by
  obtain ⟨n, d, there, member, fits⟩ := isNode_there holds node
  obtain ⟨rest, rfl⟩ := Multiset.exists_cons_of_mem member
  rw [← Multiset.singleton_add] at holds ⊢
  obtain ⟨m', set, holds'⟩ := setNode_spec holds there (fits.requeue next)
  have nonNull := ne_null holds (front _ _)
  have block : m' = m.put p (.node { n with next }) := by
    rw [Memory.setNode, there] at set
    exact (Except.ok.inj set).symm
  refine ⟨m', by rw [setNext, there, Exec.ok_bind, set], holds', ?_⟩
  funext x
  rw [nextOf, block, m.block_put nonNull]
  by_cases here : x = p
  · subst here
    simp
  · rw [Function.update_of_ne here, Function.update_of_ne here, nextOf]

theorem lastInQueue_spec (holds : Holds order m F) (nodes : ∀ x ∈ ps ++ [p], IsNode F x)
    (chain : Chain (nextOf m) q (ps ++ [p])) {fuel : Nat} (enough : ps.length < fuel) :
    lastInQueue m fuel q = .ok p := by
  induction ps generalizing q fuel with
  | nil =>
      obtain ⟨fuel, rfl⟩ := Nat.exists_eq_add_of_le' (Nat.one_le_of_lt enough)
      obtain ⟨n, -, there, -⟩ := isNode_there holds (nodes p (by simp))
      have start : q = p := chain.head_eq
      subst start
      have last : n.next = null := (nextOf_of_node there).symm.trans chain.linked.1
      rw [lastInQueue, there, Exec.ok_bind, if_neg (not_not_intro last)]
      rfl
  | cons x ps ih =>
      obtain ⟨fuel, rfl⟩ := Nat.exists_eq_add_of_le' (Nat.one_le_of_lt enough)
      obtain ⟨n, -, there, -⟩ := isNode_there holds (nodes x (by simp))
      have start : q = x := chain.head_eq
      subst start
      have rest := chain.tail
      have more : nextOf m q ≠ null := by
        intro none_
        rw [none_] at rest
        simpa using rest.eq_nil
      rw [nextOf_of_node there] at rest more
      rw [lastInQueue, there, Exec.ok_bind, if_pos more]
      exact ih (fun y later => nodes y (List.mem_cons_of_mem q later)) rest (by simpa using enough)

/-- **`enqueue`** puts the node behind all that are queued. -/
theorem enqueue_spec (holds : Holds order m F) (nodes : ∀ x ∈ ps ++ [p], IsNode F x)
    (chain : Chain (nextOf m) q ps) (distinct : (ps ++ [p]).Nodup) :
    ∃ q' m', (∀ fuel, ps.length < fuel → enqueue fuel p q m = .ok (q', m')) ∧ Holds order m' F ∧
      Chain (nextOf m') q' (ps ++ [p]) := by
  have node : IsNode F p := nodes p (by simp)
  have nonNull := isNode_ne_null holds node
  rcases List.eq_nil_or_concat ps with rfl | ⟨init, last, rfl⟩
  · have isNull : q = null := chain.head_eq
    subst isNull
    obtain ⟨m', set, holds', next⟩ := setNext_spec holds node null
    refine ⟨p, m', fun fuel _ => ?_, holds', ?_⟩
    · rw [enqueue, if_pos rfl, set]
      rfl
    · rw [next]
      exact Chain.single _ nonNull
  · rw [List.concat_eq_append] at nodes chain distinct ⊢
    have queued : ∀ x ∈ init ++ [last], IsNode F x := fun x member => nodes x (List.mem_append_left _ member)
    have some_ : q ≠ null := by
      rintro rfl
      simpa using chain.eq_nil
    obtain ⟨m₁, first, holds₁, next₁⟩ := setNext_spec holds (queued last (by simp)) p
    obtain ⟨m₂, second, holds₂, next₂⟩ := setNext_spec holds₁ node null
    refine ⟨q, m₂, fun fuel enough => ?_, holds₂, ?_⟩
    · rw [enqueue, if_neg some_, lastInQueue_spec holds queued chain (by simp at enough; omega), Exec.ok_bind, first,
        Exec.ok_bind, second]
      rfl
    · rw [next₂, next₁]
      exact chain.snoc distinct nonNull

/-- **`dequeue`** takes the first node. -/
theorem dequeue_spec (holds : Holds order m F) (node : IsNode F p) (chain : Chain (nextOf m) q (p :: ps))
    (distinct : (p :: ps).Nodup) :
    ∃ q' m', dequeue q m = .ok (p, q', m') ∧ Holds order m' F ∧ Chain (nextOf m') q' ps := by
  obtain ⟨n, -, there, -⟩ := isNode_there holds node
  have start : q = p := chain.head_eq
  subst start
  obtain ⟨m', set, holds', next⟩ := setNext_spec holds node null
  refine ⟨n.next, m', by rw [dequeue, there, Exec.ok_bind, set]; rfl, holds', ?_⟩
  rw [next, ← nextOf_of_node there]
  exact chain.behind distinct

/-- The loop over a node's children. -/
theorem enqueueChildren_spec {n : Bpt.Node} {i : Nat} {cs : List Ptr} (holds : Holds order m F)
    (nodes : ∀ x ∈ ps ++ cs, IsNode F x) (chain : Chain (nextOf m) q ps) (distinct : (ps ++ cs).Nodup)
    (fits : i + cs.length ≤ order) (listed : ∀ j (inside : j < cs.length), n.pointers (i + j) = cs[j]) :
    ∃ q' m', (∀ fuel, ps.length + cs.length ≤ fuel → enqueueChildren order fuel n i cs.length q m = .ok (q', m')) ∧
      Holds order m' F ∧ Chain (nextOf m') q' (ps ++ cs) := by
  induction cs generalizing i ps q m with
  | nil => exact ⟨q, m, fun _ _ => rfl, holds, by rwa [List.append_nil]⟩
  | cons c cs ih =>
      rw [List.length_cons] at fits
      have front : (ps ++ [c]) ++ cs = ps ++ c :: cs := by simp
      have queued : ∀ x ∈ ps ++ [c], IsNode F x := fun x member =>
        nodes x (front ▸ List.mem_append_left cs member)
      have apart : (ps ++ [c]).Nodup := (front ▸ distinct).of_append_left
      obtain ⟨q₁, m₁, first, holds₁, chain₁⟩ := enqueue_spec holds queued chain apart
      obtain ⟨q₂, m₂, rest, holds₂, chain₂⟩ :=
        ih (i := i + 1) holds₁ (front.symm ▸ nodes) chain₁ (front.symm ▸ distinct)
        (by omega) (by
          intro j inside
          rw [Nat.add_right_comm]
          exact listed (j + 1) (Nat.succ_lt_succ inside))
      have child : n.pointers i = c := listed 0 (Nat.succ_pos _)
      refine ⟨q₂, m₂, fun fuel enough => ?_, holds₂, front ▸ chain₂⟩
      rw [List.length_cons] at enough
      rw [List.length_cons, enqueueChildren, read_array _ (by omega), Exec.ok_bind, child, first fuel (by omega),
        Exec.ok_bind]
      exact rest fuel (by rw [List.length_append, List.length_singleton]; omega)

/-! ## Levels -/

/-- A tree below the node `parent`; `next` is the leaf behind its last one. -/
structure Placed (h : Nat) where
  parent : Ptr
  next : Ptr
  tree : Tree h

/-- The blocks of trees. -/
def levelCells (xs : List (Placed h)) : Multiset Cell := (xs.map fun x => cells x.parent x.next x.tree).sum

/-- Where the roots are. -/
def levelPages (xs : List (Placed h)) : List Ptr := xs.map fun x => x.tree.pg

/-- Neighbours below one node. -/
def placedUnder (parent next : Ptr) : List (Tree h) → List (Placed h)
  | [] => []
  | c :: cs => ⟨parent, (cs.map PageTree.firstLeaf).headD next, c⟩ :: placedUnder parent next cs

/-- The children of the root. -/
def Placed.kids : {h : Nat} → Placed h → List (Placed (h - 1))
  | 0, _ => []
  | _ + 1, x => placedUnder x.tree.pg x.next x.tree.root.children

theorem levelCells_cons (x : Placed h) (xs : List (Placed h)) :
    levelCells (x :: xs) = cells x.parent x.next x.tree + levelCells xs := by simp [levelCells]

theorem levelCells_append (xs ys : List (Placed h)) : levelCells (xs ++ ys) = levelCells xs + levelCells ys := by
  simp [levelCells]

theorem levelCells_placedUnder (parent next : Ptr) (cs : List (Tree h)) :
    levelCells (placedUnder parent next cs) = chain (cells parent) next cs := by
  induction cs with
  | nil => rfl
  | cons c cs ih => rw [placedUnder, levelCells_cons, ih, chain]

theorem levelPages_placedUnder (parent next : Ptr) (cs : List (Tree h)) :
    levelPages (placedUnder parent next cs) = cs.map Paged.pg := by
  induction cs with
  | nil => rfl
  | cons c cs ih => exact congrArg (List.cons c.pg) ih

theorem cells_kids (x : Placed h) :
    {(x.tree.pg, rootDesc x.parent x.next x.tree)} + levelCells x.kids ≤ cells x.parent x.next x.tree := by
  cases h with
  | zero =>
      rw [cells]
      exact Multiset.le_add_right _ _
  | succ h =>
      refine le_of_eq ?_
      rw [cells, below_succ]
      exact congrArg _ (levelCells_placedUnder _ _ _)

/-- A root is replaced by its children. -/
theorem levelCells_step {x : Placed h} {xs : List (Placed h)} {ys : List (Placed (h - 1))}
    (inside : levelCells (x :: xs) + levelCells ys ≤ F) : levelCells xs + levelCells (ys ++ x.kids) ≤ F := by
  refine le_trans ?_ inside
  have kids : levelCells x.kids ≤ cells x.parent x.next x.tree := (Multiset.le_add_left _ _).trans (cells_kids x)
  calc levelCells xs + levelCells (ys ++ x.kids) = levelCells x.kids + levelCells xs + levelCells ys := by
        rw [levelCells_append]
        abel
    _ ≤ levelCells (x :: xs) + levelCells ys := by
        rw [levelCells_cons]
        exact add_le_add_left (add_le_add_left kids _) _

theorem levelPages_le (xs : List (Placed h)) :
    ((levelPages xs : List Ptr) : Multiset Ptr) ≤ (levelCells xs).map Prod.fst := by
  induction xs with
  | nil => exact Multiset.zero_le _
  | cons x xs ih =>
      rw [levelCells_cons, Multiset.map_add, cells, Multiset.map_add, levelPages, List.map_cons, ← Multiset.cons_coe,
        ← Multiset.singleton_add]
      exact add_le_add (Multiset.le_add_right _ _) ih

section Queued

variable {h' : Nat} {xs : List (Placed h)} {ys : List (Placed h')}

theorem pages_le (inside : levelCells xs + levelCells ys ≤ F) :
    ((levelPages xs ++ levelPages ys : List Ptr) : Multiset Ptr) ≤ F.map Prod.fst := by
  refine le_trans ?_ (Multiset.map_le_map inside)
  rw [← Multiset.coe_add, Multiset.map_add]
  exact add_le_add (levelPages_le xs) (levelPages_le ys)

theorem pages_distinct (holds : Holds order m F) (inside : levelCells xs + levelCells ys ≤ F) :
    (levelPages xs ++ levelPages ys).Nodup :=
  Multiset.coe_nodup.mp (Multiset.nodup_of_le (pages_le inside) holds.nodup)

theorem pages_length (inside : levelCells xs + levelCells ys ≤ F) :
    (levelPages xs).length + (levelPages ys).length ≤ F.card := by
  simpa using Multiset.card_le_card (pages_le inside)

theorem rootDesc_node (parent next : Ptr) (s : Tree h) (value : Int32) : rootDesc parent next s ≠ .record value := by
  cases h <;> exact nofun

theorem placed_mem {x : Placed h} (member : x ∈ xs) :
    (x.tree.pg, rootDesc x.parent x.next x.tree) ∈ levelCells xs := by
  obtain ⟨before, after, rfl⟩ := List.append_of_mem member
  rw [levelCells_append, levelCells_cons, Multiset.mem_add, Multiset.mem_add]
  exact .inr (.inl (root_mem x.tree))

theorem pages_nodes (inside : levelCells xs + levelCells ys ≤ F) :
    ∀ p ∈ levelPages xs ++ levelPages ys, IsNode F p := by
  intro p member
  rcases List.mem_append.mp member with first | second
  · obtain ⟨x, there, rfl⟩ := List.mem_map.mp first
    exact ⟨_, Multiset.mem_of_le inside (Multiset.mem_add.mpr (.inl (placed_mem there))), rootDesc_node _ _ _⟩
  · obtain ⟨x, there, rfl⟩ := List.mem_map.mp second
    exact ⟨_, Multiset.mem_of_le inside (Multiset.mem_add.mpr (.inr (placed_mem there))), rootDesc_node _ _ _⟩

end Queued

/-! ## One node -/

/-- The entries of the root that are printed. -/
def Placed.entries : {h : Nat} → Placed h → List Entry
  | 0, x => x.tree.recs.map entry
  | _ + 1, x => childEntries (x.tree.root.map Paged.pg)

/-- The root's last pointer. -/
def Placed.lastPointer : {h : Nat} → Placed h → Ptr
  | 0, x => x.next
  | _ + 1, x => (x.tree.root.map Paged.pg).children.getLastD null

/-- What is printed of the root. -/
def Placed.text (verbose : Bool) (x : Placed h) : Output :=
  (if verbose then ["(" ++ hexadecimal x.tree.pg ++ ")"] else []) ++ keysText verbose x.entries ++
    pointerText verbose x.lastPointer ++ ["| "]

section Node

variable {n : Bpt.Node} {x : Placed h}

theorem Placed.print (fits : Fits order (.node n) (rootDesc x.parent x.next x.tree)) (order_pos : 1 ≤ order)
    (verbose : Bool) :
    printKeys order verbose n 0 n.numKeys = .ok (keysText verbose x.entries) ∧
      printPointer order verbose n (if n.isLeaf then order - 1 else n.numKeys) =
        .ok (pointerText verbose x.lastPointer) := by
  cases h with
  | zero =>
      obtain ⟨leaf, -⟩ := fits
      refine ⟨leaf.printKeys verbose, ?_⟩
      rw [if_pos leaf.tag, printPointer_eq (by omega), leaf.next]
      rfl
  | succ h =>
      obtain ⟨inner, -⟩ := fits
      have size := inner.size_lt order_pos
      have count := inner.count
      have length := Theory.Node.children_length (x.tree.root.map Paged.pg)
      have inside := Nat.lt_of_lt_of_eq (Nat.lt_succ_self _) length.symm
      have last : n.pointers (x.tree.root.map Paged.pg).size = x.lastPointer := by
        rw [inner.pointer_at inside, Placed.lastPointer, List.getLastD_eq_getLast?, List.getLast?_eq_getElem?,
          Nat.sub_eq_of_eq_add length, List.getElem?_eq_getElem inside, Option.getD_some]
      refine ⟨inner.printKeys verbose, ?_⟩
      rw [if_neg (by rw [inner.tag]; decide), printPointer_eq (by omega), count, last]

theorem Placed.enqueueKids_spec (fits : Fits order (.node n) (rootDesc x.parent x.next x.tree)) (order_pos : 1 ≤ order)
    (holds : Holds order m F) (nodes : ∀ p ∈ ps ++ levelPages x.kids, IsNode F p) (chain : Chain (nextOf m) q ps)
    (distinct : (ps ++ levelPages x.kids).Nodup) :
    ∃ q' m', (∀ fuel, ps.length + (levelPages x.kids).length ≤ fuel →
        enqueueKids order fuel n q m = .ok (q', m')) ∧
      Holds order m' F ∧ Chain (nextOf m') q' (ps ++ levelPages x.kids) := by
  cases h with
  | zero =>
      obtain ⟨leaf, -⟩ := fits
      exact ⟨q, m, fun _ _ => if_pos leaf.tag, holds, (List.append_nil ps).symm ▸ chain⟩
  | succ h =>
      obtain ⟨inner, -⟩ := fits
      have size := inner.size_lt order_pos
      have pages : levelPages x.kids = (x.tree.root.map Paged.pg).children := by
        rw [Theory.Node.children_map]
        exact levelPages_placedUnder _ _ _
      have count : n.numKeys + 1 = (levelPages x.kids).length := by
        rw [inner.count, pages, Theory.Node.children_length]
      obtain ⟨q', m', run, holds', chain'⟩ := enqueueChildren_spec (n := n) (i := 0) holds nodes chain distinct
        (by rw [← count, inner.count]; omega) (by
        intro j inside
        rw [zero_add, inner.pointer_at (by rw [← pages]; exact inside)]
        simp only [pages])
      refine ⟨q', m', fun fuel enough => ?_, holds', chain'⟩
      rw [enqueueKids, if_neg (by rw [inner.tag]; decide), count]
      exact run fuel enough

end Node

/-! ## Ranks -/

/-- The node `p`, with the parent `q`, is so many levels below the root. -/
inductive Rank (F : Multiset Cell) (root : Ptr) : Ptr → Ptr → Nat → Prop
  | top : Rank F root root null 0
  | down {p q parent : Ptr} {nd : Theory.Node Key Ptr} {d : Nat} (above : Rank F root q parent d)
      (inside : (q, .inner parent nd) ∈ F) (other : p ≠ root) : Rank F root p q (d + 1)

section Ranks

variable {root : Ptr} {d inner : Nat} {n : Bpt.Node}

theorem pathToRoot_spec (holds : Holds order m F) (rank : Rank F root p q d) (there : m.node p = .ok n)
    (up : n.parent = q) {fuel : Nat} (enough : d < fuel) : pathToRoot m root fuel p = .ok d := by
  induction rank generalizing n fuel with
  | top =>
      obtain ⟨fuel, rfl⟩ := Nat.exists_eq_add_of_le' enough
      rw [pathToRoot, if_pos rfl]
  | down above inside other ih =>
      obtain ⟨fuel, rfl⟩ := Nat.exists_eq_add_of_le' (Nat.one_le_of_lt enough)
      obtain ⟨n', there', -, up'⟩ := node_inner holds inside
      rw [pathToRoot, if_neg other, there, Exec.ok_bind, up, ih there' up' (Nat.lt_of_succ_lt_succ enough)]
      rfl

/-- The line goes on where the rank stays the same. -/
theorem newRank_same (holds : Holds order m F) (order_pos : 1 ≤ order) (rank : Rank F root p q d)
    (there : m.node p = .ok n) (up : n.parent = q) (enough : d < inner) :
    newRank order m inner root p n d = .ok (d, []) := by
  have path := pathToRoot_spec holds rank there up enough
  cases rank with
  | top => rw [newRank, if_pos up]; rfl
  | down above inside other =>
      obtain ⟨n', there', -, -⟩ := node_inner holds inside
      have nonNull : n.parent ≠ null := up ▸ ne_null holds inside
      rw [newRank, if_neg nonNull, up, there', Exec.ok_bind, read_array _ (by omega), Exec.ok_bind, path]
      split
      · rw [Exec.ok_bind, if_neg (not_not_intro rfl)]
        rfl
      · rfl

/-- It ends before a first child one level further down. -/
theorem newRank_next {nd : Theory.Node Key Ptr} {parent : Ptr} (holds : Holds order m F) (order_pos : 1 ≤ order)
    (rank : Rank F root p q (d + 1)) (inside : (q, .inner parent nd) ∈ F) (first : p = nd.left)
    (there : m.node p = .ok n) (up : n.parent = q) (enough : d + 1 < inner) :
    newRank order m inner root p n d = .ok (d + 1, ["\n"]) := by
  have path := pathToRoot_spec holds rank there up enough
  obtain ⟨n', there', node, -⟩ := node_inner holds inside
  have nonNull : n.parent ≠ null := up ▸ ne_null holds inside
  have left : n'.pointers 0 = nd.left := node.pointer_at (i := 0) (Nat.succ_pos _)
  rw [newRank, if_neg nonNull, up, there', Exec.ok_bind, read_array _ (by omega), Exec.ok_bind, left, if_pos first,
    path, Exec.ok_bind, if_pos (Nat.succ_ne_self d)]
  rfl

end Ranks

/-! ## The loop -/

section Loop

variable {root : Ptr} {bound : Nat} {xs : List (Placed h)} {ys : List (Placed (h - 1))}

/-- One round: `rank` and `lineBreak` are what the round finds. -/
theorem printTreeLoop_round (verbose : Bool) {x : Placed h} (holds : Holds order m F) (order_pos : 1 ≤ order)
    (large : F.card ≤ bound) (inside : levelCells (x :: xs) + levelCells ys ≤ F)
    (chain : Chain (nextOf m) q (levelPages (x :: xs) ++ levelPages ys)) {old rank : Nat} {lineBreak : Output}
    (ranked : ∀ m' n inner, Holds order m' F → m'.node x.tree.pg = .ok n → n.parent = x.parent → bound < inner →
      newRank order m' inner root x.tree.pg n old = .ok (rank, lineBreak)) :
    ∃ q' m', (∀ inner fuel, bound < inner → printTreeLoop order verbose inner root (fuel + 1) q old m =
        printTreeLoop order verbose inner root fuel q' rank m' >>= fun r =>
          pure (lineBreak ++ x.text verbose ++ r.1, r.2)) ∧
      Holds order m' F ∧ Chain (nextOf m') q' (levelPages xs ++ levelPages (ys ++ x.kids)) := by
  have later := levelCells_step inside
  have nodes := pages_nodes inside
  obtain ⟨q₁, m₁, taken, holds₁, chain₁⟩ := dequeue_spec holds (nodes x.tree.pg (by simp [levelPages])) chain
    (pages_distinct holds inside)
  have root_ : (x.tree.pg, rootDesc x.parent x.next x.tree) ∈ F :=
    Multiset.mem_of_le inside (Multiset.mem_add.mpr (.inl (placed_mem List.mem_cons_self)))
  obtain ⟨n, there, fits, up⟩ := node_root holds₁ root_
  obtain ⟨keys, last⟩ := Placed.print fits order_pos verbose
  have pages : levelPages xs ++ levelPages (ys ++ x.kids) = (levelPages xs ++ levelPages ys) ++ levelPages x.kids := by
    simp [levelPages]
  obtain ⟨q₂, m₂, queued, holds₂, chain₂⟩ :=
    Placed.enqueueKids_spec fits order_pos holds₁ (pages ▸ pages_nodes later) chain₁
    (pages ▸ pages_distinct holds later)
  have count := pages_length later
  refine ⟨q₂, m₂, fun inner fuel enough => ?_, holds₂, pages ▸ chain₂⟩
  have nonNull : q ≠ null := by
    rw [show q = x.tree.pg from chain.head_eq]
    exact ne_null holds root_
  have room : (levelPages xs ++ levelPages ys).length + (levelPages x.kids).length ≤ inner := by
    rw [← List.length_append, ← pages, List.length_append]
    omega
  rw [printTreeLoop, if_neg nonNull, taken, Exec.ok_bind]
  simp only
  rw [there, Exec.ok_bind, ranked m₁ n inner holds₁ there up enough, Exec.ok_bind]
  simp only
  rw [keys, Exec.ok_bind, queued inner room, Exec.ok_bind, last, Exec.ok_bind]
  simp [Placed.text, List.append_assoc]

/-- The rest of a level. -/
theorem printTreeLoop_level (verbose : Bool) {d : Nat} (holds : Holds order m F) (order_pos : 1 ≤ order)
    (large : F.card ≤ bound) (inside : levelCells xs + levelCells ys ≤ F)
    (chain : Chain (nextOf m) q (levelPages xs ++ levelPages ys))
    (ranks : ∀ x ∈ xs, Rank F root x.tree.pg x.parent d) (shallow : d ≤ bound) :
    ∃ q' m', (∀ inner fuel, bound < inner → printTreeLoop order verbose inner root (fuel + xs.length) q d m =
        printTreeLoop order verbose inner root fuel q' d m' >>= fun r =>
          pure (xs.flatMap (Placed.text verbose) ++ r.1, r.2)) ∧
      Holds order m' F ∧ Chain (nextOf m') q' (levelPages (ys ++ xs.flatMap Placed.kids)) ∧
      levelCells (ys ++ xs.flatMap Placed.kids) ≤ F := by
  induction xs generalizing ys q m with
  | nil =>
      refine ⟨q, m, fun inner fuel _ => ?_, holds, ?_, ?_⟩
      · simp only [List.length_nil, Nat.add_zero, List.flatMap_nil, List.nil_append]
        exact (bind_pure _).symm
      · simpa [levelPages] using chain
      · simpa [levelCells] using inside
  | cons x xs ih =>
      have same := fun m' n inner (holds' : Holds order m' F) there up (enough : bound < inner) =>
        newRank_same (n := n) holds' order_pos (ranks x List.mem_cons_self) there up (shallow.trans_lt enough)
      obtain ⟨q₁, m₁, first, holds₁, chain₁⟩ := printTreeLoop_round verbose holds order_pos large inside chain same
      obtain ⟨q₂, m₂, rest, holds₂, chain₂, inside₂⟩ := ih holds₁ (levelCells_step inside) chain₁
        fun y later => ranks y (List.mem_cons_of_mem x later)
      rw [List.append_assoc, ← List.flatMap_cons] at chain₂ inside₂
      refine ⟨q₂, m₂, fun inner fuel enough => ?_, holds₂, chain₂, inside₂⟩
      rw [List.length_cons, ← Nat.add_assoc, first inner _ enough, rest inner fuel enough]
      simp [List.append_assoc]

/-- A level, from its first node on. -/
theorem printTreeLoop_line (verbose : Bool) {x : Placed h} {d : Nat} (holds : Holds order m F) (order_pos : 1 ≤ order)
    (large : F.card ≤ bound) (inside : levelCells (x :: xs) ≤ F)
    (chain : Chain (nextOf m) q (levelPages (x :: xs)))
    {old : Nat} {lineBreak : Output} (ranks : ∀ y ∈ x :: xs, Rank F root y.tree.pg y.parent d) (shallow : d ≤ bound)
    (ranked : ∀ m' n inner, Holds order m' F → m'.node x.tree.pg = .ok n → n.parent = x.parent → bound < inner →
      newRank order m' inner root x.tree.pg n old = .ok (d, lineBreak)) :
    ∃ q' m', (∀ inner fuel, bound < inner → printTreeLoop order verbose inner root (fuel + (xs.length + 1)) q old m =
        printTreeLoop order verbose inner root fuel q' d m' >>= fun r =>
          pure (lineBreak ++ (x :: xs).flatMap (Placed.text verbose) ++ r.1, r.2)) ∧
      Holds order m' F ∧ Chain (nextOf m') q' (levelPages ((x :: xs).flatMap Placed.kids)) ∧
      levelCells ((x :: xs).flatMap Placed.kids) ≤ F := by
  have inside₀ : levelCells (x :: xs) + levelCells ([] : List (Placed (h - 1))) ≤ F := by
    simpa [levelCells] using inside
  obtain ⟨q₁, m₁, first, holds₁, chain₁⟩ := printTreeLoop_round verbose holds order_pos large inside₀
    (by simpa [levelPages] using chain) ranked
  obtain ⟨q₂, m₂, rest, holds₂, chain₂, inside₂⟩ := printTreeLoop_level verbose holds₁ order_pos large
    (levelCells_step inside₀) chain₁ (fun y later => ranks y (List.mem_cons_of_mem x later)) shallow
  rw [List.nil_append, ← List.flatMap_cons] at chain₂ inside₂
  refine ⟨q₂, m₂, fun inner fuel enough => ?_, holds₂, chain₂, inside₂⟩
  rw [← Nat.add_assoc, first inner _ enough, rest inner fuel enough]
  simp [List.append_assoc]

end Loop

/-! ## All levels -/

/-- Level after level, a line each. -/
def levelsText (verbose : Bool) : {h : Nat} → List (Placed h) → Output
  | 0, xs => xs.flatMap (Placed.text verbose)
  | _ + 1, xs => xs.flatMap (Placed.text verbose) ++ "\n" :: levelsText verbose (xs.flatMap Placed.kids)

section Levels

variable {root : Ptr} {bound : Nat}

/-- Only the root has no parent. -/
theorem ne_root {H : Nat} {s : Tree H} {next : Ptr} (holds : Holds order m F) (top : (root, rootDesc null next s) ∈ F)
    (here : root = s.pg) {x : Placed h} (member : (x.tree.pg, rootDesc x.parent x.next x.tree) ∈ F)
    (nonNull : x.parent ≠ null) : x.tree.pg ≠ root := by
  intro same
  subst here
  obtain ⟨n, there, -, up⟩ := node_root holds top
  obtain ⟨n', there', -, up'⟩ := node_root holds member
  rw [same, there] at there'
  cases there'
  exact nonNull (up'.symm.trans up)

theorem kids_parent (x : Placed (h + 1)) : ∀ y ∈ x.kids, y.parent = x.tree.pg := by
  have under : ∀ (next : Ptr) (cs : List (Tree h)), ∀ y ∈ placedUnder x.tree.pg next cs, y.parent = x.tree.pg := by
    intro next cs
    induction cs with
    | nil => exact nofun
    | cons c cs ih =>
        intro y member
        rcases List.mem_cons.mp member with rfl | later
        · rfl
        · exact ih y later
  exact under _ _

/-- The first child. -/
theorem kids_cons (x : Placed (h + 1)) :
    ∃ y ys, x.kids = y :: ys ∧ y.tree.pg = (x.tree.root.map Paged.pg).left := ⟨_, _, rfl, rfl⟩

/-- **Level by level**: `old` is the rank of what has been printed before, `lineBreak` what is
printed between that and the level. -/
theorem printTreeLoop_levels (verbose : Bool) {H : Nat} {s : Tree H} {next : Ptr} (holds : Holds order m F)
    (order_pos : 1 ≤ order) (large : F.card ≤ bound) (top : (root, rootDesc null next s) ∈ F) (here : root = s.pg)
    {x : Placed h} {xs : List (Placed h)} (inside : levelCells (x :: xs) ≤ F)
    (chain : Chain (nextOf m) q (levelPages (x :: xs)))
    {old d : Nat} {lineBreak : Output} (ranks : ∀ y ∈ x :: xs, Rank F root y.tree.pg y.parent d)
    (shallow : d + h ≤ bound)
    (ranked : ∀ m' n inner, Holds order m' F → m'.node x.tree.pg = .ok n → n.parent = x.parent → bound < inner →
      newRank order m' inner root x.tree.pg n old = .ok (d, lineBreak)) :
    ∃ m' enough, (∀ inner fuel, bound < inner → enough ≤ fuel →
        printTreeLoop order verbose inner root fuel q old m = .ok (lineBreak ++ levelsText verbose (x :: xs), m')) ∧
      Holds order m' F := by
  induction h generalizing q m old d lineBreak with
  | zero =>
      obtain ⟨q₁, m₁, line, holds₁, chain₁, -⟩ := printTreeLoop_line verbose holds order_pos large inside
        chain ranks shallow ranked
      have empty : q₁ = null := by
        have none_ : levelPages ((x :: xs).flatMap Placed.kids) = [] := by simp [levelPages, Placed.kids]
        rw [none_] at chain₁
        exact chain₁.head_eq
      subst empty
      refine ⟨m₁, xs.length + 2, fun inner fuel large le => ?_, holds₁⟩
      obtain ⟨fuel, rfl⟩ := Nat.exists_eq_add_of_le' le
      rw [show fuel + (xs.length + 2) = fuel + 1 + (xs.length + 1) by omega, line inner _ large, printTreeLoop,
        if_pos rfl, Exec.ok_bind, List.append_nil]
      rfl
  | succ h ih =>
      obtain ⟨q₁, m₁, line, holds₁, chain₁, inside₁⟩ := printTreeLoop_line verbose holds order_pos large
        inside chain ranks ((Nat.le_add_right d _).trans shallow) ranked
      have kidRanks : ∀ z ∈ (x :: xs).flatMap Placed.kids, Rank F root z.tree.pg z.parent (d + 1) := by
        intro z member
        obtain ⟨y, above, child⟩ := List.mem_flatMap.mp member
        have parent := kids_parent y z child
        have inner : (z.parent, .inner y.parent (y.tree.root.map Paged.pg)) ∈ F :=
          parent ▸ Multiset.mem_of_le inside (placed_mem above)
        exact .down (parent ▸ ranks y above) inner
          (ne_root holds top here (Multiset.mem_of_le inside₁ (placed_mem member)) (ne_null holds inner))
      obtain ⟨y, ys, kids, first⟩ := kids_cons x
      have parent := kids_parent x y (kids ▸ List.mem_cons_self)
      have inner : (y.parent, .inner x.parent (x.tree.root.map Paged.pg)) ∈ F :=
        parent ▸ Multiset.mem_of_le inside (placed_mem List.mem_cons_self)
      have below : (x :: xs).flatMap Placed.kids = y :: (ys ++ xs.flatMap Placed.kids) := by
        rw [List.flatMap_cons, kids]
        rfl
      rw [below] at chain₁ inside₁ kidRanks
      obtain ⟨m₂, enough, rest, holds₂⟩ := ih holds₁ inside₁ chain₁ kidRanks (by omega)
        fun m' n inner' holds' there up le =>
          newRank_next holds' order_pos (kidRanks y List.mem_cons_self) inner first there up (by omega)
      refine ⟨m₂, enough + (xs.length + 1), fun inner' fuel large le => ?_, holds₂⟩
      obtain ⟨fuel, rfl⟩ := Nat.exists_eq_add_of_le' ((Nat.le_add_left _ _).trans le)
      rw [line inner' fuel large, rest inner' fuel large (by omega), Exec.ok_bind, levelsText, below]
      simp [List.append_assoc]

/-! ## The tree -/

variable {wide : 3 ≤ order} {T : Whole} {R : Multiset Cell}

def Whole.treeText (T : Whole) (verbose : Bool) : Output :=
  T.elim ["Empty tree.\n"] fun t => levelsText verbose [⟨null, null, t.2⟩] ++ ["\n"]

/-- **`print_tree`** prints the levels from the root down, each from left to right and on a line of its
own, and leaves the tree as it is. -/
theorem Stored.printTree (stored : Stored order wide m root T R) (verbose : Bool) :
    ∃ m', Returns (fun fuel => Bpt.printTree order m verbose fuel root) (T.treeText verbose, m') ∧
      Stored order wide m' root T R := by
  cases T with
  | none =>
      refine ⟨m, .of_forall fun fuel => ?_, stored⟩
      rw [stored.root]
      rfl
  | some t =>
      obtain ⟨h, s⟩ := t
      have inside : cells null null s ≤ Whole.blocks (some ⟨h, s⟩) + R := Multiset.le_add_right _ _
      have top := Multiset.mem_of_le inside (root_mem s)
      have start : root = s.pg := stored.root
      have ranks : ∀ y ∈ [(⟨null, null, s⟩ : Placed h)],
          Rank (Whole.blocks (some ⟨h, s⟩) + R) root y.tree.pg y.parent 0 := by
        intro y member
        rw [List.mem_singleton.mp member, ← start]
        exact .top
      have level : levelCells [(⟨null, null, s⟩ : Placed h)] ≤ Whole.blocks (some ⟨h, s⟩) + R := by
        simpa [levelCells] using inside
      have large : (Whole.blocks (some ⟨h, s⟩) + R).card ≤ (Whole.blocks (some ⟨h, s⟩) + R).card + h :=
        Nat.le_add_right _ _
      obtain ⟨q, m₁, first, holds₁, chain⟩ := enqueue_spec stored.holds
        (fun p (member : p ∈ [] ++ [s.pg]) => ⟨_, List.mem_singleton.mp member ▸ top, rootDesc_node _ _ _⟩) Chain.nil
        (List.nodup_singleton _)
      obtain ⟨m₂, enough, rest, holds₂⟩ := printTreeLoop_levels verbose holds₁ (by omega) large (start ▸ top) start
        level chain ranks (by omega)
        fun m' n inner holds' there up le =>
          newRank_same holds' (by omega) (ranks _ List.mem_cons_self) there up (by omega)
      refine ⟨m₂, ⟨max enough ((Whole.blocks (some ⟨h, s⟩) + R).card + h + 1), fun fuel le => ?_⟩,
        start, holds₂, stored.valid⟩
      show Bpt.printTree order m verbose fuel root = _
      rw [Bpt.printTree, if_neg (stored.root ▸ stored.root_ne_null), start,
        first fuel (Nat.lt_of_lt_of_le (Nat.succ_pos _) ((le_max_right _ _).trans le)), Exec.ok_bind]
      simp only
      rw [← start, rest fuel fuel (by omega) (by omega)]
      rfl

/-! ## Without pointers -/

/-- The keys of the nodes of each level, from the top. -/
def levelKeys : {h : Nat} → List (Tree h) → List (List (List Key))
  | 0, ss => [ss.map PageTree.keys]
  | _ + 1, ss => (ss.map fun s => s.root.seps) :: levelKeys (ss.flatMap fun s => s.root.children)

/-- A line of keys, with a bar behind every node. -/
def lineText (nodes : List (List Key)) : Output :=
  nodes.flatMap fun keys => (keys.map fun k => decimal k ++ " ") ++ ["| "]

theorem levelKeys_length (ss : List (Tree h)) : (levelKeys ss).length = h + 1 := by
  induction h with
  | zero => rfl
  | succ h ih => exact congrArg Nat.succ (ih _)

/-- The last line is that of the leaves. -/
theorem levelKeys_getLast? (ss : List (Tree h)) :
    (levelKeys ss).getLast? = some ((ss.flatMap PageTree.leaves).map PageTree.keys) := by
  induction h with
  | zero =>
      rw [levelKeys, List.getLast?_singleton]
      congr 2
      exact (List.flatMap_singleton' ss).symm
  | succ h ih =>
      have some_ : levelKeys (ss.flatMap fun s => s.root.children) ≠ [] := by
        rw [← List.length_pos_iff, levelKeys_length]
        exact Nat.succ_pos h
      rw [levelKeys, List.getLast?_cons_of_ne_nil some_, ih, List.flatMap_assoc]
      rfl

theorem kids_trees (xs : List (Placed (h + 1))) :
    (xs.flatMap Placed.kids).map Placed.tree = (xs.map Placed.tree).flatMap fun s => s.root.children := by
  have under : ∀ (parent next : Ptr) (cs : List (Tree h)), (placedUnder parent next cs).map Placed.tree = cs := by
    intro parent next cs
    induction cs with
    | nil => rfl
    | cons c cs ih => exact congrArg (List.cons c) ih
  rw [List.map_flatMap, List.flatMap_map]
  exact List.flatMap_congr fun x _ => under _ _ _

/-- A line, given the keys of each node. -/
theorem line_plain {xs : List (Placed h)} {nodes : List (List Key)}
    (keys : xs.map (fun x => x.entries.map Prod.fst) = nodes) : xs.flatMap (Placed.text false) = lineText nodes := by
  subst keys
  rw [lineText, List.flatMap_map]
  refine List.flatMap_congr fun x _ => ?_
  simp [Placed.text, keysText_plain, pointerText]

theorem levelsText_plain (xs : List (Placed h)) :
    levelsText false xs = ["\n"].intercalate ((levelKeys (xs.map Placed.tree)).map lineText) := by
  induction h with
  | zero =>
      rw [levelKeys, List.map_singleton, List.intercalate_singleton]
      refine line_plain ?_
      rw [List.map_map]
      exact List.map_congr_left fun x _ => (keys_entry _).trans (keys_leaf _).symm
  | succ h ih =>
      have some_ : (levelKeys (xs.flatMap Placed.kids |>.map Placed.tree)).map lineText ≠ [] := by
        rw [← List.length_pos_iff, List.length_map, levelKeys_length]
        exact Nat.succ_pos h
      have line : xs.flatMap (Placed.text false) = lineText ((xs.map Placed.tree).map fun s => s.root.seps) := by
        refine line_plain ?_
        rw [List.map_map]
        refine List.map_congr_left fun x _ => ?_
        have seps : (x.tree.root.map Paged.pg).seps = x.tree.root.seps := Theory.Node.seps_map _ _
        rw [Placed.entries, childEntries, List.map_fst_zip (by
          rw [Theory.Node.seps_length, Theory.Node.children_length]
          exact Nat.le_succ _), seps]
        rfl
      rw [levelsText, ih, line, levelKeys, ← kids_trees, List.map_cons, List.intercalate_cons_of_ne_nil some_,
        List.append_assoc]
      rfl

/-- **The tree, printed without pointers**: one line for each level, the keys of its nodes from left to
right; the last line is that of the leaves. -/
theorem Stored.printTree_lines {t : Σ h, Tree h} (stored : Stored order wide m root (some t) R) :
    ∃ m', Returns (fun fuel => Bpt.printTree order m false fuel root)
        (["\n"].intercalate ((levelKeys [t.2]).map lineText) ++ ["\n"], m') ∧
      Stored order wide m' root (some t) R ∧ (levelKeys [t.2]).length = t.1 + 1 ∧
      (levelKeys [t.2]).getLast? = some (t.2.leaves.map PageTree.keys) := by
  obtain ⟨m', run, stored'⟩ := stored.printTree false
  refine ⟨m', ?_, stored', levelKeys_length _, ?_⟩
  · rw [Whole.treeText, Option.elim_some, levelsText_plain] at run
    exact run
  · rw [levelKeys_getLast?, List.flatMap_singleton]

theorem printTree_lines_sample :
    ∃ (m m' : Memory) (root : Ptr) (t : Σ h, Tree h), Returns (fun fuel => Bpt.printTree 3 m false fuel root)
        (["\n"].intercalate ((levelKeys [t.2]).map lineText) ++ ["\n"], m') ∧
      Stored 3 (by decide) m' root (some t) 0 ∧ (levelKeys [t.2]).length = t.1 + 1 ∧
      (levelKeys [t.2]).getLast? = some (t.2.leaves.map PageTree.keys) := by
  obtain ⟨root, m, t, stored⟩ := sampleCalls_tree
  obtain ⟨m', printed⟩ := stored.printTree_lines
  exact ⟨m, m', root, t, printed⟩

end Levels

end SimpleDatabase.InMemory
