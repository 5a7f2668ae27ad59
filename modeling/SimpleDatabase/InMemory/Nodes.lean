/- InMemory.Nodes -- what the functions on one node do to its content

`LeafNode` and `InnerNode` say what the two arrays of a node hold: the entries of a leaf
and, in the last element of `pointers`, the next leaf; or the keys and the children of an
inner node.  Each function that works on one node, or on two next to each other, has one
specification here.  None of them goes outside an array.
-/
import SimpleDatabase.Theory.Node
import SimpleDatabase.Bpt.Delete
import Mathlib.Data.List.InsertIdx

namespace SimpleDatabase.InMemory

open SimpleDatabase.Theory SimpleDatabase.Bpt

set_option autoImplicit false

/-- An entry of a leaf: its key, and where its record is. -/
abbrev Entry := Key × Ptr

/-- The node is a leaf with the entries `recs`, and `next` is the next leaf. -/
structure LeafNode (order : Nat) (n : Bpt.Node) (next : Ptr) (recs : List Entry) : Prop where
  tag : n.isLeaf = true
  fits : recs.length ≤ order - 1
  count : n.numKeys = recs.length
  keys : shown n.keys recs.length = recs.map Prod.fst
  pointers : shown n.pointers recs.length = recs.map Prod.snd
  next : n.pointers (order - 1) = next

/-- The node is inner, with the keys and children of `nd`. -/
structure InnerNode (order : Nat) (n : Bpt.Node) (nd : Theory.Node Key Ptr) : Prop where
  tag : n.isLeaf = false
  fits : nd.size ≤ order - 1
  count : n.numKeys = nd.size
  keys : shown n.keys nd.size = nd.seps
  pointers : shown n.pointers (nd.size + 1) = nd.children

variable {order : Nat} {n nb : Bpt.Node} {next : Ptr} {recs : List Entry} {nd : Theory.Node Key Ptr}

namespace LeafNode

theorem reparent (leaf : LeafNode order n next recs) (parent : Ptr) :
    LeafNode order { n with parent } next recs :=
  ⟨leaf.tag, leaf.fits, leaf.count, leaf.keys, leaf.pointers, leaf.next⟩

theorem key_at (leaf : LeafNode order n next recs) {i : Nat} (inside : i < recs.length) :
    n.keys i = recs[i].1 := by
  rw [get_of_shown leaf.keys (by simpa using inside), List.getElem_map]

theorem pointer_at (leaf : LeafNode order n next recs) {i : Nat} (inside : i < recs.length) :
    n.pointers i = recs[i].2 := by
  rw [get_of_shown leaf.pointers (by simpa using inside), List.getElem_map]

/-- The scans of a leaf's keys. -/
theorem find_key (leaf : LeafNode order n next recs) (stop : Key → Bool) :
    (keyArray order).find n.keys stop 0 n.numKeys = .ok (recs.findIdx fun r => stop r.1) := by
  rw [leaf.count, find_shown n.keys stop leaf.fits, leaf.keys, List.findIdx_map]
  rfl

end LeafNode

namespace InnerNode

theorem reparent (inner : InnerNode order n nd) (parent : Ptr) : InnerNode order { n with parent } nd :=
  ⟨inner.tag, inner.fits, inner.count, inner.keys, inner.pointers⟩

theorem key_at (inner : InnerNode order n nd) {i : Nat} (inside : i < nd.seps.length) :
    n.keys i = nd.seps[i] := get_of_shown inner.keys inside

theorem pointer_at (inner : InnerNode order n nd) {i : Nat} (inside : i < nd.children.length) :
    n.pointers i = nd.children[i] := get_of_shown inner.pointers inside

theorem size_lt (inner : InnerNode order n nd) (order_pos : 1 ≤ order) : nd.size < order := by
  have := inner.fits
  omega

end InnerNode

/-! ## Finding -/

/-- The descent step of `find_leaf` is the focus of the search. -/
theorem childFor_eq (inner : InnerNode order n nd) (order_pos : 1 ≤ order) (key : Key) :
    childFor order n key = .ok (nd.focus key).2.1 := by
  have scan := find_shown (c := order - 1) n.keys (fun k => ¬ k ≤ key) inner.fits
  rw [← inner.count] at scan
  have place : nd.seps.findIdx (fun k => decide ¬ k ≤ key) = nd.recs.findIdx fun r => key < r.1 := by
    rw [Theory.Node.seps, List.findIdx_map]
    congr 1
    funext r
    simp
  have child := nd.focus_child key
  have bound : nd.recs.findIdx (fun r => key < r.1) ≤ nd.size := List.findIdx_le_length
  have size := inner.size_lt order_pos
  rw [childFor, scan, Exec.ok_bind, inner.count, inner.keys, place, read_array _ (by omega)]
  obtain ⟨inside, same⟩ := List.getElem?_eq_some_iff.mp child
  rw [inner.pointer_at inside, same]

/-- The pointer of the first entry with the key. -/
theorem entryFor_eq (leaf : LeafNode order n next recs) (key : Key) :
    entryFor order n key = .ok (((recs.find? fun r => r.1 = key).map Prod.snd).getD null) := by
  have scan := leaf.find_key fun k => k = key
  have fits := leaf.fits
  rw [entryFor, scan, Exec.ok_bind, leaf.count, List.find?_eq_getElem?_findIdx]
  by_cases absent : recs.findIdx (fun r => r.1 = key) = recs.length
  · rw [if_pos absent, List.getElem?_eq_none absent.ge]
    rfl
  · have inside : recs.findIdx (fun r => r.1 = key) < recs.length :=
      lt_of_le_of_ne List.findIdx_le_length absent
    rw [if_neg absent, read_array _ (by omega), leaf.pointer_at inside, List.getElem?_eq_getElem inside]
    rfl

/-! ## Inserting -/

/-- A leaf's entries with a new one before the first that is not below it. -/
def leafEntries (recs : List Entry) (key : Key) (pointer : Ptr) : List Entry :=
  recs.insertIdx (recs.findIdx fun r => ¬ r.1 < key) (key, pointer)

theorem leafEntries_length (recs : List Entry) (key : Key) (pointer : Ptr) :
    (leafEntries recs key pointer).length = recs.length + 1 :=
  List.length_insertIdx_of_le_length List.findIdx_le_length _

theorem leafWith_spec (leaf : LeafNode order n next recs) (key : Key) (pointer : Ptr)
    (room : recs.length < order - 1) :
    ∃ n', leafWith order n key pointer = .ok n' ∧
      LeafNode order n' next (leafEntries recs key pointer) ∧ n'.parent = n.parent := by
  obtain ⟨i, place⟩ : ∃ i, i = recs.findIdx fun r => ¬ r.1 < key := ⟨_, rfl⟩
  have bound : i ≤ recs.length := place ▸ List.findIdx_le_length
  have scan := leaf.find_key fun k => ¬ k < key
  obtain ⟨keys, shift, inserted, -⟩ := moveUp_shown (c := order - 1) n.keys bound room
  obtain ⟨pointers, shift', inserted', behind⟩ := moveUp_shown (c := order) n.pointers bound (by omega)
  refine ⟨{ n with
      keys := Function.update keys i key, pointers := Function.update pointers i pointer
      numKeys := recs.length + 1 }, ?_, ⟨leaf.tag, ?_, ?_, ?_, ?_, ?_⟩, rfl⟩
  · rw [leafWith, scan, Exec.ok_bind, ← place, leaf.count, shift, Exec.ok_bind, shift', Exec.ok_bind,
      write_array keys key (by omega), Exec.ok_bind, write_array pointers pointer (by omega), Exec.ok_bind]
    rfl
  · rw [leafEntries_length]
    exact room
  · exact (leafEntries_length _ _ _).symm
  · rw [leafEntries_length, inserted key, leaf.keys, leafEntries, List.map_insertIdx, ← place]
  · rw [leafEntries_length, inserted' pointer, leaf.pointers, leafEntries, List.map_insertIdx, ← place]
  · show Function.update pointers i pointer (order - 1) = next
    rw [Function.update_of_ne (by omega), behind _ room, leaf.next]

/-- The index of the pointer to a child. -/
theorem getLeftIndex_eq (inner : InnerNode order n nd) (order_pos : 1 ≤ order) (left : Ptr) :
    getLeftIndex order n left = .ok (nd.children.findIdx fun p => p = left) := by
  have size := inner.size_lt order_pos
  rw [getLeftIndex, inner.count, find_shown n.pointers _ (by omega), inner.pointers]

/-- What a node becomes with a child more. -/
theorem children_insertAt (nd : Theory.Node Key Ptr) (i : Nat) (key : Key) (right : Ptr) :
    (nd.insertAt i key right).children = nd.children.insertIdx (i + 1) right := by
  simp [Theory.Node.insertAt, Theory.Node.children, List.map_insertIdx]

theorem seps_insertAt (nd : Theory.Node Key Ptr) (i : Nat) (key : Key) (right : Ptr) :
    (nd.insertAt i key right).seps = nd.seps.insertIdx i key := by
  simp [Theory.Node.insertAt, Theory.Node.seps, List.map_insertIdx]

theorem size_insertAt (nd : Theory.Node Key Ptr) {i : Nat} (inside : i ≤ nd.size) (key : Key)
    (right : Ptr) : (nd.insertAt i key right).size = nd.size + 1 :=
  List.length_insertIdx_of_le_length inside _

theorem nodeWith_spec (inner : InnerNode order n nd) {i : Nat} (inside : i ≤ nd.size) (key : Key)
    (right : Ptr) (room : nd.size < order - 1) :
    ∃ n', nodeWith order n i key right = .ok n' ∧ InnerNode order n' (nd.insertAt i key right) ∧
      n'.parent = n.parent := by
  obtain ⟨pointers, shift, inserted, -⟩ := moveUp_shown (c := order) n.pointers
    (show i + 1 ≤ nd.size + 1 by omega) (by omega)
  obtain ⟨keys, shift', inserted', -⟩ := moveUp_shown (c := order - 1) n.keys inside room
  rw [show nd.size + 1 - (i + 1) = nd.size - i by omega] at shift
  refine ⟨{ n with
      keys := Function.update keys i key, pointers := Function.update pointers (i + 1) right
      numKeys := nd.size + 1 }, ?_, ⟨inner.tag, ?_, ?_, ?_, ?_⟩, rfl⟩
  · rw [nodeWith, inner.count, shift, Exec.ok_bind, shift', Exec.ok_bind,
      write_array pointers right (by omega), Exec.ok_bind, write_array keys key (by omega), Exec.ok_bind]
    rfl
  · rw [size_insertAt nd inside]
    exact room
  · rw [size_insertAt nd inside]
  · rw [size_insertAt nd inside, inserted' key, inner.keys, seps_insertAt]
  · rw [size_insertAt nd inside, inserted right, inner.pointers, children_insertAt]

/-! ## Splitting -/

theorem cut_pos {length : Nat} (pos : 1 ≤ length) : 1 ≤ cut length := by
  unfold cut
  split <;> omega

theorem cut_le (length : Nat) : cut length ≤ length := by
  unfold cut
  split <;> omega

/-- A copy of the first elements of an array. -/
theorem copyUp_take {α : Type} {c d n len : Nat} (a b : Nat → α) (from_ : n ≤ d) (to_ : n ≤ c)
    (le : n ≤ len) :
    ∃ a', (array α c).copyUp (array α d) b 0 0 n a = .ok a' ∧ shown a' n = (shown b len).take n ∧
      ∀ x, n ≤ x → a' x = a x := by
  obtain ⟨a', run, copied, behind⟩ := copyUp_shown (c := c) (d := d) a b (i := 0) (j := 0) (n := n)
    (by omega) (by omega)
  rw [Nat.zero_add, shown_zero, List.nil_append, List.drop_zero] at copied
  exact ⟨a', run, by rw [copied, shown_take b le], fun x high => behind x (by omega)⟩

/-- A copy of the last elements of an array. -/
theorem copyUp_drop {α : Type} {c d i n : Nat} (a b : Nat → α) (from_ : i + n ≤ d) (to_ : n ≤ c) :
    ∃ a', (array α c).copyUp (array α d) b i 0 n a = .ok a' ∧
      shown a' n = (shown b (i + n)).drop i := by
  obtain ⟨a', run, copied, -⟩ := copyUp_shown (c := c) (d := d) a b (i := i) (j := 0) (n := n)
    from_ (by omega)
  rw [Nat.zero_add, shown_zero, List.nil_append] at copied
  exact ⟨a', run, copied⟩

theorem leafHalves_spec (leaf : LeafNode order n next recs) (full : recs.length = order - 1)
    (wide : 2 ≤ order) (tempKeys : Nat → Key) (tempPointers : Nat → Ptr) {new : Bpt.Node}
    (tag : new.isLeaf = true) (empty : new.numKeys = 0) (newLeaf : Ptr) (key : Key) (pointer : Ptr) :
    ∃ halves, leafHalves order tempKeys tempPointers n new newLeaf key pointer = .ok halves ∧
      LeafNode order halves.old newLeaf ((leafEntries recs key pointer).take (cut (order - 1))) ∧
      LeafNode order halves.new next ((leafEntries recs key pointer).drop (cut (order - 1))) ∧
      halves.key ∈ ((leafEntries recs key pointer).drop (cut (order - 1))).head?.map Prod.fst ∧
      halves.old.parent = n.parent ∧ halves.new.parent = n.parent := by
  obtain ⟨i, place⟩ : ∃ i, i = recs.findIdx fun r => ¬ r.1 < key := ⟨_, rfl⟩
  obtain ⟨split, halfway⟩ : ∃ split, split = cut (order - 1) := ⟨_, rfl⟩
  have low : 1 ≤ split := halfway ▸ cut_pos (by omega)
  have high : split ≤ order - 1 := halfway ▸ cut_le _
  have bound : i ≤ recs.length := place ▸ List.findIdx_le_length
  have width : recs.length + 1 = order := by omega
  have length : (leafEntries recs key pointer).length = order := by rw [leafEntries_length, width]
  have scan := leaf.find_key fun k => ¬ k < key
  rw [leaf.count, full, ← place] at scan
  -- all entries, with the new one, in the temporary arrays
  obtain ⟨tk, around, keys⟩ := copyAround_shown (c := order) (d := order - 1) tempKeys n.keys bound
    (by omega) (by omega)
  obtain ⟨tp, around', pointers⟩ := copyAround_shown (c := order) (d := order) tempPointers n.pointers
    bound (by omega) (by omega)
  have keys : shown (Function.update tk i key) order = (leafEntries recs key pointer).map Prod.fst := by
    rw [← width, keys key, leaf.keys, leafEntries, List.map_insertIdx, ← place]
  have pointers : shown (Function.update tp i pointer) order = (leafEntries recs key pointer).map Prod.snd := by
    rw [← width, pointers pointer, leaf.pointers, leafEntries, List.map_insertIdx, ← place]
  -- their first half goes back, the rest into the new leaf
  obtain ⟨p, copy, first, kept⟩ := copyUp_take (c := order) (d := order) n.pointers
    (Function.update tp i pointer) (show split ≤ order by omega) (by omega) (show split ≤ order by omega)
  obtain ⟨k, copy', first', -⟩ := copyUp_take (c := order - 1) (d := order) n.keys
    (Function.update tk i key) (show split ≤ order by omega) (by omega) (show split ≤ order by omega)
  obtain ⟨np, copyNew, second⟩ := copyUp_drop (c := order) (d := order) new.pointers
    (Function.update tp i pointer) (show split + (order - split) ≤ order by omega) (by omega)
  obtain ⟨nk, copyNew', second'⟩ := copyUp_drop (c := order - 1) (d := order) new.keys
    (Function.update tk i key) (show split + (order - split) ≤ order by omega) (by omega)
  rw [show split + (order - split) = order by omega] at second second'
  -- the links, and what is left over
  obtain ⟨q, tidy, same, last⟩ := fill_shown (c := order) (Function.update p (order - 1) newLeaf) null
    (show split + (order - 1 - split) ≤ order by omega)
  obtain ⟨nq, tidyNew, sameNew, lastNew⟩ := fill_shown (c := order) (Function.update np (order - 1) next)
    null (show order - split + (order - 1 - (order - split)) ≤ order by omega)
  have link : p (order - 1) = next := by rw [kept _ high, leaf.next]
  refine ⟨⟨{ n with keys := k, pointers := q, numKeys := split },
    { new with keys := nk, pointers := nq, numKeys := new.numKeys + (order - split), parent := n.parent },
    nk 0⟩, ?_, ⟨leaf.tag, ?_, ?_, ?_, ?_, ?_⟩, ⟨tag, ?_, ?_, ?_, ?_, ?_⟩, ?_, rfl, rfl⟩
  · rw [leafHalves, scan, Exec.ok_bind, leaf.count, around, Exec.ok_bind, around', Exec.ok_bind,
      write_array tk key (by omega), Exec.ok_bind, write_array tp pointer (by omega), Exec.ok_bind]
    simp only [← halfway]
    rw [copy, Exec.ok_bind, copy', Exec.ok_bind, copyNew, Exec.ok_bind, copyNew', Exec.ok_bind,
      read_array p (by omega), Exec.ok_bind, link, write_array np next (by omega), Exec.ok_bind,
      write_array p newLeaf (by omega), Exec.ok_bind, tidy, Exec.ok_bind, tidyNew, Exec.ok_bind,
      read_array nk (by omega), Exec.ok_bind]
    rfl
  · rw [← halfway, List.length_take, length]
    omega
  · rw [← halfway, List.length_take, length]
    show split = min split order
    omega
  · rw [← halfway, List.length_take, length, Nat.min_eq_left (by omega), first', keys, List.map_take]
  · rw [← halfway, List.length_take, length, Nat.min_eq_left (by omega), same,
      shown_update_of_le p newLeaf high, first, pointers, List.map_take]
  · show q (order - 1) = newLeaf
    rw [last _ (by omega), Function.update_self]
  · rw [← halfway, List.length_drop, length]
    omega
  · rw [← halfway, List.length_drop, length]
    exact (congrArg (· + (order - split)) empty).trans (Nat.zero_add _)
  · rw [← halfway, List.length_drop, length, second', keys, List.map_drop]
  · rw [← halfway, List.length_drop, length, sameNew, shown_update_of_le np next (by omega), second,
      pointers, List.map_drop]
  · show nq (order - 1) = next
    rw [lastNew _ (by omega), Function.update_self]
  · rw [← halfway, ← List.head?_map, List.map_drop, ← keys, ← second']
    obtain ⟨rest, some_⟩ : ∃ rest, order - split = rest + 1 := ⟨order - split - 1, by omega⟩
    rw [some_]
    simp [shown, List.range_succ_eq_map]

/-- A copy of some elements and the one after them. -/
theorem shown_update_last {α : Type} (a : Nat → α) (n : Nat) (x : α) :
    shown (Function.update a n x) (n + 1) = shown a n ++ [x] := by
  rw [shown_succ, shown_update_of_le a x (Nat.le_refl n), Function.update_self]

theorem nodeHalves_spec (inner : InnerNode order n nd) (full : nd.size = order - 1) (wide : 2 ≤ order)
    (tempKeys : Nat → Key) (tempPointers : Nat → Ptr) {new : Bpt.Node} (tag : new.isLeaf = false)
    (empty : new.numKeys = 0) {i : Nat} (inside : i ≤ nd.size) {key k : Key} {right : Ptr}
    {l r : Theory.Node Key Ptr} (joined : nd.insertAt i key right = Theory.Node.join l k r)
    (half : l.size = cut order - 1) :
    ∃ halves, nodeHalves order tempKeys tempPointers n new i key right = .ok halves ∧
      InnerNode order halves.old l ∧ InnerNode order halves.new r ∧ halves.key = k ∧
      halves.old.parent = n.parent ∧ halves.new.parent = n.parent := by
  obtain ⟨split, halfway⟩ : ∃ split, cut order = split + 1 :=
    ⟨cut order - 1, (Nat.sub_add_cancel (cut_pos (by omega))).symm⟩
  have le := cut_le order
  have half : l.size = split := by omega
  have width : nd.size + 1 = order := by omega
  have total : l.size + r.size + 1 = order := by
    have size := size_insertAt nd inside key right
    rw [joined, Theory.Node.size_join] at size
    omega
  -- everything, with the new child, in the temporary arrays
  obtain ⟨tp, around, pointers⟩ := copyAround_shown (c := order + 1) (d := order) tempPointers n.pointers
    (show i + 1 ≤ nd.size + 1 by omega) (by omega) (by omega)
  obtain ⟨tk, around', keys⟩ := copyAround_shown (c := order) (d := order - 1) tempKeys n.keys inside
    (by omega) (by omega)
  have pointers : shown (Function.update tp (i + 1) right) (order + 1) = l.children ++ r.children := by
    rw [← Theory.Node.children_join l k r, ← joined, children_insertAt, ← inner.pointers, ← pointers right,
      width]
  have keys : shown (Function.update tk i key) order = l.seps ++ k :: r.seps := by
    rw [← Theory.Node.seps_join, ← joined, seps_insertAt, ← inner.keys, ← keys key, width]
  -- the first half goes back, the rest into the new node
  obtain ⟨p, copy, first, -⟩ := copyUp_take (c := order) (d := order + 1) n.pointers
    (Function.update tp (i + 1) right) (show split ≤ order + 1 by omega) (by omega)
    (show split ≤ order + 1 by omega)
  obtain ⟨q, copy', first', -⟩ := copyUp_take (c := order - 1) (d := order) n.keys
    (Function.update tk i key) (show split ≤ order by omega) (by omega) (show split ≤ order by omega)
  obtain ⟨np, copyNew, second⟩ := copyUp_drop (c := order) (d := order + 1) new.pointers
    (Function.update tp (i + 1) right) (show split + 1 + (order - (split + 1)) ≤ order + 1 by omega)
    (by omega)
  obtain ⟨nq, copyNew', second'⟩ := copyUp_drop (c := order - 1) (d := order) new.keys
    (Function.update tk i key) (show split + 1 + (order - (split + 1)) ≤ order by omega) (by omega)
  rw [show split + 1 + (order - (split + 1)) = order by omega] at second second'
  have middle : Function.update tk i key split = k := by
    rw [get_of_shown keys (by simp; omega)]
    simp [← half, ← Theory.Node.seps_length]
  have left : shown (Function.update p split (Function.update tp (i + 1) right split)) (split + 1) =
      l.children := by
    have upTo : split + 1 ≤ order + 1 := by omega
    rw [shown_update_last, first, shown_take _ (by omega), ← shown_succ, ← shown_take _ upTo, pointers,
      List.take_append_of_le_length (by simp [half]), List.take_of_length_le (by simp [half])]
  have rest : shown (Function.update np (order - (split + 1)) (Function.update tp (i + 1) right order))
      (order - (split + 1) + 1) = r.children := by
    rw [shown_update_last, second, ← List.drop_append_of_le_length (by simp; omega), ← shown_succ, pointers,
      List.drop_append_of_le_length (by simp [half]), List.drop_of_length_le (by simp [half]), List.nil_append]
  have keysLeft : shown q split = l.seps := by
    rw [first', keys, List.take_append_of_le_length (by simp [half]), List.take_of_length_le (by simp [half])]
  have keysRight : shown nq (order - (split + 1)) = r.seps := by
    rw [second', keys, List.drop_append, List.drop_of_length_le (by simp [half]), List.nil_append]
    simp [half]
  have size : r.size = order - (split + 1) := by omega
  refine ⟨⟨{ n with
      keys := q, pointers := Function.update p split (Function.update tp (i + 1) right split)
      numKeys := split },
    { new with
      keys := nq
      pointers := Function.update np (order - (split + 1)) (Function.update tp (i + 1) right order)
      numKeys := new.numKeys + (order - (split + 1)), parent := n.parent }, k⟩, ?_,
    ⟨inner.tag, by omega, half.symm, by rw [half, keysLeft], by rw [half, left]⟩,
    ⟨tag, by omega, ?_, by rw [size, keysRight], by rw [size, rest]⟩, rfl, rfl, rfl⟩
  · rw [nodeHalves, inner.count, around, Exec.ok_bind, around', Exec.ok_bind,
      write_array tp right (by omega), Exec.ok_bind, write_array tk key (by omega), Exec.ok_bind, halfway]
    simp only [Nat.add_sub_cancel]
    rw [copy, Exec.ok_bind, copy', Exec.ok_bind, read_array _ (by omega), Exec.ok_bind,
      write_array p _ (by omega), Exec.ok_bind, read_array _ (by omega), Exec.ok_bind, copyNew, Exec.ok_bind,
      copyNew', Exec.ok_bind, read_array _ (by omega), Exec.ok_bind, write_array np _ (by omega),
      Exec.ok_bind, middle]
    rfl
  · show new.numKeys + (order - (split + 1)) = r.size
    omega

/-! ## Taking an entry out -/

theorem eraseIdx_append_cons {α : Type} (l : List α) (a : α) (l' : List α) :
    (l ++ a :: l').eraseIdx l.length = l ++ l' := by
  rw [List.eraseIdx_append_of_length_le (Nat.le_refl _), Nat.sub_self, List.eraseIdx_cons_zero]

theorem removeEntry_leaf {pre post : List Entry} {key : Key} {pointer : Ptr}
    (leaf : LeafNode order n next (pre ++ (key, pointer) :: post)) (newKey : key ∉ pre.map Prod.fst)
    (newPointer : pointer ∉ pre.map Prod.snd) :
    ∃ n', removeEntry order n key pointer = .ok n' ∧ LeafNode order n' next (pre ++ post) ∧
      n'.parent = n.parent := by
  obtain ⟨len, length⟩ : ∃ len, (pre ++ (key, pointer) :: post).length = len := ⟨_, rfl⟩
  have total : len = pre.length + post.length + 1 := by
    rw [← length, List.length_append, List.length_cons]
    omega
  have shorter : (pre ++ post).length = len - 1 := by
    rw [List.length_append, total, Nat.add_sub_cancel]
  have fits := leaf.fits
  have count := leaf.count
  have keys := leaf.keys
  have pointers := leaf.pointers
  rw [length] at fits count keys pointers
  rw [List.map_append, List.map_cons] at keys pointers
  have index := (seek_shown (c := order - 1) n.keys (fun k => k = key) fits ⟨key, by rw [keys]; simp, by simp⟩).1
  have index' := (seek_shown (c := order) n.pointers (fun p => p = pointer) (show len ≤ order by omega)
    ⟨pointer, by rw [pointers]; simp, by simp⟩).1
  rw [keys, Theory.Node.findIdx_append_cons newKey, List.length_map] at index
  rw [pointers, Theory.Node.findIdx_append_cons newPointer, List.length_map] at index'
  obtain ⟨k, shift, erased, -⟩ := moveDown_shown (c := order - 1) n.keys (show pre.length < len by omega) fits
  obtain ⟨p, shift', erased', behind⟩ := moveDown_shown (c := order) n.pointers
    (show pre.length < len by omega) (by omega)
  obtain ⟨q, tidy, same, last⟩ := fill_shown (c := order) p null
    (show len - 1 + (order - 1 - (len - 1)) ≤ order by omega)
  refine ⟨{ n with keys := k, pointers := q, numKeys := len - 1 }, ?_, ⟨leaf.tag, ?_, shorter.symm, ?_, ?_, ?_⟩, rfl⟩
  · simp only [removeEntry, leaf.tag, if_true, count, index, index', shift, shift', tidy, Exec.ok_bind,
      Exec.pure_eq_ok]
  · omega
  · have place := eraseIdx_append_cons (pre.map Prod.fst) key (post.map Prod.fst)
    rw [List.length_map] at place
    rw [shorter, erased, keys, place, List.map_append]
  · have place := eraseIdx_append_cons (pre.map Prod.snd) pointer (post.map Prod.snd)
    rw [List.length_map] at place
    rw [shorter, same, erased', pointers, place, List.map_append]
  · show q (order - 1) = next
    rw [last _ (by omega), behind _ (by omega), leaf.next]

theorem removeEntry_inner {pre : List (Ptr × Key)} {c d : Ptr} {key : Key} {post : List (Key × Ptr)}
    (inner : InnerNode order n (Theory.Node.plug pre c ((key, d) :: post))) (order_pos : 1 ≤ order)
    (seps : (Theory.Node.plug pre c ((key, d) :: post)).seps.Nodup)
    (children : (Theory.Node.plug pre c ((key, d) :: post)).children.Nodup) :
    ∃ n', removeEntry order n key d = .ok n' ∧ InnerNode order n' (Theory.Node.plug pre c post) ∧
      n'.parent = n.parent := by
  obtain ⟨len, length⟩ : ∃ len, (Theory.Node.plug pre c ((key, d) :: post)).size = len := ⟨_, rfl⟩
  have total : len = pre.length + post.length + 1 := by
    rw [← length, Theory.Node.size_plug, List.length_cons]
    omega
  have shorter : (Theory.Node.plug pre c post).size = len - 1 := by
    rw [Theory.Node.size_plug, total, Nat.add_sub_cancel]
  have fits := inner.fits
  have count := inner.count
  have keys := inner.keys
  have pointers := inner.pointers
  rw [length] at fits count keys pointers
  rw [Theory.Node.seps_plug, List.map_cons] at keys seps
  rw [Theory.Node.plug_shift, Theory.Node.children_plug] at pointers children
  have newKey : key ∉ pre.map Prod.snd := fun member =>
    (List.nodup_append.mp seps).2.2 key member key (by simp) rfl
  have newPointer : d ∉ (pre ++ [(c, key)]).map Prod.fst := fun member =>
    (List.nodup_append.mp children).2.2 d member d (by simp) rfl
  have index := (seek_shown (c := order - 1) n.keys (fun k => k = key) fits ⟨key, by rw [keys]; simp, by simp⟩).1
  have index' := (seek_shown (c := order) n.pointers (fun p => p = d) (show len + 1 ≤ order by omega)
    ⟨d, by rw [pointers]; simp, by simp⟩).1
  rw [keys, Theory.Node.findIdx_append_cons newKey, List.length_map] at index
  rw [pointers, Theory.Node.findIdx_append_cons newPointer, List.length_map, List.length_append,
    List.length_singleton] at index'
  obtain ⟨k, shift, erased, -⟩ := moveDown_shown (c := order - 1) n.keys (show pre.length < len by omega) fits
  obtain ⟨p, shift', erased', -⟩ := moveDown_shown (c := order) n.pointers
    (show pre.length + 1 < len + 1 by omega) (by omega)
  obtain ⟨q, tidy, same, -⟩ := fill_shown (c := order) p null
    (show len - 1 + 1 + (order - (len - 1 + 1)) ≤ order by omega)
  refine ⟨{ n with keys := k, pointers := q, numKeys := len - 1 }, ?_, ⟨inner.tag, ?_, shorter.symm, ?_, ?_⟩, rfl⟩
  · simp only [removeEntry, inner.tag, Bool.false_eq_true, if_false, count, index, index', shift, shift', tidy,
      Exec.ok_bind, Exec.pure_eq_ok]
  · omega
  · have place := eraseIdx_append_cons (pre.map Prod.snd) key (post.map Prod.fst)
    rw [List.length_map] at place
    rw [shorter, erased, keys, place, Theory.Node.seps_plug]
  · have place := eraseIdx_append_cons ((pre ++ [(c, key)]).map Prod.fst) d (post.map Prod.snd)
    rw [List.length_map, List.length_append, List.length_singleton] at place
    rw [shorter, same, show len - 1 + 1 = len + 1 - 1 by omega, erased', pointers, place,
      Theory.Node.children_plug]
    simp

/-! ## Two neighbours -/

theorem mergeLeaves_spec {mid : Ptr} {recs' : List Entry} (left : LeafNode order nb mid recs)
    (right : LeafNode order n next recs') (order_pos : 1 ≤ order)
    (fits : recs.length + recs'.length ≤ order - 1) :
    ∃ nb', mergeLeaves order nb n = .ok nb' ∧ LeafNode order nb' next (recs ++ recs') ∧
      nb'.parent = nb.parent := by
  obtain ⟨k, copy, keys, -⟩ := copyUp_shown (c := order - 1) (d := order - 1) nb.keys n.keys (i := 0)
    (show 0 + recs'.length ≤ order - 1 by omega) fits
  obtain ⟨p, copy', pointers, -⟩ := copyUp_shown (c := order) (d := order) nb.pointers n.pointers (i := 0)
    (show 0 + recs'.length ≤ order by omega) (show recs.length + recs'.length ≤ order by omega)
  rw [Nat.zero_add, List.drop_zero, left.keys, right.keys] at keys
  rw [Nat.zero_add, List.drop_zero, left.pointers, right.pointers] at pointers
  refine ⟨{ nb with
      keys := k, pointers := Function.update p (order - 1) next, numKeys := recs.length + recs'.length },
    ?_, ⟨left.tag, ?_, ?_, ?_, ?_, ?_⟩, rfl⟩
  · rw [mergeLeaves]
    simp only [left.count, right.count]
    rw [copy, Exec.ok_bind, copy', Exec.ok_bind, read_array _ (by omega), Exec.ok_bind, right.next,
      write_array p _ (by omega), Exec.ok_bind]
    rfl
  · rwa [List.length_append]
  · rw [List.length_append]
  · rw [List.length_append, keys, List.map_append]
  · rw [List.length_append, shown_update_of_le p _ fits, pointers, List.map_append]
  · exact Function.update_self _ _ _

theorem mergeNodes_spec {l r : Theory.Node Key Ptr} (left : InnerNode order nb l)
    (right : InnerNode order n r) (kPrime : Key) (fits : l.size + r.size + 1 ≤ order - 1) :
    ∃ nb' n', mergeNodes order nb n kPrime = .ok (nb', n') ∧
      InnerNode order nb' (Theory.Node.join l kPrime r) ∧ nb'.parent = nb.parent ∧ n'.parent = n.parent := by
  obtain ⟨k, copy, keys, -⟩ := copyUp_shown (c := order - 1) (d := order - 1)
    (Function.update nb.keys l.size kPrime) n.keys (i := 0) (show 0 + r.size ≤ order - 1 by omega)
    (show l.size + 1 + r.size ≤ order - 1 by omega)
  obtain ⟨p, copy', pointers, -⟩ := copyUp_shown (c := order) (d := order) nb.pointers n.pointers (i := 0)
    (show 0 + r.size ≤ order by omega) (show l.size + 1 + r.size ≤ order by omega)
  rw [Nat.zero_add, List.drop_zero, shown_update_last, left.keys, right.keys] at keys
  rw [Nat.zero_add, List.drop_zero, left.pointers] at pointers
  have size : (Theory.Node.join l kPrime r).size = l.size + 1 + r.size := by
    rw [Theory.Node.size_join]
    omega
  refine ⟨{ nb with
      keys := k, pointers := Function.update p (l.size + 1 + r.size) (n.pointers r.size)
      numKeys := l.size + 1 + r.size }, { n with numKeys := r.size - r.size }, ?_,
    ⟨left.tag, by omega, size.symm, ?_, ?_⟩, rfl, rfl⟩
  · rw [mergeNodes]
    simp only [left.count, right.count]
    rw [write_array nb.keys _ (by omega), Exec.ok_bind, copy, Exec.ok_bind, copy', Exec.ok_bind,
      read_array _ (by omega), Exec.ok_bind, write_array p _ (by omega), Exec.ok_bind]
    rfl
  · rw [size, keys, Theory.Node.seps_join, List.append_assoc, List.singleton_append]
  · rw [size, shown_update_last, pointers, List.append_assoc, ← shown_succ, right.pointers,
      Theory.Node.children_join]

/-- A shift up by one over a whole array, and a write in front. -/
theorem moveUp_front {α : Type} {c len : Nat} (a : Nat → α) (room : len < c) :
    ∃ a', (array α c).moveUp 0 1 len a = .ok a' ∧
      (∀ x, shown (Function.update a' 0 x) (len + 1) = x :: shown a len) ∧ ∀ i, len < i → a' i = a i := by
  obtain ⟨a', run, inserted, behind⟩ := moveUp_shown (c := c) a (Nat.zero_le len) room
  exact ⟨a', run, fun x => by rw [inserted, List.insertIdx_zero], behind⟩

/-- A shift down by one over a whole array. -/
theorem moveDown_front {α : Type} {c : Nat} (len : Nat) (a : Nat → α) (fits : len + 1 ≤ c) :
    ∃ a', (array α c).moveDown 1 0 len a = .ok a' ∧ shown a' len = (shown a (len + 1)).tail ∧
      ∀ i, len ≤ i → a' i = a i := by
  obtain ⟨a', run, erased, behind⟩ := moveDown_shown (c := c) a (Nat.succ_pos len) fits
  have erased : shown a' len = (shown a (len + 1)).eraseIdx 0 := erased
  exact ⟨a', run, by rw [erased, List.eraseIdx_zero], fun i high => behind i (Nat.succ_le_succ high)⟩

theorem rotateLeafRight_spec {mid : Ptr} {e : Entry} {recs' : List Entry}
    (left : LeafNode order nb mid (recs ++ [e])) (right : LeafNode order n next recs')
    (room : recs'.length < order - 1) :
    ∃ n' nb', rotateLeafRight order n nb = .ok (n', nb', e.1) ∧ LeafNode order n' next (e :: recs') ∧
      LeafNode order nb' mid recs ∧ n'.parent = n.parent ∧ nb'.parent = nb.parent := by
  have width : (recs ++ [e]).length = recs.length + 1 := by simp
  have fits := left.fits
  have count : nb.numKeys - 1 = recs.length := by rw [left.count, width, Nat.add_sub_cancel]
  have keys := left.keys
  have pointers := left.pointers
  rw [width, shown_succ, List.map_append] at keys pointers
  obtain ⟨keys, lastKey⟩ := List.append_inj' keys rfl
  obtain ⟨pointers, lastPointer⟩ := List.append_inj' pointers rfl
  have lastKey : nb.keys recs.length = e.1 := by simpa using lastKey
  have lastPointer : nb.pointers recs.length = e.2 := by simpa using lastPointer
  obtain ⟨k, shift, inserted, -⟩ := moveUp_front (c := order - 1) n.keys room
  obtain ⟨p, shift', inserted', behind⟩ := moveUp_front (c := order) n.pointers
    (show recs'.length < order by omega)
  refine ⟨{ n with
      keys := Function.update k 0 e.1, pointers := Function.update p 0 e.2, numKeys := recs'.length + 1 },
    { nb with pointers := Function.update nb.pointers recs.length null, numKeys := recs.length }, ?_,
    ⟨right.tag, room, rfl, ?_, ?_, ?_⟩, ⟨left.tag, by omega, rfl, keys, ?_, ?_⟩, rfl, rfl⟩
  · rw [rotateLeafRight]
    simp only [right.count, count]
    rw [shift, Exec.ok_bind, shift', Exec.ok_bind, read_array _ (by omega), Exec.ok_bind, lastPointer,
      write_array p _ (by omega), Exec.ok_bind, write_array nb.pointers _ (by omega), Exec.ok_bind,
      read_array _ (by omega), Exec.ok_bind, lastKey, write_array k _ (by omega), Exec.ok_bind]
    rfl
  · rw [List.length_cons, inserted, right.keys, List.map_cons]
  · rw [List.length_cons, inserted', right.pointers, List.map_cons]
  · show Function.update p 0 e.2 (order - 1) = next
    rw [Function.update_of_ne (by omega), behind _ room, right.next]
  · rw [shown_update_of_le nb.pointers _ (Nat.le_refl _), pointers]
  · show Function.update nb.pointers recs.length null (order - 1) = mid
    rw [Function.update_of_ne (by omega), left.next]

theorem rotateLeafLeft_spec {mid : Ptr} {e f : Entry} {recs' : List Entry}
    (left : LeafNode order n mid recs) (right : LeafNode order nb next (e :: f :: recs'))
    (room : recs.length < order - 1) :
    ∃ n' nb', rotateLeafLeft order n nb = .ok (n', nb', f.1) ∧ LeafNode order n' mid (recs ++ [e]) ∧
      LeafNode order nb' next (f :: recs') ∧ n'.parent = n.parent ∧ nb'.parent = nb.parent := by
  have fits := right.fits
  rw [List.length_cons, List.length_cons] at fits
  have count : nb.numKeys - 1 = recs'.length + 1 := by rw [right.count]; rfl
  obtain ⟨k, shift, erased, -⟩ := moveDown_front (c := order - 1) (recs'.length + 1) nb.keys fits
  obtain ⟨p, shift', erased', behind⟩ := moveDown_front (c := order) (recs'.length + 1) nb.pointers
    (by omega)
  have keys := right.keys
  have pointers := right.pointers
  rw [List.length_cons, List.length_cons] at keys pointers
  rw [keys, List.map_cons, List.tail_cons] at erased
  rw [pointers, List.map_cons, List.tail_cons] at erased'
  have first : nb.keys 0 = e.1 := right.key_at (i := 0) (by simp)
  have second : nb.keys 1 = f.1 := right.key_at (i := 1) (by simp)
  have moved : nb.pointers 0 = e.2 := right.pointer_at (i := 0) (by simp)
  have width : (recs ++ [e]).length = recs.length + 1 := by simp
  refine ⟨{ n with
      keys := Function.update n.keys recs.length e.1
      pointers := Function.update n.pointers recs.length e.2, numKeys := recs.length + 1 },
    { nb with keys := k, pointers := p, numKeys := recs'.length + 1 }, ?_,
    ⟨left.tag, by omega, width.symm, ?_, ?_, ?_⟩,
    ⟨right.tag, by rw [List.length_cons]; omega, rfl, erased, erased', ?_⟩, rfl, rfl⟩
  · rw [rotateLeafLeft]
    simp only [left.count, count]
    rw [read_array _ (by omega), Exec.ok_bind, first, write_array n.keys _ (by omega), Exec.ok_bind,
      read_array _ (by omega), Exec.ok_bind, moved, write_array n.pointers _ (by omega), Exec.ok_bind,
      read_array _ (by omega), Exec.ok_bind, second, shift, Exec.ok_bind, shift', Exec.ok_bind]
    rfl
  · rw [width, shown_update_last, left.keys, List.map_append]
    rfl
  · rw [width, shown_update_last, left.pointers, List.map_append]
    rfl
  · show Function.update n.pointers recs.length e.2 (order - 1) = mid
    rw [Function.update_of_ne (by omega), left.next]
  · show p (order - 1) = next
    rw [behind _ (by omega), right.next]

theorem rotateNodeRight_spec {l r : Theory.Node Key Ptr} {c : Ptr} {k : Key}
    (left : InnerNode order nb (Theory.Node.join l k ⟨c, []⟩)) (right : InnerNode order n r) (kPrime : Key)
    (room : r.size < order - 1) :
    ∃ n' nb', rotateNodeRight order n nb kPrime = .ok (n', nb', k) ∧
      InnerNode order n' (Theory.Node.join ⟨c, []⟩ kPrime r) ∧ InnerNode order nb' l ∧ n'.pointers 0 = c ∧
      n'.parent = n.parent ∧ nb'.parent = nb.parent := by
  have width : (Theory.Node.join l k ⟨c, []⟩).size = l.size + 1 :=
    Theory.Node.size_join _ _ _
  have fits := left.fits
  have count := left.count
  have keys := left.keys
  have pointers := left.pointers
  rw [width] at fits count keys pointers
  rw [shown_succ, Theory.Node.seps_join] at keys
  rw [shown_succ, Theory.Node.children_join] at pointers
  obtain ⟨keys, lastKey⟩ := List.append_inj' keys rfl
  obtain ⟨pointers, lastPointer⟩ := List.append_inj' pointers rfl
  have lastKey : nb.keys l.size = k := by simpa using lastKey
  have lastPointer : nb.pointers (l.size + 1) = c := by simpa using lastPointer
  obtain ⟨q, shift, inserted, -⟩ := moveUp_front (c := order - 1) n.keys room
  obtain ⟨p, shift', inserted', behind⟩ := moveUp_front (c := order)
    (Function.update n.pointers (r.size + 1) (n.pointers r.size)) (show r.size < order by omega)
  have size : (Theory.Node.join ⟨c, []⟩ kPrime r).size = r.size + 1 := by
    rw [Theory.Node.size_join]
    exact congrArg (· + 1) (Nat.zero_add _)
  refine ⟨{ n with
      keys := Function.update q 0 kPrime, pointers := Function.update p 0 c, numKeys := r.size + 1 },
    { nb with pointers := Function.update nb.pointers (l.size + 1) null, numKeys := l.size }, ?_,
    ⟨right.tag, by omega, size.symm, ?_, ?_⟩, ⟨left.tag, by omega, rfl, keys, ?_⟩,
    ?_, rfl, rfl⟩
  · rw [rotateNodeRight]
    simp only [right.count, count, Nat.add_sub_cancel]
    rw [read_array _ (by omega), Exec.ok_bind, write_array n.pointers _ (by omega), Exec.ok_bind, shift,
      Exec.ok_bind, shift', Exec.ok_bind, read_array _ (by omega), Exec.ok_bind, lastPointer,
      write_array p _ (by omega), Exec.ok_bind, write_array nb.pointers _ (by omega), Exec.ok_bind,
      write_array q _ (by omega), Exec.ok_bind, read_array _ (by omega), Exec.ok_bind, lastKey]
    rfl
  · rw [size, inserted, right.keys, Theory.Node.seps_join]
    rfl
  · have last : Function.update p 0 c (r.size + 1) = n.pointers r.size := by
      rw [Function.update_of_ne (Nat.succ_ne_zero _), behind _ (Nat.lt_succ_self _), Function.update_self]
    have pointers' : shown (Function.update p 0 c) (r.size + 1 + 1) = c :: r.children := by
      rw [shown_succ, inserted', last, shown_update_of_le n.pointers _ (Nat.le_succ _), List.cons_append,
        ← shown_succ, right.pointers]
    rw [size, Theory.Node.children_join]
    exact pointers'
  · rw [shown_update_of_le nb.pointers _ (Nat.le_refl _), pointers]
  · exact Function.update_self (0 : Nat) c p

theorem rotateNodeLeft_spec {l r : Theory.Node Key Ptr} {c : Ptr} {k : Key}
    (left : InnerNode order n l) (right : InnerNode order nb (Theory.Node.join ⟨c, []⟩ k r)) (kPrime : Key)
    (room : l.size < order - 1) :
    ∃ n' nb', rotateNodeLeft order n nb kPrime = .ok (n', nb', k) ∧
      InnerNode order n' (Theory.Node.join l kPrime ⟨c, []⟩) ∧ InnerNode order nb' r ∧
      n'.pointers n'.numKeys = c ∧ n'.parent = n.parent ∧ nb'.parent = nb.parent := by
  have width : (Theory.Node.join ⟨c, []⟩ k r).size = r.size + 1 := by
    rw [Theory.Node.size_join]
    exact congrArg (· + 1) (Nat.zero_add _)
  have size : (Theory.Node.join l kPrime ⟨c, []⟩).size = l.size + 1 :=
    Theory.Node.size_join _ _ _
  have fits := right.fits
  have count := right.count
  have keys := right.keys
  have pointers := right.pointers
  rw [width] at fits count keys pointers
  rw [Theory.Node.seps_join] at keys
  rw [Theory.Node.children_join] at pointers
  have first : nb.keys 0 = k := get_of_shown keys (i := 0) (by simp)
  have moved : nb.pointers 0 = c := get_of_shown pointers (i := 0) (by simp)
  obtain ⟨q, shift, erased, -⟩ := moveDown_front (c := order - 1) r.size nb.keys fits
  obtain ⟨p, shift', erased', -⟩ := moveDown_front (c := order) (r.size + 1) nb.pointers (by omega)
  refine ⟨{ n with
      keys := Function.update n.keys l.size kPrime
      pointers := Function.update n.pointers (l.size + 1) c, numKeys := l.size + 1 },
    { nb with keys := q, pointers := p, numKeys := r.size }, ?_,
    ⟨left.tag, by omega, size.symm, ?_, ?_⟩, ⟨right.tag, by omega, rfl, ?_, ?_⟩,
    ?_, rfl, rfl⟩
  · rw [rotateNodeLeft]
    simp only [left.count, count, Nat.add_sub_cancel]
    rw [write_array n.keys _ (by omega), Exec.ok_bind, read_array _ (by omega), Exec.ok_bind, moved,
      write_array n.pointers _ (by omega), Exec.ok_bind, read_array _ (by omega), Exec.ok_bind, first,
      shift, Exec.ok_bind, shift', Exec.ok_bind]
    rfl
  · rw [size, shown_update_last, left.keys, Theory.Node.seps_join]
    rfl
  · rw [size, shown_update_last, left.pointers, Theory.Node.children_join]
    rfl
  · rw [erased, keys]
    rfl
  · rw [erased', pointers]
    rfl
  · exact Function.update_self (l.size + 1) c n.pointers

end SimpleDatabase.InMemory
