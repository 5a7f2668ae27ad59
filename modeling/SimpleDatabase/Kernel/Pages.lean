/- Kernel.Pages -- what the page functions do to the page's content

`LeafPage p recs` and `NodePage p n` say what a page holds: a list of records, or
a node of child page numbers.  Each function that works on one page in memory has
one specification here, in these terms: a scan is a `findIdx`, a shift with a
write is an insertion, a shift alone is a deletion, the descent step is `focus`.
-/
import SimpleDatabase.Theory.Node
import SimpleDatabase.Project5.IndexManager.Delete
import SimpleDatabase.Project5.IndexManager.Find

namespace SimpleDatabase.Kernel

open SimpleDatabase.Theory SimpleDatabase.Project5 Page

set_option autoImplicit false

/-- The page is a leaf with the records `recs`. -/
structure LeafPage (p : Page) (recs : List LeafRecord) : Prop where
  tag : p.isLeaf = 1
  records : p.leafRecords = recs
  fits : recs.length ≤ maxLeafKey

/-- The node an internal page holds. -/
def nodeOf (p : Page) : Node Key Pgnum := ⟨p.leftPgnum, p.internalRecords⟩

/-- The page is internal and holds the node `n`. -/
structure NodePage (p : Page) (n : Node Key Pgnum) : Prop where
  tag : p.isLeaf = 0
  node : nodeOf p = n
  fits : n.size ≤ maxInternalKey

namespace LeafPage

variable {p : Page} {recs : List LeafRecord}

theorem numofkeys (leaf : LeafPage p recs) : p.numofkeys = recs.length := by
  rw [← leaf.records, leafRecords_length]

theorem length_le (leaf : LeafPage p recs) : recs.length ≤ 31 := leaf.fits

theorem view (leaf : LeafPage p recs) : leafRecord.view p p.numofkeys = recs := leaf.records

theorem get (leaf : LeafPage p recs) {i : Nat} (inside : i < recs.length) :
    leafRecord.get p i = recs[i] := by
  have same := leaf.view
  subst same
  simp

/-- A leaf from its header and its slots. -/
theorem of_slots (tag : p.isLeaf = 1) (count : p.numofkeys = recs.length)
    (fits : recs.length ≤ maxLeafKey)
    (slots : ∀ i (h : i < recs.length), leafRecord.get p i = recs[i]) : LeafPage p recs :=
  ⟨tag, leafRecord.view_eq count.symm slots, fits⟩

end LeafPage

namespace NodePage

variable {p : Page} {n : Node Key Pgnum}

theorem size_le (node : NodePage p n) : n.size ≤ 248 := node.fits

theorem records (node : NodePage p n) : internalRecord.view p p.numofkeys = n.recs :=
  congrArg Node.recs node.node

theorem left (node : NodePage p n) : p.leftPgnum = n.left := congrArg Node.left node.node

theorem numofkeys (node : NodePage p n) : p.numofkeys = n.size := by
  rw [Node.size, ← node.records, Slots.view_length]

theorem get (node : NodePage p n) {i : Nat} (inside : i < n.recs.length) :
    internalRecord.get p i = n.recs[i] := by
  have same := node.records
  revert inside
  rw [← same]
  intro inside
  simp

theorem get_of_getElem? (node : NodePage p n) {i : Nat} {r : InternalRecord}
    (there : n.recs[i]? = some r) : internalRecord.get p i = r := by
  obtain ⟨inside, same⟩ := List.getElem?_eq_some_iff.mp there
  rw [node.get inside, same]

theorem read (node : NodePage p n) {i : Nat} {r : InternalRecord}
    (there : n.recs[i]? = some r) : internalRecord.read p i = .ok r := by
  have inside : i < n.size := (List.getElem?_eq_some_iff.mp there).1
  have fits := node.size_le
  rw [Slots.read_ok _ (show i < internalRecord.cap by simp; omega), node.get_of_getElem? there]

/-- An internal page from its header and its slots. -/
theorem of_slots (tag : p.isLeaf = 0) (left : p.leftPgnum = n.left)
    (count : p.numofkeys = n.size) (fits : n.size ≤ maxInternalKey)
    (slots : ∀ i (h : i < n.recs.length), internalRecord.get p i = n.recs[i]) :
    NodePage p n := by
  refine ⟨tag, ?_, fits⟩
  have records : p.internalRecords = n.recs := internalRecord.view_eq count.symm slots
  rw [nodeOf, left, records]

/-- What a node holds does not depend on its parent. -/
theorem reparent (node : NodePage p n) (parent : Pgnum) :
    NodePage { p with parentPgnum := parent } n :=
  ⟨node.tag, node.node, node.fits⟩

end NodePage

/-! ## Finding -/

/-- `find_value` gives the value of the first record with the key. -/
theorem findValue_eq {p : Page} {recs : List LeafRecord} (leaf : LeafPage p recs) (key : Key) :
    findValue p key = .ok ((recs.find? fun r => r.1 = key).map Prod.snd) := by
  have count := leaf.numofkeys
  have scan := leafRecord.find_eq p (fun r => r.1 = key) p.numofkeys
    (by rw [count]; exact leaf.fits)
  rw [leaf.view] at scan
  simp only [findValue, scan, Exec.ok_bind]
  rw [count, List.find?_eq_getElem?_findIdx]
  by_cases absent : recs.findIdx (fun r => r.1 = key) = recs.length
  · rw [if_pos absent, List.getElem?_eq_none absent.ge]
    rfl
  · have inside : recs.findIdx (fun r => r.1 = key) < recs.length :=
      lt_of_le_of_ne List.findIdx_le_length absent
    have fits := leaf.length_le
    rw [if_neg absent, Slots.read_ok _ (show _ < leafRecord.cap by simp; omega), Exec.ok_bind,
      leaf.get inside, List.getElem?_eq_getElem inside]
    rfl

/-- The descent step of `find_leaf_page` is the focus of the search. -/
theorem childFor_eq {p : Page} {n : Node Key Pgnum} (node : NodePage p n) (key : Key)
    (pos : 1 ≤ n.size) : childFor p key = .ok (n.focus key).2.1 := by
  have fits := node.size_le
  have count := node.numofkeys
  obtain ⟨m, size⟩ : ∃ m, p.numofkeys = m + 1 := ⟨p.numofkeys - 1, by omega⟩
  have first : internalRecord.read p 0 = .ok (internalRecord.get p 0) :=
    Slots.read_ok _ (show 0 < internalRecord.cap by simp)
  have scan := internalRecord.find_eq p (fun r => key < r.1) p.numofkeys (by rw [count]; exact fits)
  rw [node.records] at scan
  have child := n.focus_child key
  simp only [childFor, first, Exec.ok_bind]
  rw [size, Slots.find, first, Exec.ok_bind] at scan
  by_cases stop : key < (internalRecord.get p 0).1
  · -- the scan stops at once, and the child is the leftmost one
    rw [if_pos (by simpa using stop)] at scan
    rw [← Except.ok.inj scan] at child
    rw [if_pos stop, node.left]
    exact congrArg _ (Option.some.inj child)
  · rw [if_neg (by simpa using stop)] at scan
    rw [if_neg stop, size, Nat.add_sub_cancel, scan, Exec.ok_bind]
    obtain ⟨j, found⟩ : ∃ j, n.recs.findIdx (fun r => key < r.1) = j + 1 := by
      refine ⟨n.recs.findIdx (fun r => key < r.1) - 1, ?_⟩
      obtain ⟨i, run, low, -⟩ := internalRecord.find_spec p (fun r => key < r.1) (0 + 1) m
        (by simp; omega)
      rw [scan] at run
      exact (Nat.sub_add_cancel (Except.ok.inj run ▸ low)).symm
    have inside : j < n.recs.length := by
      have bound := @List.findIdx_le_length _ (fun r : InternalRecord => decide (key < r.1)) n.recs
      rw [found] at bound
      omega
    rw [found] at child ⊢
    have record : n.recs[j]? = some n.recs[j] := List.getElem?_eq_getElem inside
    rw [Node.children, List.getElem?_cons_succ, List.getElem?_map, record] at child
    rw [Nat.add_sub_cancel, node.read record, Exec.ok_bind]
    exact congrArg _ (Option.some.inj child)

/-! ## Inserting into a page -/

theorem insertIntoLeaf_spec {p : Page} {recs : List LeafRecord} (leaf : LeafPage p recs)
    (key : Key) (value : Value) (room : recs.length < maxLeafKey) :
    ∃ p', insertIntoLeaf p key value = .ok p' ∧
      LeafPage p' (recs.insertIdx (recs.findIdx fun r => ¬ r.1 < key) (key, value)) ∧
      p'.toHeader = { p.toHeader with numofkeys := p.numofkeys + 1 } := by
  have room : recs.length < 31 := room
  have count := leaf.numofkeys
  have scan := leafRecord.find_eq p (fun r => ¬ r.1 < key) p.numofkeys
    (by simp only [leafRecord_cap]; omega)
  rw [leaf.view] at scan
  obtain ⟨i, hi⟩ : ∃ i, i = recs.findIdx fun r => ¬ r.1 < key := ⟨_, rfl⟩
  have bound : i ≤ p.numofkeys := by
    rw [count, hi]
    exact List.findIdx_le_length
  obtain ⟨q, shift, same, records⟩ := leafRecord.moveUp_insert p (key, value) bound
    (by simp only [leafRecord_cap]; omega)
  have same : q.toHeader = p.toHeader := same
  have unchanged : (leafRecord.put q i (key, value)).numofkeys = p.numofkeys :=
    congrArg Header.numofkeys same
  refine ⟨{ leafRecord.put q i (key, value) with numofkeys := p.numofkeys + 1 }, ?_, ⟨?_, ?_, ?_⟩, ?_⟩
  · simp only [insertIntoLeaf, scan, ← hi, shift, Exec.ok_bind, Exec.pure_eq_ok]
    rw [Slots.write_ok _ (show i < leafRecord.cap by simp; omega), Exec.ok_bind, unchanged]
  · exact (congrArg Header.isLeaf same).trans leaf.tag
  · rw [← hi, ← leaf.view]
    exact records
  · rw [← hi, List.length_insertIdx, if_pos (count ▸ bound)]
    exact room
  · exact congrArg (fun h : Header => { h with numofkeys := p.numofkeys + 1 }) same

theorem insertIntoNode_spec {p : Page} {n : Node Key Pgnum} (node : NodePage p n) {i : Nat}
    (key : Key) (right : Pgnum) (inside : i ≤ n.size) (room : n.size < maxInternalKey) :
    ∃ p', insertIntoNode p i key right = .ok p' ∧ NodePage p' (n.insertAt i key right) ∧
      p'.toHeader = { p.toHeader with numofkeys := p.numofkeys + 1 } := by
  have room : n.size < 248 := room
  have count := node.numofkeys
  obtain ⟨q, shift, same, records⟩ := internalRecord.moveUp_insert p (key, right)
    (show i ≤ p.numofkeys by omega) (by simp only [internalRecord_cap]; omega)
  have same : q.toHeader = p.toHeader := same
  have unchanged : (internalRecord.put q i (key, right)).numofkeys = p.numofkeys :=
    congrArg Header.numofkeys same
  refine ⟨{ internalRecord.put q i (key, right) with numofkeys := p.numofkeys + 1 }, ?_,
    ⟨?_, ?_, ?_⟩, ?_⟩
  · simp only [insertIntoNode, shift, Exec.ok_bind, Exec.pure_eq_ok]
    rw [Slots.write_ok _ (show i < internalRecord.cap by simp; omega), Exec.ok_bind, unchanged]
  · exact (congrArg Header.isLeaf same).trans node.tag
  · have left : q.leftPgnum = n.left := (congrArg Header.nextPgnum same).trans node.left
    rw [node.records] at records
    exact congrArg₂ Node.mk left records
  · simp only [Node.size, Node.insertAt, List.length_insertIdx] at inside room ⊢
    rw [if_pos inside]
    exact room
  · exact congrArg (fun h : Header => { h with numofkeys := p.numofkeys + 1 }) same

/-! ## Deleting from a page -/

/-- The scan for a key that is there stops inside the page. -/
theorem LeafPage.seek_inside {p : Page} {recs : List LeafRecord} (leaf : LeafPage p recs) {key : Key}
    (held : ∃ r ∈ recs, r.1 = key) :
    ∃ i, i < p.numofkeys ∧ leafRecord.seek p (fun r => r.1 = key) = .ok i := by
  have fits := leaf.length_le
  obtain ⟨found, inside⟩ := leafRecord.seek_eq p (fun r => r.1 = key) p.numofkeys
    (by rw [leaf.numofkeys]; exact fits) (by simpa only [leaf.view, decide_eq_true_eq] using held)
  exact ⟨_, inside, found⟩

theorem NodePage.seek_inside {p : Page} {n : Node Key Pgnum} (node : NodePage p n) {key : Key}
    (held : ∃ r ∈ n.recs, r.1 = key) :
    ∃ i, i < p.numofkeys ∧ internalRecord.seek p (fun r => r.1 = key) = .ok i := by
  have fits := node.size_le
  obtain ⟨found, inside⟩ := internalRecord.seek_eq p (fun r => r.1 = key) p.numofkeys
    (by rw [node.numofkeys]; exact fits) (by simpa only [node.records, decide_eq_true_eq] using held)
  exact ⟨_, inside, found⟩

theorem removeEntry_leaf {p : Page} {recs : List LeafRecord} (leaf : LeafPage p recs) {key : Key}
    (held : ∃ r ∈ recs, r.1 = key) :
    ∃ p', removeEntryFromPage p key = .ok p' ∧
      LeafPage p' (recs.eraseIdx (recs.findIdx fun r => r.1 = key)) ∧
      p'.toHeader = { p.toHeader with numofkeys := p.numofkeys - 1 } := by
  have count := leaf.numofkeys
  have fits := leaf.length_le
  obtain ⟨i, q, scan, inside, shift, same, records⟩ :=
    leafRecord.seek_erase p (fun r => r.1 = key) (n := p.numofkeys)
      (by simp only [leafRecord_cap]; omega) (by simpa only [leaf.view, decide_eq_true_eq] using held)
  have same : q.toHeader = p.toHeader := same
  rw [leaf.view] at records
  refine ⟨{ q with numofkeys := p.numofkeys - 1 }, ?_, ⟨?_, records, ?_⟩, ?_⟩
  · simp only [removeEntryFromPage, leaf.tag, if_true, scan, shift, Exec.ok_bind, Exec.pure_eq_ok,
      congrArg Header.numofkeys same]
  · exact (congrArg Header.isLeaf same).trans leaf.tag
  · exact (List.length_eraseIdx_le _ _).trans fits
  · exact congrArg (fun h : Header => { h with numofkeys := p.numofkeys - 1 }) same

/-- `remove_entry_from_page` on an internal page takes out the record with the
separator, and with it the child after the separator. -/
theorem removeEntry_node {p : Page} {pre : List (Pgnum × Key)} {c : Pgnum} {key : Key}
    {d : Pgnum} {post : List InternalRecord} (node : NodePage p (Node.plug pre c ((key, d) :: post)))
    (distinct : (Node.plug pre c ((key, d) :: post)).seps.Nodup) :
    ∃ p', removeEntryFromPage p key = .ok p' ∧ NodePage p' (Node.plug pre c post) ∧
      p'.toHeader = { p.toHeader with numofkeys := p.numofkeys - 1 } := by
  have count := node.numofkeys
  have fits := node.size_le
  have here := Node.recs_plug_getElem? pre c ((key, d) :: post) 0
  obtain ⟨i, q, scan, inside, shift, same, records⟩ :=
    internalRecord.seek_erase p (fun r => r.1 = key) (n := p.numofkeys)
      (by simp only [internalRecord_cap]; omega)
      ⟨(key, d), by rw [node.records]; exact List.mem_of_getElem? here, by simp⟩
  have same : q.toHeader = p.toHeader := same
  rw [node.records, Node.recs_findIdx_plug distinct] at records
  have erased := Node.eraseAt_plug pre c key d post
  refine ⟨{ q with numofkeys := p.numofkeys - 1 }, ?_, ⟨?_, ?_, ?_⟩, ?_⟩
  · simp only [removeEntryFromPage, node.tag, Nat.zero_ne_one, if_false, scan, shift, Exec.ok_bind,
      Exec.pure_eq_ok, congrArg Header.numofkeys same]
  · exact (congrArg Header.isLeaf same).trans node.tag
  · have left : q.leftPgnum = (Node.plug pre c ((key, d) :: post)).left :=
      (congrArg Header.nextPgnum same).trans node.left
    rw [← erased]
    exact congrArg₂ Node.mk left records
  · have : (Node.plug pre c ((key, d) :: post)).size ≤ 248 := fits
    rw [Node.size_plug, List.length_cons] at this
    rw [Node.size_plug]
    show _ ≤ 248
    omega
  · exact congrArg (fun h : Header => { h with numofkeys := p.numofkeys - 1 }) same

/-! ## Changing a separator -/

theorem setSeparator_spec {p : Page} {pre : List (Pgnum × Key)} {c : Pgnum} {k : Key} {d : Pgnum}
    {post : List InternalRecord} (node : NodePage p (Node.plug pre c ((k, d) :: post))) (k' : Key) :
    ∃ p', setSeparator p pre.length k' = .ok p' ∧
      NodePage p' (Node.plug pre c ((k', d) :: post)) ∧ p'.toHeader = p.toHeader := by
  have fits := node.size_le
  have here : (Node.plug pre c ((k, d) :: post)).recs[pre.length]? = some (k, d) :=
    Node.recs_plug_getElem? pre c ((k, d) :: post) 0
  have inside : pre.length < internalRecord.cap := by
    rw [Node.size_plug, List.length_cons] at fits
    simp only [internalRecord_cap]
    omega
  refine ⟨internalRecord.put p pre.length (k', d), ?_, ⟨node.tag, ?_, ?_⟩, rfl⟩
  · simp only [setSeparator, node.read here, Exec.ok_bind]
    exact Slots.write_ok _ inside
  · have records := internalRecord.view_put p p.numofkeys pre.length (k', d)
    rw [node.records, Node.recs_plug_set] at records
    have left := node.left.trans (Node.left_plug_congr pre c ((k, d) :: post) ((k', d) :: post))
    exact congrArg₂ Node.mk left records
  · rw [Node.size_plug] at fits ⊢
    exact fits

/-! ## Neighbours in a parent -/

section Neighbours

variable {p : Page} {pre : List (Pgnum × Key)} {c : Pgnum} {post : List InternalRecord}

/-- Searching a parent's records for a child finds it one before its index among
the children, and past the end when it is the leftmost. -/
theorem find_child (node : NodePage p (Node.plug pre c post))
    (distinct : (Node.plug pre c post).children.Nodup) :
    internalRecord.find p (fun r => r.2 = c) 0 p.numofkeys =
      .ok (if pre = [] then p.numofkeys else pre.length - 1) := by
  have count := node.numofkeys
  have fits := node.size_le
  rw [internalRecord.find_eq p _ _ (by simp only [internalRecord_cap]; omega), node.records]
  have index := Node.children_findIdx_plug distinct
  rw [Node.children_findIdx] at index
  congr 1
  cases pre with
  | nil =>
      -- no record lists the leftmost child
      have absent : c ∉ post.map Prod.snd := (List.nodup_cons.mp distinct).1
      rw [if_pos rfl, count, Node.size, List.findIdx_eq_length]
      intro r member
      simpa using fun same : r.2 = c => absent (same ▸ List.mem_map_of_mem member)
  | cons e pre =>
      have other : (Node.plug (e :: pre) c post).left ≠ c := fun same => by
        rw [if_pos same] at index
        simp at index
      rw [if_neg other] at index
      rw [if_neg (by simp)]
      simpa using index

theorem getRightIndex_eq (node : NodePage p (Node.plug pre c post))
    (distinct : (Node.plug pre c post).children.Nodup) : getRightIndex p c = .ok pre.length := by
  have count := node.numofkeys
  rw [Node.size_plug] at count
  simp only [getRightIndex, find_child node distinct, Exec.ok_bind, Exec.pure_eq_ok]
  cases pre with
  | nil => simp
  | cons e pre =>
      rw [List.length_cons] at count
      simp only [reduceCtorEq, if_false, List.length_cons, Nat.add_sub_cancel]
      rw [if_neg (by omega)]

/-- A child with a right neighbour: the index of the record that lists it ... -/
theorem getNeighborIndex_right {k : Key} {d : Pgnum}
    (node : NodePage p (Node.plug pre c ((k, d) :: post)))
    (distinct : (Node.plug pre c ((k, d) :: post)).children.Nodup) :
    getNeighborIndex p c = .ok (pre.length : Int) := by
  have count := node.numofkeys
  rw [Node.size_plug, List.length_cons] at count
  simp only [getNeighborIndex, node.left]
  cases pre with
  | nil => simp
  | cons e pre =>
      rw [List.length_cons] at count
      have other : (Node.plug (e :: pre) c ((k, d) :: post)).left ≠ c := fun same => by
        have index := Node.children_findIdx_plug distinct
        rw [Node.children_findIdx, if_pos same] at index
        simp at index
      have scan := find_child node distinct
      rw [if_neg (List.cons_ne_nil e pre), List.length_cons, Nat.add_sub_cancel] at scan
      rw [if_neg other, scan, Exec.ok_bind, if_neg (by omega), if_neg (by omega)]
      rfl

/-- ... and -1 for the last child. -/
theorem getNeighborIndex_last {d : Pgnum} {k : Key}
    (node : NodePage p (Node.plug pre d [(k, c)]))
    (distinct : (Node.plug pre d [(k, c)]).children.Nodup) :
    getNeighborIndex p c = .ok (-1) := by
  have shift : Node.plug pre d [(k, c)] = Node.plug (pre ++ [(d, k)]) c [] :=
    Node.plug_shift pre d k c []
  rw [shift] at node distinct
  have count := node.numofkeys
  rw [Node.size_plug, List.length_append] at count
  have other : (Node.plug (pre ++ [(d, k)]) c []).left ≠ c := fun same => by
    have index := Node.children_findIdx_plug distinct
    rw [Node.children_findIdx, if_pos same] at index
    simp at index
  have scan := find_child node distinct
  rw [if_neg (by simp), List.length_append, List.length_singleton, Nat.add_sub_cancel] at scan
  simp only [List.length_singleton, List.length_nil] at count
  simp only [getNeighborIndex, node.left]
  rw [if_neg other, scan, Exec.ok_bind, if_pos (by omega)]
  rfl

/-- The packed layout lists the child at an index one less, the leftmost at -1. -/
theorem childAt_eq {bounds : Bounds} (node : NodePage p (Node.plug pre c post))
    (listed : bounds = .declared → pre ≠ []) :
    childAt bounds p ((pre.length : Int) - 1) = .ok c := by
  simp only [childAt]
  rcases List.eq_nil_or_concat pre with rfl | ⟨pre, e, rfl⟩
  · cases bounds with
    | layout => simpa using node.left
    | declared => exact absurd rfl (listed rfl)
  · have here : (Node.plug (pre ++ [e]) c post).recs[pre.length]? = some (e.2, c) := by
      have shift : Node.plug pre e.1 ((e.2, c) :: post) = Node.plug (pre ++ [e]) c post :=
        Node.plug_shift pre e.1 e.2 c post
      rw [← shift]
      simpa using Node.recs_plug_getElem? pre e.1 ((e.2, c) :: post) 0
    simp only [List.concat_eq_append, List.length_append, List.length_singleton] at node ⊢
    rw [show ((pre.length + 1 : Nat) : Int) - 1 = pre.length by omega, if_neg (by omega),
      if_neg (by omega), Int.toNat_natCast, node.read here]
    rfl

/-- The record at the index of a child is the one for its right neighbour ... -/
theorem childAt_right {bounds : Bounds} {k : Key} {d : Pgnum}
    (node : NodePage p (Node.plug pre c ((k, d) :: post))) :
    childAt bounds p (if (pre.length : Int) = -1 then (p.numofkeys : Int) - 2 else pre.length) =
      .ok d := by
  have shift := Node.plug_shift pre c k d post
  have child : childAt bounds p (((pre ++ [(c, k)]).length : Int) - 1) = .ok d :=
    childAt_eq (shift ▸ node) fun _ => by simp
  simpa using child

/-- ... and the last record but one the left neighbour of the last child, if the page has
two records. -/
theorem childAt_last {bounds : Bounds} {k : Key} {d : Pgnum}
    (node : NodePage p (Node.plug pre c [(k, d)])) (listed : bounds = .declared → pre ≠ []) :
    childAt bounds p (if (-1 : Int) = -1 then (p.numofkeys : Int) - 2 else -1) = .ok c := by
  have count := node.numofkeys
  rw [Node.size_plug, List.length_singleton] at count
  have at_ : (p.numofkeys : Int) - 2 = pre.length - 1 := by omega
  rw [if_pos rfl, at_]
  exact childAt_eq node listed

end Neighbours

end SimpleDatabase.Kernel
