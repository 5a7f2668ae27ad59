/- InMemory.Output -- what is printed of a leaf, of the leaves and of a search

The texts are functions of the tree: `keysText` of the entries of a node, `rowText` of the leaves
from left to right, `traceText` of the nodes a search goes through.
-/
import SimpleDatabase.InMemory.Ranges

namespace SimpleDatabase.InMemory

open SimpleDatabase.Theory SimpleDatabase.Bpt

set_option autoImplicit false

variable {order h : Nat} {m : Memory} {F : Multiset Cell} {parent next : Ptr} {verbose : Bool}

/-! ## One node -/

def pointerText (verbose : Bool) (p : Ptr) : Output := if verbose then [hexadecimal p ++ " "] else []

/-- Keys with the pointers in front of them. -/
def keysText (verbose : Bool) (es : List Entry) : Output :=
  es.flatMap fun e => pointerText verbose e.2 ++ [decimal e.1 ++ " "]

theorem keysText_cons (e : Entry) (es : List Entry) :
    keysText verbose (e :: es) = pointerText verbose e.2 ++ (decimal e.1 ++ " ") :: keysText verbose es := by
  simp [keysText]

theorem keysText_plain (es : List Entry) : keysText false es = es.map fun e => decimal e.1 ++ " " :=
  List.map_eq_flatMap.symm

/-- The keys of an inner node, each with the child in front of it. -/
def childEntries (nd : Theory.Node Key Ptr) : List Entry := nd.seps.zip nd.children

section Node

variable {n : Bpt.Node} {recs : List Entry} {nd : Theory.Node Key Ptr}

theorem printPointer_eq {i : Nat} (inside : i < order) :
    printPointer order verbose n i = .ok (pointerText verbose (n.pointers i)) := by
  cases verbose with
  | false => rfl
  | true =>
      rw [printPointer, if_pos rfl, read_array _ inside]
      rfl

theorem printKeys_eq {es : List Entry} {i : Nat} (fits : i + es.length ≤ order - 1)
    (listed : ∀ j (inside : j < es.length), n.keys (i + j) = es[j].1 ∧ (verbose → n.pointers (i + j) = es[j].2)) :
    printKeys order verbose n i es.length = .ok (keysText verbose es) := by
  induction es generalizing i with
  | nil => rfl
  | cons e es ih =>
      rw [List.length_cons] at fits
      obtain ⟨key, pointer⟩ := listed 0 (Nat.succ_pos _)
      have first : pointerText verbose (n.pointers i) = pointerText verbose e.2 := by
        cases verbose with
        | false => rfl
        | true => exact congrArg _ (pointer rfl)
      rw [List.length_cons, printKeys, printPointer_eq (by omega), Exec.ok_bind, read_array _ (by omega),
        Exec.ok_bind, first, show n.keys i = e.1 from key, ih (by omega) fun j inside => ?_]
      · rw [keysText_cons]
        rfl
      · rw [Nat.add_right_comm]
        exact listed (j + 1) (Nat.succ_lt_succ inside)

theorem LeafNode.printKeys (leaf : LeafNode order n next recs) (verbose : Bool) :
    printKeys order verbose n 0 n.numKeys = .ok (keysText verbose recs) := by
  rw [leaf.count]
  refine printKeys_eq (by rw [zero_add]; exact leaf.fits) fun j inside => ?_
  rw [zero_add]
  exact ⟨leaf.key_at inside, fun _ => leaf.pointer_at inside⟩

theorem childEntries_length (nd : Theory.Node Key Ptr) : (childEntries nd).length = nd.size := by
  rw [childEntries, List.length_zip, Theory.Node.seps_length, Theory.Node.children_length]
  omega

theorem InnerNode.printKeys (inner : InnerNode order n nd) (verbose : Bool) :
    printKeys order verbose n 0 n.numKeys = .ok (keysText verbose (childEntries nd)) := by
  have length := childEntries_length nd
  rw [inner.count, ← length]
  refine printKeys_eq (by rw [zero_add, length]; exact inner.fits) fun j inside => ?_
  have seps : j < nd.seps.length := by rw [Theory.Node.seps_length]; omega
  have children : j < nd.children.length := by rw [Theory.Node.children_length]; omega
  simp only [zero_add, childEntries, List.getElem_zip]
  exact ⟨inner.key_at seps, fun _ => inner.pointer_at children⟩

end Node

/-! ## The leaves -/

/-- What `print_leaves` prints of leaves in a row. -/
def rowText (verbose : Bool) : List (Tree 0) → Output
  | [] => []
  | l :: ls =>
      keysText verbose (l.recs.map entry) ++ pointerText verbose ((ls.map Paged.pg).headD null) ++
        if ls = [] then [] else " | " :: rowText verbose ls

/-- The way to the first leaf, one round for each level. -/
theorem firstLeaf_spec (holds : Holds order m F) (order_pos : 1 ≤ order) {s : Tree h}
    (inside : cells parent next s ≤ F) {fuel : Nat} (enough : h < fuel) :
    firstLeaf order m fuel s.pg = .ok (s.firstLeaf, h) := by
  induction h generalizing parent next fuel with
  | zero =>
      obtain ⟨fuel, rfl⟩ := Nat.exists_eq_add_of_le' enough
      obtain ⟨n, there, leaf, -⟩ := node_leaf holds (Multiset.mem_of_le inside (root_mem s))
      rw [firstLeaf, there, Exec.ok_bind, if_pos leaf.tag]
      rfl
  | succ h ih =>
      obtain ⟨fuel, rfl⟩ := Nat.exists_eq_add_of_le' (Nat.one_le_of_lt enough)
      obtain ⟨n, there, inner, -⟩ := node_inner holds (Multiset.mem_of_le inside (root_mem s))
      obtain ⟨next', below⟩ : ∃ next', cells s.pg next' s.root.left ≤ cells parent next s :=
        cells_child List.mem_cons_self
      have first : n.pointers 0 = s.root.left.pg := inner.pointer_at (i := 0) (Nat.succ_pos _)
      rw [firstLeaf, there, Exec.ok_bind, if_neg (by rw [inner.tag]; decide), read_array _ (by omega), Exec.ok_bind,
        first, ih (below.trans inside) (Nat.lt_of_succ_lt_succ enough)]
      rfl

theorem printLeavesLoop_spec (holds : Holds order m F) (order_pos : 1 ≤ order) {l : Tree 0} {ls : List (Tree 0)}
    (row : Row F null (l :: ls)) {fuel : Nat} (enough : ls.length < fuel) :
    printLeavesLoop order m verbose fuel l.pg = .ok (rowText verbose (l :: ls)) := by
  induction ls generalizing l fuel with
  | nil =>
      obtain ⟨fuel, rfl⟩ := Nat.exists_eq_add_of_le' (Nat.one_le_of_lt enough)
      obtain ⟨⟨parent, member⟩, -⟩ := row
      obtain ⟨n, there, leaf, -⟩ := node_leaf holds member
      rw [printLeavesLoop, there, Exec.ok_bind, leaf.printKeys, Exec.ok_bind, printPointer_eq (by omega),
        Exec.ok_bind, read_array _ (by omega), Exec.ok_bind, leaf.next]
      simp [rowText]
  | cons l' ls ih =>
      obtain ⟨fuel, rfl⟩ := Nat.exists_eq_add_of_le' (Nat.one_le_of_lt enough)
      obtain ⟨⟨parent, member⟩, rest⟩ := row
      obtain ⟨n, there, leaf, -⟩ := node_leaf holds member
      obtain ⟨parent', member'⟩ := rest.1
      have nonNull : l'.pg ≠ null := ne_null holds member'
      rw [printLeavesLoop, there, Exec.ok_bind, leaf.printKeys, Exec.ok_bind, printPointer_eq (by omega),
        Exec.ok_bind, read_array _ (by omega), Exec.ok_bind, leaf.next, List.map_cons, List.headD_cons,
        if_pos nonNull, ih rest (by simpa using enough), Exec.ok_bind]
      rfl

/-- Without the pointers: the keys of each leaf, and bars between the leaves. -/
theorem rowText_plain (ls : List (Tree 0)) :
    rowText false ls = [" | "].intercalate (ls.map fun l => l.keys.map fun k => decimal k ++ " ") := by
  induction ls with
  | nil => rfl
  | cons l ls ih =>
      have first : keysText false (l.recs.map entry) = l.keys.map fun k => decimal k ++ " " := by
        rw [keysText_plain, keys_leaf, List.map_map, List.map_map]
        rfl
      cases ls with
      | nil => simp [rowText, first, pointerText]
      | cons l' ls =>
          rw [List.map_cons] at ih ⊢
          rw [List.map_cons, List.intercalate_cons_cons, ← ih, ← first]
          simp [rowText, pointerText]

/-! ## Searches -/

/-- Keys in brackets. -/
def bracketText (close : String) : List Key → Output
  | [] => []
  | [k] => [decimal k ++ close]
  | k :: k' :: ks => (decimal k ++ " ") :: bracketText close (k' :: ks)

/-- What `find_leaf` prints of the nodes it goes through. -/
def traceText (key : Key) : {h : Nat} → Tree h → Output
  | 0, s => "Leaf [" :: bracketText "] ->\n" s.keys
  | _ + 1, s =>
      "[" :: bracketText "] " s.root.seps ++
        (toString (s.root.seps.findIdx fun k => key < k) ++ " ->\n") :: traceText key (s.root.focus key).2.1

theorem bracketText_concat (close : String) (ks : List Key) (k : Key) :
    bracketText close (ks ++ [k]) = (ks.map fun k => decimal k ++ " ") ++ [decimal k ++ close] := by
  induction ks with
  | nil => rfl
  | cons k' ks ih =>
      cases ks with
      | nil => rfl
      | cons k'' ks => simpa [bracketText] using ih

theorem printBracket_eq {n : Bpt.Node} {ks : List Key} (close : String) (some_ : ks ≠ [])
    (fits : ks.length ≤ order - 1) (count : n.numKeys = ks.length) (keys : shown n.keys ks.length = ks) :
    printBracket order n close = .ok (bracketText close ks) := by
  obtain ⟨init, last, rfl⟩ : ∃ init last, ks = init ++ [last] := ⟨_, _, (List.dropLast_append_getLast some_).symm⟩
  have length : (init ++ [last]).length = init.length + 1 := by simp
  have here : ∀ j (inside : j < (init ++ [last]).length), n.keys j = (init ++ [last])[j] := fun j inside =>
    get_of_shown keys inside
  have front : printKeys order false n 0 (init.map fun k => ((k, null) : Entry)).length = _ :=
    printKeys_eq (by rw [List.length_map]; omega) (fun j inside => by
      rw [List.length_map] at inside
      refine ⟨?_, fun verbose => nomatch verbose⟩
      rw [zero_add, here j (by omega), List.getElem_append_left inside, List.getElem_map])
  rw [List.length_map, keysText_plain, List.map_map] at front
  have last_ : n.keys init.length = last := by rw [here _ (by omega), List.getElem_concat_length rfl]
  rw [length] at count
  rw [printBracket, count, Nat.add_sub_cancel, front, Exec.ok_bind, read_array _ (by omega), Exec.ok_bind, last_,
    bracketText_concat]
  rfl

theorem findLeafTraceLoop_spec (holds : Holds order m F) (order_pos : 1 ≤ order) {s : Tree h}
    (inside : cells parent next s ≤ F) (keyed : PageTree.Keyed s) (key : Key) {fuel : Nat} (enough : h < fuel) :
    findLeafTraceLoop order m key fuel s.pg = .ok (traceText key s) := by
  induction h generalizing parent next fuel with
  | zero =>
      obtain ⟨fuel, rfl⟩ := Nat.exists_eq_add_of_le' enough
      obtain ⟨n, there, leaf, -⟩ := node_leaf holds (Multiset.mem_of_le inside (root_mem s))
      have pos : 1 ≤ s.recs.length := keyed.pos
      have length : s.keys.length = (s.recs.map entry).length := by rw [keys_leaf, List.length_map, List.length_map]
      have keys := leaf.keys
      rw [keys_entry, ← keys_leaf, ← length] at keys
      have bracket := printBracket_eq "] ->\n" (List.length_pos_iff.mp (by rw [length, List.length_map]; exact pos))
        (length.trans_le leaf.fits) (leaf.count.trans length.symm) keys
      rw [findLeafTraceLoop, there, Exec.ok_bind, if_pos leaf.tag, bracket]
      rfl
  | succ h ih =>
      obtain ⟨fuel, rfl⟩ := Nat.exists_eq_add_of_le' (Nat.one_le_of_lt enough)
      obtain ⟨n, there, inner, -⟩ := node_inner holds (Multiset.mem_of_le inside (root_mem s))
      obtain ⟨next', below⟩ : ∃ next', cells s.pg next' (s.root.focus key).2.1 ≤ cells parent next s :=
        cells_child (s.root.focus_mem key)
      have pos : 1 ≤ s.root.size := keyed.pos
      have size : (s.root.map Paged.pg).size = s.root.size := Theory.Node.size_map _ _
      have seps : (s.root.map Paged.pg).seps = s.root.seps := Theory.Node.seps_map _ _
      have length : s.root.seps.length = (s.root.map Paged.pg).size := by rw [Theory.Node.seps_length, size]
      have keys := inner.keys
      rw [seps, ← length] at keys
      have bracket := printBracket_eq "] " (List.length_pos_iff.mp (by rw [length, size]; exact pos))
        (length.trans_le inner.fits) (inner.count.trans length.symm) keys
      have scan := find_shown (c := order - 1) n.keys (fun k => ¬ k ≤ key) inner.fits
      rw [← inner.count, inner.count, ← length, keys, length, ← inner.count] at scan
      have child := childFor_eq inner order_pos key
      rw [Theory.Node.focus_map, childFor, scan, Exec.ok_bind] at child
      have stop : s.root.seps.findIdx (fun k => decide ¬ k ≤ key) = s.root.seps.findIdx fun k => key < k := by
        simp only [not_le]
      rw [findLeafTraceLoop, there, Exec.ok_bind, if_neg (by rw [inner.tag]; decide), bracket, Exec.ok_bind, scan,
        Exec.ok_bind, child, Exec.ok_bind, stop,
        ih (below.trans inside) (keyed.child (s.root.focus_mem key)) (Nat.lt_of_succ_lt_succ enough)]
      rfl

/-! ## Of a whole tree -/

def foundText (key : Key) : Option Item → Output
  | none => ["Record not found under key " ++ decimal key ++ ".\n"]
  | some r =>
      ["Record at " ++ hexadecimal r.2.1 ++ " -- key " ++ decimal key ++ ", value " ++ decimal r.2.2 ++ ".\n"]

def rangeText (found : List Item) : Output :=
  if found = [] then ["None found.\n"]
  else found.map fun r =>
    "Key: " ++ decimal r.1 ++ "   Location: " ++ hexadecimal r.2.1 ++ "  Value: " ++ decimal r.2.2 ++ "\n"

namespace Whole

def traceText (T : Whole) (verbose : Bool) (key : Key) : Output :=
  if verbose then T.elim ["Empty tree.\n"] fun t => InMemory.traceText key t.2 else []

def leavesText (T : Whole) (verbose : Bool) : Output :=
  T.elim ["Empty tree.\n"] fun t => rowText verbose t.2.leaves ++ ["\n"]

end Whole

namespace Stored

variable {wide : 3 ≤ order} {root : Ptr} {T : Whole} {R : Multiset Cell}

theorem root_ne_null {t : Σ h, Tree h} (stored : Stored order wide m root (some t) R) :
    Whole.root (some t) ≠ null :=
  ne_null stored.holds (Multiset.mem_add.mpr (.inl (root_mem t.2)))

/-- **`print_leaves`** prints the entries of the leaves from left to right. -/
theorem printLeaves (stored : Stored order wide m root T R) (verbose : Bool) :
    Returns (fun fuel => Bpt.printLeaves order m verbose fuel root) (T.leavesText verbose) := by
  cases T with
  | none =>
      rw [stored.root]
      exact .of_forall fun _ => rfl
  | some t =>
      have inside : cells null null t.2 ≤ Whole.blocks (some t) + R := Multiset.le_add_right _ _
      have row := row_leaves t.2 null null inside
      obtain ⟨rest, first⟩ : ∃ rest, t.2.leaves.map Paged.pg = t.2.firstLeaf :: rest := PageTree.leafPages_head t.2
      obtain ⟨l, ls, split, page, -⟩ := List.map_eq_cons_iff.mp first
      refine ⟨max (t.1 + 1) (ls.length + 1), fun fuel enough => ?_⟩
      rw [split] at row
      show Bpt.printLeaves order m verbose fuel root = _
      rw [stored.root, Bpt.printLeaves, if_neg stored.root_ne_null, Whole.root,
        firstLeaf_spec stored.holds (by omega) inside (by omega), Exec.ok_bind]
      simp only
      rw [← page, printLeavesLoop_spec stored.holds (by omega) row (by omega), Whole.leavesText, Option.elim_some,
        split]
      rfl

theorem findLeafTrace (stored : Stored order wide m root T R) (verbose : Bool) (key : Key) {fuel : Nat}
    (enough : T.levels ≤ fuel) :
    Bpt.findLeafTrace order m verbose fuel root key = .ok (T.traceText verbose key) := by
  cases verbose with
  | false => rfl
  | true =>
      cases T with
      | none =>
          rw [stored.root]
          rfl
      | some t =>
          have keyed := (stored.valid t rfl).keyed
          rw [stored.root, Bpt.findLeafTrace, if_neg (by simp), if_neg stored.root_ne_null, Whole.root,
            findLeafTraceLoop_spec stored.holds (by omega) (Multiset.le_add_right _ _) keyed key enough]
          rfl

/-- **`find_and_print`** -/
theorem findAndPrint (stored : Stored order wide m root T R) (verbose : Bool) (key : Key) {fuel : Nat}
    (enough : T.levels ≤ fuel) :
    Bpt.findAndPrint order m verbose fuel root key = .ok (T.traceText verbose key ++ foundText key (T.item key)) := by
  rw [Bpt.findAndPrint, stored.findLeafTrace verbose key enough, Exec.ok_bind, stored.find key enough, Exec.ok_bind]
  cases found : T.item key with
  | none => rfl
  | some r =>
      obtain ⟨nonNull, there⟩ := stored.record (List.mem_of_find?_eq_some found)
      rw [Option.map_some, Option.getD_some, if_neg nonNull, there]
      rfl

theorem printFound (stored : Stored order wide m root T R) {found : List Item} (inside : ∀ r ∈ found, r ∈ T.items) :
    Bpt.printFound m (found.map entry) = .ok (found.map fun r =>
      "Key: " ++ decimal r.1 ++ "   Location: " ++ hexadecimal r.2.1 ++ "  Value: " ++ decimal r.2.2 ++ "\n") := by
  induction found with
  | nil => rfl
  | cons r found ih =>
      obtain ⟨-, there⟩ := stored.record (inside r List.mem_cons_self)
      rw [List.map_cons, entry, Bpt.printFound, there, Exec.ok_bind,
        ih fun r' later => inside r' (List.mem_cons_of_mem r later)]
      rfl

/-- **`find_and_print_range`** starts if the stack has room for its arrays.  It runs over them if
the size of the range is not an `int` and there is something to store, and only then. -/
theorem findAndPrintRange (stored : Stored order wide m root T R) (room : Nat) (verbose : Bool) (a b : Key) :
    ∃ enough, ∀ fuel, enough ≤ fuel → Bpt.findAndPrintRange order m room verbose fuel root a b =
      if room < arraySize a b then .error .stackOverflow
      else if T.found a b = [] ∨ b.toInt - a.toInt < 2 ^ 31 - 1 then
        .ok (T.traceText verbose a ++ rangeText (T.found a b))
      else .error .outOfBounds := by
  obtain ⟨enough, run⟩ := stored.findRange a b (arraySize a b)
  have inside : ∀ r ∈ T.found a b, r ∈ T.items := by
    intro r member
    rw [Whole.found] at member
    split at member
    · exact List.mem_of_mem_filter member
    · cases member
  refine ⟨max enough T.levels, fun fuel le => ?_⟩
  unfold Bpt.findAndPrintRange
  refine if_congr Iff.rfl rfl ?_
  rw [stored.findLeafTrace verbose a ((le_max_right _ _).trans le), Exec.ok_bind,
    run fuel ((le_max_left _ _).trans le), ← if_congr (stored.found_fits_iff a b) rfl rfl]
  split
  · next fits =>
      rw [arrays_fit (by rwa [List.length_map]), Exec.ok_bind, List.length_map, rangeText, stored.printFound inside]
      cases T.found a b <;> rfl
  · next full => rw [arrays_full (by rw [List.length_map]; omega), Exec.error_bind]

/-- **The keys come out in ascending order**, those of a leaf between bars. -/
theorem printLeaves_ascending {t : Σ h, Tree h} (stored : Stored order wide m root (some t) R) :
    Returns (fun fuel => Bpt.printLeaves order m false fuel root)
        ([" | "].intercalate (t.2.leaves.map fun l => l.keys.map fun k => decimal k ++ " ") ++ ["\n"]) ∧
      (t.2.leaves.flatMap PageTree.keys).Pairwise (· < ·) := by
  constructor
  · rw [← rowText_plain]
    exact stored.printLeaves false
  · have keys : t.2.keys = t.2.leaves.flatMap PageTree.keys := by
      rw [PageTree.keys, PageTree.records, List.map_flatMap]
      exact List.flatMap_congr fun l _ => (keys_leaf l).symm
    rw [← keys]
    exact stored.sorted

end Stored

theorem printLeaves_ascending_sample :
    ∃ (m : Memory) (root : Ptr) (t : Σ h, Tree h), Returns (fun fuel => Bpt.printLeaves 3 m false fuel root)
        ([" | "].intercalate (t.2.leaves.map fun l => l.keys.map fun k => decimal k ++ " ") ++ ["\n"]) ∧
      (t.2.leaves.flatMap PageTree.keys).Pairwise (· < ·) := by
  obtain ⟨root, m, t, stored⟩ := sampleCalls_tree
  exact ⟨m, root, t, stored.printLeaves_ascending⟩

end SimpleDatabase.InMemory
