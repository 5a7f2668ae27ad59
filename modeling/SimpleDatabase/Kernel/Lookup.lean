/- Kernel.Lookup -- presence is decided exactly

`find_leaf_page` walks the path `leafFor` (`findLeafPage_eq`): that needs the
tree's shape and a key in every page, no order.  In a search-ordered tree the leaf
it ends in is the one that holds the key, if any does, so `db_find`, `db_delete`
and the duplicate check of `db_insert` decide presence.

An empty table is read through its header page: `rootpgnum` 0 makes `is_leaf` and
`numofkeys` 0, and `find_value` finds nothing in a page without records.
-/
import SimpleDatabase.Kernel.Realize
import SimpleDatabase.Project5.Bpt

namespace SimpleDatabase.Kernel

open SimpleDatabase.Theory SimpleDatabase.Theory.PageTree SimpleDatabase.Project5 Page

set_option autoImplicit false

variable {t : Table} {h : Nat}

/-! ## The descent -/

theorem findLeafLoop_eq {s : Tree h} (shape : Shape t s) (keyed : Keyed s) (key : Key)
    (fuel : Nat) : findLeafLoop t key (fuel + h + 1) s.pg = .ok (s.leafFor key).pg := by
  induction h generalizing fuel with
  | zero => simp [findLeafLoop, shape.leafPage.tag, leafFor]
  | succ h ih =>
      have child := s.root.focus_mem key
      have step : childFor (t s.pg) key = .ok (s.root.focus key).2.1.pg := by
        rw [childFor_eq shape.nodePage key (by rw [Node.size_map]; exact keyed.root), Node.focus_map]
      have below := ih (shape.child child) (keyed.child child) fuel
      rw [show fuel + (h + 1) + 1 = (fuel + h + 1) + 1 by omega, findLeafLoop]
      simp only [shape.nodePage.tag, if_true, step, Exec.ok_bind]
      exact below

theorem findLeafPage_eq {s : Tree h} (held : InTable t s) (keyed : Keyed s) (key : Key) :
    Returns (fun fuel => findLeafPage fuel t key) (s.leafFor key).pg := by
  apply Returns.of_le (h + 1)
  intro fuel
  rw [findLeafPage, held.root]
  simp only [held.nonzero, if_false]
  exact findLeafLoop_eq held.shape keyed key fuel

/-- An empty table has no leaf, and the descent stops at its header page. -/
theorem findLeafPage_empty (empty : getRootpgnum t = 0) (key : Key) :
    Returns (fun fuel => findLeafPage fuel t key) headerPagenum :=
  Returns.of_forall fun _ => by simp [findLeafPage, empty]

/-- `rootpgnum` 0 is a page without records, read as a tree page. -/
theorem findValue_header (empty : getRootpgnum t = 0) (key : Key) :
    findValue (t headerPagenum) key = .ok none := by
  have halves : (t headerPagenum).isLeaf + 2 ^ 32 * (t headerPagenum).numofkeys = 0 := empty
  have none_ : (t headerPagenum).numofkeys = 0 := by omega
  simp [findValue, none_, Slots.find]

/-! ## What the services return -/

/-- The value stored with the key, in the leaf a search for it ends in. -/
def lookup (s : Tree h) (key : Key) : Option Value :=
  ((s.leafFor key).recs.find? fun r => r.1 = key).map Prod.snd

/-- What `db_find` returns, given the value stored with the key. -/
def findReply (retVal : Value) : Option Value → Int × Value
  | none => (-1, retVal)
  | some value => (0, value)

theorem findValue_leafFor {s : Tree h} (shape : Shape t s) (key : Key) :
    findValue (t (s.leafFor key).pg) key = .ok (lookup s key) :=
  findValue_eq (shape.leaf (s.leafFor_mem key)) key

section Services

variable {pgnum : Pgnum} {key : Key}
  (descent : Returns (fun fuel => findLeafPage fuel t key) pgnum)

include descent

/-- Where the descent ends decides what `db_find` returns ... -/
theorem dbFind_of_descent {found : Option Value} (value : findValue (t pgnum) key = .ok found)
    (retVal : Value) : Returns (fun fuel => dbFind fuel t key retVal) (findReply retVal found) := by
  refine descent.bind (Returns.of_forall fun _ => ?_)
  rw [value]
  cases found <;> rfl

/-- ... that `db_delete` of an absent key does nothing ... -/
theorem dbDelete_of_descent (value : findValue (t pgnum) key = .ok none) (bounds : Bounds) :
    Returns (fun fuel => dbDelete bounds fuel t key) (-1, t) := by
  refine descent.bind (Returns.of_forall fun _ => ?_)
  rw [value]
  rfl

/-- ... that `db_delete` of a present key goes on with `delete_entry` ... -/
theorem dbDelete_of_held {v : Value} (value : findValue (t pgnum) key = .ok (some v)) {bounds : Bounds}
    {t' : Table} (deleted : Returns (fun fuel => deleteEntry bounds fuel t pgnum key) t') :
    Returns (fun fuel => dbDelete bounds fuel t key) (0, t') := by
  refine descent.bind (Returns.bind (b := ((0 : Int), t')) (Returns.of_forall fun _ => value) ?_)
  exact deleted.bind (Returns.of_forall fun _ => rfl)

/-- ... that `db_insert` of a present key does nothing ... -/
theorem dbInsert_of_descent {v : Value} (value : findValue (t pgnum) key = .ok (some v))
    (nonempty : getRootpgnum t ≠ 0) (heap : Nat → Page) (value' : Value) :
    Returns (fun fuel => dbInsert heap fuel t key value') (0, t) := by
  obtain ⟨m, hm⟩ := descent
  refine ⟨m, ?_⟩
  intro fuel enough
  simp only [dbInsert, if_neg nonempty, hm fuel enough, Exec.ok_bind, fileReadPage, value]
  rfl

/-- ... and that `db_insert` of an absent key goes on with `insert_at_leaf`. -/
theorem dbInsert_of_absent (value : findValue (t pgnum) key = .ok none)
    (nonempty : getRootpgnum t ≠ 0) {heap : Nat → Page} {value' : Value} {t' : Table}
    (inserted : Returns (fun fuel => insertAtLeaf heap fuel t pgnum key value') t') :
    Returns (fun fuel => dbInsert heap fuel t key value') (0, t') := by
  obtain ⟨m, hm⟩ := descent
  obtain ⟨n, hn⟩ := inserted
  refine ⟨max m n, ?_⟩
  intro fuel enough
  have here := hm fuel (Nat.le_trans (Nat.le_max_left m n) enough)
  have there := hn fuel (Nat.le_trans (Nat.le_max_right m n) enough)
  simp only [dbInsert, if_neg nonempty, here, Exec.ok_bind, fileReadPage, value, there]
  rfl

end Services

/-- A call of `db_delete` that returns, for a key its leaf holds, returns 0. -/
theorem dbDelete_present {pgnum : Pgnum} {key : Key} {v : Value}
    (descent : Returns (fun fuel => findLeafPage fuel t key) pgnum)
    (value : findValue (t pgnum) key = .ok (some v)) {bounds : Bounds} {r : Int} {t' : Table}
    (run : Returns (fun fuel => dbDelete bounds fuel t key) (r, t')) : r = 0 := by
  obtain ⟨m, hm⟩ := descent
  obtain ⟨n, hn⟩ := run
  have ran := hn (max m n) (Nat.le_max_right m n)
  simp only [dbDelete, hm (max m n) (Nat.le_max_left m n), Exec.ok_bind, value] at ran
  cases done : deleteEntry bounds (max m n) t pgnum key with
  | error e => simp [done] at ran
  | ok u =>
      simp only [done, Exec.ok_bind] at ran
      exact (congrArg Prod.fst (Except.ok.inj ran)).symm

/-! ## Looking a key up -/

theorem lookup_eq_none_iff (s : Tree h) (k : Key) : lookup s k = none ↔ k ∉ (s.leafFor k).keys := by
  simp only [lookup, Option.map_eq_none_iff, List.find?_eq_none, decide_eq_true_eq, keys, records_zero,
    List.mem_map, not_exists, not_and]

/-- The record found with a key is the first in its leaf. -/
theorem lookup_first {s : Tree h} {k : Key} {v : Value} (found : lookup s k = some v) :
    ((s.leafFor k).recs.find? fun r => r.1 = k) = some (k, v) := by
  obtain ⟨⟨k', v'⟩, first, rfl⟩ := Option.map_eq_some_iff.mp found
  have same : k' = k := by simpa using List.find?_some first
  rw [first, same]

theorem lookup_held {s : Tree h} {k : Key} {v : Value} (found : lookup s k = some v) :
    k ∈ (s.leafFor k).keys := by
  refine (mem_keys_iff _ k).mpr ⟨v, ?_⟩
  rw [records_zero]
  exact List.mem_of_find?_eq_some (lookup_first found)

/-- A key stored nowhere is in no leaf. -/
theorem leafFor_keys_subset (s : Tree h) (k : Key) : (s.leafFor k).keys ⊆ s.keys := by
  exact fun x held => mem_keys_of_leaf (s.leafFor_mem k) held

/-- The value found with a key, in the leaf a search for it ends in. -/
def Store.lookup (st : Store) (k : Key) : Option Value :=
  match st.tree with
  | none => none
  | some ⟨_, s⟩ => Kernel.lookup s k

/-- A key stored nowhere is found nowhere. -/
theorem Store.lookup_of_absent {st : Store} {k : Key} (absent : k ∉ st.tree.keys) : st.lookup k = none := by
  obtain ⟨tree, a⟩ := st
  cases tree with
  | none => rfl
  | some tree =>
      obtain ⟨h, s⟩ := tree
      exact (lookup_eq_none_iff s k).mpr fun member => absent (leafFor_keys_subset s k member)

/-! ## Search-ordered tables -/

/-- The table is empty, or its pages form a search-ordered tree with a key in
every page. -/
def Searchable (t : Table) : Contents → Prop
  | none => getRootpgnum t = 0
  | some ⟨_, s⟩ => InTable t s ∧ SearchOrdered s ∧ Keyed s

theorem leafFor_of_held {s : Tree h} (ordered : SearchOrdered s) (keyed : Keyed s) {l : Tree 0}
    (member : l ∈ s.leaves) {key : Key} (held : key ∈ l.keys) : s.leafFor key = l :=
  leafFor_of_mem ((searchOrdered_iff keyed.stocked).mp ordered) keyed.stocked member held

theorem find?_isSome_of_mem {l : Tree 0} {key : Key} (held : key ∈ l.keys) :
    ∃ v, (l.recs.find? fun r => r.1 = key) = some (key, v) := by
  obtain ⟨v, record⟩ := (mem_keys_iff l key).mp held
  rw [records_zero] at record
  cases found : l.recs.find? fun r => r.1 = key with
  | none =>
      have := List.find?_eq_none.mp found (key, v) record
      simp at this
  | some r =>
      have same : r.1 = key := by simpa using List.find?_some found
      exact ⟨r.2, by rw [← same]⟩

/-- The descent finds the leaf that holds the key, and `find_value` decides. -/
theorem Searchable.descent {c : Contents} (searchable : Searchable t c) (key : Key) :
    ∃ pgnum found, Returns (fun fuel => findLeafPage fuel t key) pgnum ∧
      findValue (t pgnum) key = .ok found ∧
      (∀ l ∈ c.leaves, key ∈ l.keys → pgnum = l.pg ∧ getRootpgnum t ≠ 0 ∧
        ∃ v, found = some v ∧ (l.recs.find? fun r => r.1 = key) = some (key, v)) ∧
      ((∀ l ∈ c.leaves, key ∉ l.keys) → found = none) := by
  cases c with
  | none =>
      exact ⟨_, _, findLeafPage_empty searchable key, findValue_header searchable key, by
        simp [Contents.leaves], fun _ => rfl⟩
  | some tree =>
      obtain ⟨h, s⟩ := tree
      obtain ⟨held, ordered, keyed⟩ := searchable
      refine ⟨_, _, findLeafPage_eq held keyed key, findValue_leafFor held.shape key, ?_, ?_⟩
      · intro l member inside
        have route := leafFor_of_held ordered keyed member inside
        obtain ⟨v, found⟩ := find?_isSome_of_mem inside
        refine ⟨by rw [route], held.root ▸ held.nonzero, v, ?_, found⟩
        rw [lookup, route, found]
        rfl
      · intro absent
        have missing : ((s.leafFor key).recs.find? fun r => r.1 = key) = none := by
          rw [List.find?_eq_none]
          intro r member
          have new := absent _ (s.leafFor_mem key)
          simp only [decide_eq_true_eq]
          rintro rfl
          exact new ((mem_keys_iff _ _).mpr ⟨r.2, by rw [records_zero]; exact member⟩)
        rw [lookup, missing]
        rfl

/-- **Presence is decided exactly and without side effect.**  The descent ends at
the leaf that holds the key.  With the key in a leaf, `db_find` gives its value,
`db_insert` returns with the table as it was, and `db_delete` does not return -1;
with the key in no leaf, `db_find` and `db_delete` return -1 and change nothing. -/
theorem presence_exact {c : Contents} (searchable : Searchable t c) (key : Key) :
    (∃ pgnum, Returns (fun fuel => findLeafPage fuel t key) pgnum ∧
      ∀ l ∈ c.leaves, key ∈ l.keys → pgnum = l.pg) ∧
    (∀ l ∈ c.leaves, key ∈ l.keys →
      (∃ v, (l.recs.find? fun r => r.1 = key) = some (key, v) ∧
        ∀ retVal, Returns (fun fuel => dbFind fuel t key retVal) (0, v)) ∧
      (∀ heap value, Returns (fun fuel => dbInsert heap fuel t key value) (0, t)) ∧
      ∀ bounds r t', Returns (fun fuel => dbDelete bounds fuel t key) (r, t') → r = 0) ∧
    ((∀ l ∈ c.leaves, key ∉ l.keys) →
      (∀ retVal, Returns (fun fuel => dbFind fuel t key retVal) (-1, retVal)) ∧
      ∀ bounds, Returns (fun fuel => dbDelete bounds fuel t key) (-1, t)) := by
  obtain ⟨pgnum, found, descent, value, present, absent⟩ := searchable.descent key
  refine ⟨⟨pgnum, descent, fun l member held => (present l member held).1⟩,
    fun l member held => ?_, fun missing => ?_⟩
  · obtain ⟨-, nonempty, v, rfl, first⟩ := present l member held
    exact ⟨⟨v, first, dbFind_of_descent descent value⟩, dbInsert_of_descent descent value nonempty,
      fun bounds r t' run => dbDelete_present descent value run⟩
  · cases absent missing
    exact ⟨dbFind_of_descent descent value, dbDelete_of_descent descent value⟩

/-- A root over two leaves. -/
def sampleTree : Tree 1 :=
  branch 1 ⟨leaf 2 [(1, default)], [(5, leaf 3 [(5, default), (7, default)])]⟩

def sampleStore : Store := ⟨some ⟨1, sampleTree⟩, ⟨[], 4⟩⟩

theorem sampleStore_sound : sampleStore.Sound where
  accounts := ⟨by decide, by decide⟩
  fits := by
    rintro _ _ ⟨⟩
    simp [sampleTree, Fill, Node.children, size, Node.size]

theorem sampleTable_searchable : Searchable (tableOf sampleStore) sampleStore.tree := by
  refine ⟨(tableOf_represents sampleStore_sound).inTable rfl, ?_, ?_⟩
  · simp [sampleTree, SearchOrdered, Node.Adjacent, Node.children, Node.seps, keys, records_zero]
  · simp [sampleTree, Keyed, All, content, Content.size, Node.size, Node.children, Node.map]

/-- Key 5 is found in the second leaf, key 6 nowhere. -/
theorem presence_exact_sample :
    Returns (fun fuel => dbFind fuel (tableOf sampleStore) 5 default) (0, default) ∧
      Returns (fun fuel => dbDelete .layout fuel (tableOf sampleStore) 6) (-1, tableOf sampleStore) := by
  have found := (presence_exact sampleTable_searchable 5).2.1 (leaf 3 [(5, default), (7, default)])
    (by simp [sampleStore, Contents.leaves, sampleTree, leaves_succ, leaves_zero, Node.children])
    (by simp [keys, records_zero])
  have missing := (presence_exact sampleTable_searchable 6).2.2
    (by simp [sampleStore, Contents.leaves, sampleTree, leaves_succ, leaves_zero, Node.children, keys,
      records_zero])
  obtain ⟨v, first, find⟩ := found.1
  cases (by simpa using first : default = v)
  exact ⟨find default, missing.2 .layout⟩

end SimpleDatabase.Kernel
