/- Kernel.Realize -- every store is some table's

`tableOf` writes a store out, page by page, and `tableOf_represents` says that the
table it gives holds the store, provided the pages fit and the books agree with
them.  So no statement about the tables that hold a store is empty, and a table
with a given tree is there to be pointed at.
-/
import SimpleDatabase.Kernel.Stored

namespace SimpleDatabase.Kernel

open SimpleDatabase.Theory SimpleDatabase.Theory.PageTree SimpleDatabase.Project5 Page

set_option autoImplicit false

/-! ## Pages with a given content -/

def leafPageOf (parent next : Pgnum) (recs : List LeafRecord) : Page where
  parentPgnum := parent
  isLeaf := 1
  numofkeys := recs.length
  numofpages := 0
  nextPgnum := next
  slotKey i := (recs.getD (i / 8) default).1
  slotChild _ := 0
  slotValue i := (recs.getD i default).2

def nodePageOf (parent : Pgnum) (n : Node Key Pgnum) : Page where
  parentPgnum := parent
  isLeaf := 0
  numofkeys := n.size
  numofpages := 0
  nextPgnum := n.left
  slotKey i := (n.recs.getD i default).1
  slotChild i := (n.recs.getD i default).2
  slotValue _ := default

def headerOf (root : Pgnum) (a : Alloc) : Page :=
  { (default : Page) with
    parentPgnum := a.free.headD 0
    isLeaf := root % 2 ^ 32
    numofkeys := root / 2 ^ 32
    numofpages := a.num }

theorem leafPageOf_spec (parent next : Pgnum) {recs : List LeafRecord}
    (fits : recs.length ≤ maxLeafKey) : LeafPage (leafPageOf parent next recs) recs := by
  apply LeafPage.of_slots rfl rfl fits
  intro i inside
  simp [leafPageOf, leafRecord, List.getElem?_eq_getElem inside]

theorem nodePageOf_spec (parent : Pgnum) {n : Node Key Pgnum} (fits : n.size ≤ maxInternalKey) :
    NodePage (nodePageOf parent n) n := by
  apply NodePage.of_slots rfl rfl rfl fits
  intro i inside
  simp [nodePageOf, internalRecord, List.getElem?_eq_getElem inside]

/-! ## Links -/

/-- The element after `p` in a list. -/
def successor : List Nat → Nat → Nat
  | [], _ => 0
  | q :: qs, p => if q = p then qs.headD 0 else successor qs p

/-- A list without repetition is linked by its successors. -/
theorem linked_successor {ps : List Nat} (distinct : ps.Nodup) : Linked (successor ps) ps 0 := by
  induction ps with
  | nil => trivial
  | cons p ps ih =>
      obtain ⟨new, distinct⟩ := List.nodup_cons.mp distinct
      refine ⟨by simp [successor], (ih distinct).congr ?_⟩
      intro q member
      have other : p ≠ q := fun same => new (same ▸ member)
      simp [successor, other]

/-! ## Writing a tree out -/

/-- The pages of a tree, given the leaf after each leaf. -/
def pageList (next : Nat → Nat) : {h : Nat} → Pgnum → Tree h → List (Pgnum × Page)
  | 0, par, s => [(s.pg, leafPageOf par (next s.pg) s.recs)]
  | _ + 1, par, s =>
      (s.pg, nodePageOf par (s.root.map Paged.pg)) :: s.root.children.flatMap (pageList next s.pg)

theorem pageList_pages (next : Nat → Nat) {h : Nat} (par : Pgnum) (s : Tree h) :
    (pageList next par s).map Prod.fst = s.pages := by
  induction h generalizing par with
  | zero => rfl
  | succ h ih => simp [pageList, pages_succ, List.map_flatMap, ih]

/-- A table with the tree's pages holds the tree. -/
theorem stored_of_pageList {next : Nat → Nat} {t : Table} {h : Nat} {par : Pgnum} {s : Tree h}
    {lo : Nat → Nat} (fill : Fill lo maxKeys s)
    (written : ∀ e ∈ pageList next par s, t e.1 = e.2) : Stored t par s := by
  induction h generalizing par with
  | zero =>
      have here : t s.pg = leafPageOf par (next s.pg) s.recs :=
        written (s.pg, _) List.mem_cons_self
      refine ⟨by rw [here]; rfl, ?_⟩
      rw [here]
      exact leafPageOf_spec _ _ fill.2
  | succ h ih =>
      have here : t s.pg = nodePageOf par (s.root.map Paged.pg) :=
        written (s.pg, _) List.mem_cons_self
      refine ⟨⟨by rw [here]; rfl, ?_⟩, fun c child => ih (fill.2 c child) fun e member => ?_⟩
      · rw [here]
        exact nodePageOf_spec _ (by rw [Node.size_map]; exact fill.1.2)
      · exact written e (List.mem_cons_of_mem _ (List.mem_flatMap.mpr ⟨c, child, member⟩))

theorem next_of_pageList {next : Nat → Nat} {t : Table} {h : Nat} {par : Pgnum} {s : Tree h}
    (written : ∀ e ∈ pageList next par s, t e.1 = e.2) :
    ∀ p ∈ s.leafPages, nextOf t p = next p := by
  induction h generalizing par with
  | zero =>
      intro p member
      rw [leafPages_zero, List.mem_singleton] at member
      have here : t s.pg = leafPageOf par (next s.pg) s.recs :=
        written (s.pg, _) List.mem_cons_self
      rw [member, nextOf, here]
      rfl
  | succ h ih =>
      intro p member
      rw [leafPages_succ] at member
      obtain ⟨c, child, inside⟩ := List.mem_flatMap.mp member
      exact ih (fun e below => written e
        (List.mem_cons_of_mem _ (List.mem_flatMap.mpr ⟨c, child, below⟩))) p inside

/-! ## Writing a store out -/

/-- The pages of the store's tree. -/
def Store.pageList (st : Store) : List (Pgnum × Page) :=
  match st.tree with
  | none => []
  | some ⟨_, s⟩ => Kernel.pageList (successor s.leafPages) 0 s

/-- The table file of a store. -/
def tableOf (st : Store) : Table := fun p =>
  if p = 0 then headerOf st.tree.rootPage st.alloc
  else match st.pageList.find? fun e => e.1 = p with
    | some e => e.2
    | none => { (default : Page) with parentPgnum := successor st.alloc.free p }

/-- A store whose books agree with its tree and whose pages fit. -/
structure Store.Sound (st : Store) : Prop where
  accounts : st.alloc.Accounts st.tree.pages
  fits : ∀ h s, st.tree = some ⟨h, s⟩ →
    Fill (fun _ => 0) maxKeys s

theorem Store.pageList_pages (st : Store) : st.pageList.map Prod.fst = st.tree.pages := by
  obtain ⟨tree, alloc⟩ := st
  cases tree with
  | none => rfl
  | some tree => exact Kernel.pageList_pages _ _ _

theorem find?_of_nodup {α β : Type} [DecidableEq α] {l : List (α × β)} (distinct : (l.map Prod.fst).Nodup)
    {e : α × β} (member : e ∈ l) : (l.find? fun x => x.1 = e.1) = some e := by
  induction l with
  | nil => simp at member
  | cons x l ih =>
      obtain ⟨new, distinct⟩ := List.nodup_cons.mp distinct
      rcases List.mem_cons.mp member with rfl | later
      · simp
      · have other : x.1 ≠ e.1 := fun same => new (same ▸ List.mem_map_of_mem later)
        rw [List.find?_cons_of_neg (by simpa using other)]
        exact ih distinct later

/-- **Every sound store is held by a table.** -/
theorem tableOf_represents {st : Store} (sound : st.Sound) : Represents (tableOf st) st := by
  have accounts := sound.accounts
  have distinct : (st.pageList.map Prod.fst).Nodup := by
    rw [st.pageList_pages]
    exact accounts.live_nodup
  have written : ∀ e ∈ st.pageList, tableOf st e.1 = e.2 := by
    intro e member
    have used : e.1 ∈ st.tree.pages := by
      rw [← st.pageList_pages]
      exact List.mem_map_of_mem member
    have nonzero : e.1 ≠ 0 := (accounts.live_bounds used).1
    simp only [tableOf, nonzero, if_false, find?_of_nodup distinct member]
  refine ⟨?_, ⟨⟨rfl, ?_, fun zero => (accounts.free_bounds zero).1 rfl⟩, rfl, accounts⟩,
    fun h s tree => ?_, fun h s tree => ?_⟩
  · exact Nat.mod_add_div _ _
  · apply (linked_successor accounts.free_nodup).congr
    intro p unused
    have nonzero := (accounts.free_bounds unused).1
    have absent : (st.pageList.find? fun e => e.1 = p) = none := by
      rw [List.find?_eq_none]
      intro e member
      simp only [decide_eq_true_eq]
      rintro rfl
      refine accounts.disjoint ?_ unused
      rw [← st.pageList_pages]
      exact List.mem_map_of_mem member
    simp only [preadLink, tableOf, nonzero, if_false, absent]
  · obtain ⟨_, alloc⟩ := st
    subst tree
    exact stored_of_pageList (sound.fits h s rfl) written
  · obtain ⟨_, alloc⟩ := st
    subst tree
    have pages : s.leafPages.Nodup := accounts.live_nodup.sublist s.leafPages_sublist
    exact (linked_successor pages).congr (next_of_pageList written)

end SimpleDatabase.Kernel
