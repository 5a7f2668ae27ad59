/- Kernel.RecordAccess -- which record accesses leave their arrays

Every index into a record array is checked in the model, and `Bounds.declared` checks the
one C would let pass, -1 into `internal_record`.  So an operation that returns has used no
index outside its array; for a deletion `InBounds` adds that the scans for the keys to be
removed, which the source does not bound, stop inside their pages.

On a well-formed table all insertions are within bounds, and all deletions but those that
leave the last child of a one-key root with too few keys (`inBounds_iff`): there
`delete_entry` reads `internal_record[numofkeys - 2]`, where `left_pgnum` is meant.
-/
import SimpleDatabase.Kernel.MapRuns

namespace SimpleDatabase.Kernel

open SimpleDatabase.Theory SimpleDatabase.Theory.PageTree SimpleDatabase.Project5 Page

set_option autoImplicit false

/-- No index of the operation leaves its array, and no scan its page. -/
def InBounds (t : Table) : Op → Prop
  | .insert k v => ∀ heap, ∃ r, Returns (fun fuel => dbInsert heap fuel t k v) r
  | .find k retVal => ∃ r, Returns (fun fuel => dbFind fuel t k retVal) r
  | .delete k =>
      (∃ r, Returns (fun fuel => dbDelete .declared fuel t k) r) ∧
        ∀ pgnum v, Returns (fun fuel => findLeafPage fuel t k) pgnum →
          findValue (t pgnum) k = .ok (some v) →
          ∀ c, Relation.ReflTransGen (DeleteCall.Recurs .declared) ⟨t, pgnum, k⟩ c → c.ScanInside

/-- The operation deletes a stored key, and its deletion leaves the last child of a root
with one key with too few. -/
def Store.Overreads (st : Store) : Op → Prop
  | .delete k =>
      (st.lookup k).isSome ∧ ∃ h s, st.tree = some ⟨h, s⟩ ∧ Kernel.Overreads k s
  | _ => False

/-! ## The calls of a deletion -/

section Tree

variable {t : Table} {a : Alloc} {h : Nat} {k : Key}

/-- Where nothing is read before the first record, the calls of a deletion climb to one
that ends. -/
theorem WellFormedTree.climbs {s : Tree h} (wellFormed : WellFormedTree s)
    (graft : Grafted t a 0 0 [] ⟨s, []⟩) (root : getRootpgnum t = s.pg)
    (held : k ∈ (s.leafFor k).keys) (reads : ¬ Kernel.Overreads k s) :
    ∃ c u, DeleteCall.Climbs .declared ⟨t, (s.leafFor k).pg, k⟩ c ∧ c.Ends .declared u := by
  have keyed := wellFormed.keyed least_pos
  rcases shrink_outcome .declared graft (root ▸ List.mem_cons_self) keyed wellFormed.ordered held
    (fun _ => wellFormed.below) (fun _ => reads) with ⟨u, out⟩ | spoiled
  · have came := out.deletesTo
    have grafted := out.grafted
    have page : (shrinkTree k s a).shrunk.tree.pg = s.pg := shrink_pg keyed a
    have root : getRootpgnum u = (shrinkTree k s a).shrunk.tree.pg :=
      out.root.trans (root.trans page.symm)
    cases shrunk : (shrinkTree k s a).shrunk with
    | kept s' =>
        rw [shrunk] at came
        obtain ⟨c, path, ends⟩ := came
        exact ⟨c, u, path, ends⟩
    | lost s' =>
        rw [shrunk] at came grafted root
        obtain ⟨t', key, path, removed⟩ := came
        have nonzero : s'.pg ≠ 0 := grafted.nonzero (by simp [Shrunk.tree])
        exact ⟨_, _, path, removed.ends_at_root nonzero root⟩
  · exact spoiled.ends

/-- The second child of two, left with too few keys: its call faults. -/
theorem second_child_faults {u t' : Table} {pg e : Pgnum} {rest : List Pgnum} {l c : Tree h}
    {sep key : Key} (graft : Grafted u a pg e (pg :: rest) (Node.plug [(l, sep)] c []))
    (node : NodePage (u pg) ((Node.plug [(l, sep)] c []).map Paged.pg)) (root : getRootpgnum u = pg)
    (removed : Removed t' c.pg key u) (few : c.size ≤ minKeys h) (fuel : Nat) :
    DeleteCall.run .declared ⟨t', c.pg, key⟩ (fuel + 1) = .error .outOfBounds := by
  have here : c ∈ (Node.plug [(l, sep)] c []).children := by simp
  have stored : Stored u pg c := graft.stored c here
  have other : pg ≠ c.pg := fun same =>
    graft.not_rest here (same ▸ pg_mem_pages c) List.mem_cons_self
  have inner : getRootpgnum u ≠ c.pg := root ▸ other
  have listed : NodePage (u pg) (Node.plug [] l.pg [(sep, c.pg)]) := node
  have count : (u pg).numofkeys = 1 := listed.numofkeys
  have short : (u c.pg).numofkeys ≤
      if (u c.pg).isLeaf = 1 then maxLeafKey / 8 else maxInternalKey / 8 := by
    rw [few_eq stored, stored.numofkeys]
    exact few
  exact removed.overreads (graft.nonzero here) inner other stored.up short
    (getNeighborIndex_last listed graft.roots_nodup) (by simp [childAt, count]) fuel

/-- Where something is, they climb to one that faults. -/
theorem WellFormedTree.overreads {s : Tree h} (wellFormed : WellFormedTree s)
    (graft : Grafted t a 0 0 [] ⟨s, []⟩) (root : getRootpgnum t = s.pg)
    (held : k ∈ (s.leafFor k).keys) (reads : Kernel.Overreads k s) :
    ∃ n, ∀ fuel, DeleteCall.run .declared ⟨t, (s.leafFor k).pg, k⟩ (fuel + n) =
      .error .outOfBounds := by
  cases h with
  | zero => exact reads.elim
  | succ h =>
      obtain ⟨one, last, thins, few⟩ := reads
      have keyed := wellFormed.keyed least_pos
      have mem := s.root.focus_mem k
      have child := keyed.child mem
      obtain ⟨c, shrunk⟩ := (shrink_lost_iff capacity_two child held a).mpr thins
      have size := shrink_size minKeys capacity_two child.pos held a
      rw [shrunk] at size
      have size : c.size + 1 = (s.root.focus k).2.1.size := size
      have outcome := shrink_outcome .declared (descend graft k)
        (List.mem_cons_of_mem _ (List.mem_append_right _ (root ▸ List.mem_cons_self))) child
        (wellFormed.ordered.2.2 _ mem) held (fun _ => (wellFormed.below _ mem).below)
        fun _ => Overreads.not_filled (wellFormed.below _ mem)
      rcases outcome with ⟨u, below⟩ | ⟨⟨_, kept⟩, -, -⟩
      swap
      · exact nomatch shrunk.symm.trans kept
      obtain ⟨widened, node, up⟩ := below.ascend graft keyed
      have came := below.deletesTo
      rw [shrinkTree, shrunk] at came widened node
      obtain ⟨t', key, path, removed⟩ := came
      -- the child is the second of two
      have two : (s.root.focus k).1.length = 1 := by
        have count := size_focus k s
        rw [last, List.length_nil] at count
        omega
      obtain ⟨⟨l, sep⟩, first⟩ := List.length_eq_one_iff.mp two
      rw [last, first] at widened node
      have faults := second_child_faults (c := c) widened node (below.root.trans root) removed (by omega)
      obtain ⟨n, run⟩ := path.run
      refine ⟨1 + n, ?_⟩
      intro fuel
      rw [← Nat.add_assoc]
      exact (run (fuel + 1)).trans (faults fuel)

end Tree

/-! ## Operations on a well-formed table -/

section Operations

variable {t : Table} {st : Store} {k : Key} {v : Value}

/-- A deletion that looks for the neighbour before the first record faults. -/
theorem dbDelete_faults (represents : Represents t st) (wellFormed : st.WellFormed)
    (overreads : st.Overreads (.delete k)) :
    ∃ enough, ∀ fuel, enough ≤ fuel → dbDelete .declared fuel t k = .error .outOfBounds := by
  obtain ⟨stored, h, s, tree, reads⟩ := overreads
  obtain ⟨tree', a⟩ := st
  obtain rfl : tree' = some ⟨h, s⟩ := tree
  obtain ⟨v, found⟩ := Option.isSome_iff_exists.mp stored
  have good := wellFormed h s rfl
  have held := represents.inTable rfl
  have value : findValue (t (s.leafFor k).pg) k = .ok (some v) :=
    (findValue_leafFor held.shape k).trans (congrArg _ found)
  obtain ⟨m, descent⟩ := findLeafPage_eq held (good.keyed least_pos) k
  obtain ⟨n, faults⟩ := good.overreads represents.grafted held.root (lookup_held found) reads
  refine ⟨m + n, ?_⟩
  intro fuel enough
  obtain ⟨fuel, rfl⟩ := Nat.exists_eq_add_of_le' (Nat.le_trans (Nat.le_add_left n m) enough)
  have fault : deleteEntry .declared (fuel + n) t (s.leafFor k).pg k = .error .outOfBounds := faults fuel
  simp only [dbDelete, descent (fuel + n) (Nat.le_trans (Nat.le_add_right m n) enough), Exec.ok_bind,
    fileReadPage, value, fault, Exec.error_bind]

theorem InBounds.not_overreads (represents : Represents t st) (wellFormed : st.WellFormed)
    (inBounds : InBounds t (.delete k)) : ¬ st.Overreads (.delete k) := by
  intro overreads
  obtain ⟨⟨r, n, returns⟩, -⟩ := inBounds
  obtain ⟨m, faults⟩ := dbDelete_faults represents wellFormed overreads
  exact nomatch (faults (max m n) (Nat.le_max_left m n)).symm.trans
    (returns (max m n) (Nat.le_max_right m n))

theorem InBounds.delete (represents : Represents t st) (wellFormed : st.WellFormed)
    (reads : ¬ st.Overreads (.delete k)) : InBounds t (.delete k) := by
  obtain ⟨pgnum, descent, value⟩ := represents.finds (wellFormed.packed.keyed least_pos) k
  cases found : st.lookup k with
  | none =>
      -- the key is not there, and `delete_entry` is not called
      rw [found] at value
      refine ⟨⟨_, dbDelete_of_descent descent value .declared⟩, ?_⟩
      intro pgnum' v descent' value'
      rw [descent'.unique descent, value] at value'
      exact nomatch value'
  | some v =>
      obtain ⟨tree, a⟩ := st
      cases tree with
      | none => exact nomatch found
      | some tree =>
          obtain ⟨h, s⟩ := tree
          have good := wellFormed h s rfl
          have held := represents.inTable rfl
          have here := findLeafPage_eq held (good.keyed least_pos) k
          rw [found, descent.unique here] at value
          obtain ⟨c, u, path, ends⟩ := good.climbs represents.grafted held.root (lookup_held found)
            fun overreads => reads ⟨by rw [found]; rfl, h, s, rfl, overreads⟩
          refine ⟨⟨_, dbDelete_of_held here value (path.returns ends)⟩, ?_⟩
          intro pgnum' v' descent' _
          rw [descent'.unique here]
          exact fun d reached => path.inside ends reached

/-- **On a well-formed table no record access leaves its array**, but for the deletions that
leave the last child of a one-key root with too few keys. -/
theorem inBounds_iff (represents : Represents t st) (wellFormed : st.WellFormed) (op : Op) :
    InBounds t op ↔ ¬ st.Overreads op := by
  have keyed := wellFormed.packed.keyed least_pos
  cases op with
  | insert k v =>
      refine iff_of_true (fun heap => ?_) id
      obtain ⟨t', run, -⟩ := dbInsert_spec represents keyed heap k v
      exact ⟨_, run⟩
  | find k retVal =>
      obtain ⟨pgnum, descent, value⟩ := represents.finds keyed k
      exact iff_of_true ⟨_, dbFind_of_descent descent value retVal⟩ id
  | delete k => exact ⟨InBounds.not_overreads represents wellFormed, InBounds.delete represents wellFormed⟩

end Operations

/-- Deleting from the left leaf of two is within bounds ... -/
theorem inBounds_sparse : InBounds (tableOf sparseStore) (.delete 2) := by
  refine (inBounds_iff (tableOf_represents sparseStore_sound) sparseStore_wellFormed (.delete 2)).mpr ?_
  rintro ⟨-, h, s, ⟨⟩, -, last, -⟩
  exact nomatch last

/-- ... and from the right one it is not. -/
theorem delete_overreads : Represents (tableOf sparseStore) sparseStore ∧ sparseStore.WellFormed ∧
    (∃ enough, ∀ fuel, enough ≤ fuel →
      dbDelete .declared fuel (tableOf sparseStore) 5 = .error .outOfBounds) ∧
    ¬ InBounds (tableOf sparseStore) (.delete 5) := by
  have represents := tableOf_represents sparseStore_sound
  have overreads : sparseStore.Overreads (.delete 5) :=
    ⟨rfl, 1, sparseTree, rfl, rfl, rfl, trivial, by decide⟩
  exact ⟨represents, sparseStore_wellFormed, dbDelete_faults represents sparseStore_wellFormed overreads,
    fun inBounds => inBounds.not_overreads represents sparseStore_wellFormed overreads⟩

end SimpleDatabase.Kernel
