/- Kernel.Occupancy -- how deep a table is, and what becomes of its pages

Deletions leave a page that is not the root four records or 32 separators at least, so
the height of a table is logarithmic in its records (`height_le`), and no table of
64-bit keys makes a search read more than fourteen pages of its tree.

A table without records has no pages: after a run that deletes all it has inserted,
every page of the file but the header is free again.
-/
import SimpleDatabase.Kernel.MapRuns
import SimpleDatabase.Theory.Capacity
import Mathlib.Data.Fintype.Card

namespace SimpleDatabase.Kernel

open SimpleDatabase.Theory SimpleDatabase.Theory.PageTree SimpleDatabase.Project5 Page

set_option autoImplicit false

/-! ## The length of a search -/

theorem WellFormedTree.height_le {h : Nat} {s : Tree h} (wellFormed : WellFormedTree s) :
    h ≤ Nat.log 33 (s.records.length / 8) + 1 :=
  height_le_log (fun h => show least (h + 1) = 32 from rfl) (by decide) (by decide) wellFormed.below wellFormed.pos

/-- There are `2 ^ 64` keys. -/
theorem length_le_of_nodup {ks : List Key} (distinct : ks.Nodup) : ks.length ≤ 2 ^ 64 := by
  have injective : Function.Injective fun k : Key => k.toBitVec.toFin := by
    intro a b same
    exact Int64.toBitVec_inj.mp (BitVec.eq_of_toFin_eq same)
  have bound := (distinct.map injective).length_le_card
  rwa [List.length_map, Fintype.card_fin] at bound

theorem Store.WellFormed.length_le {st : Store} (wellFormed : st.WellFormed) :
    st.tree.records.length ≤ 2 ^ 64 := by
  have bound := length_le_of_nodup wellFormed.keys_nodup
  rwa [Contents.keys_eq, List.length_map] at bound

/-- The pages of the tree that a search reads at most, in a table of `n` records. -/
def searchPages (n : Nat) : Nat := Nat.log 33 (n / 8) + 2

theorem searchPages_le {n : Nat} (bound : n ≤ 2 ^ 64) : searchPages n ≤ 14 := by
  have quotient : n / 8 ≤ 2 ^ 61 := by omega
  have log := (Nat.log_mono_right quotient).trans_lt
    (Nat.log_lt_of_lt_pow (b := 33) (x := 13) (by decide) (by decide))
  unfold searchPages
  omega

variable {t : Table} {st : Store}

/-- **A search is logarithmic**: it ends within `searchPages` rounds of the descent, and those
are never more than fourteen. -/
theorem findLeafPage_logarithmic (represents : Represents t st) (wellFormed : st.WellFormed)
    (key : Key) :
    (∀ fuel, searchPages st.tree.records.length ≤ fuel →
      ∃ pgnum, findLeafPage fuel t key = .ok pgnum ∧ findValue (t pgnum) key = .ok (st.lookup key)) ∧
    searchPages st.tree.records.length ≤ 14 := by
  refine ⟨?_, searchPages_le wellFormed.length_le⟩
  intro fuel enough
  obtain ⟨tree, a⟩ := st
  cases tree with
  | none =>
      refine ⟨headerPagenum, ?_, findValue_header represents.root key⟩
      have empty : getRootpgnum t = 0 := represents.root
      simp [findLeafPage, empty]
  | some tree =>
      obtain ⟨h, s⟩ := tree
      have tree := wellFormed h s rfl
      have held := represents.inTable rfl
      have height := tree.height_le
      refine ⟨(s.leafFor key).pg, ?_, findValue_leafFor held.shape key⟩
      have enough : Nat.log 33 (s.records.length / 8) + 2 ≤ fuel := enough
      obtain ⟨more, rfl⟩ : ∃ more, fuel = more + h + 1 := ⟨fuel - (h + 1), by omega⟩
      rw [findLeafPage, held.root]
      simp only [held.nonzero, if_false]
      exact findLeafLoop_eq held.shape (tree.keyed least_pos) key more

/-- A root with two leaves of four records: three pages, and two rounds for a search. -/
theorem findLeafPage_logarithmic_sparse :
    (∀ fuel, searchPages sparseStore.tree.records.length ≤ fuel → ∃ pgnum,
      findLeafPage fuel (tableOf sparseStore) 0 = .ok pgnum ∧
        findValue (tableOf sparseStore pgnum) 0 = .ok (sparseStore.lookup 0)) ∧
    searchPages sparseStore.tree.records.length ≤ 14 :=
  findLeafPage_logarithmic (tableOf_represents sparseStore_sound) sparseStore_wellFormed 0

/-! ## Pages that are given back -/

/-- Of the file's pages none but the header is in use. -/
structure AllFree (t : Table) : Prop where
  root : getRootpgnum t = 0
  free : ∃ free, Chain (preadLink t) (getFreepgnum t) free ∧
    free.Perm (List.range' 1 (getNumofpages t - 1))

/-- A tree that is not there has no records, and no other tree has none. -/
theorem Store.WellFormed.empty_iff (wellFormed : st.WellFormed) :
    (∀ k, st.lookup k = none) ↔ st.tree = none := by
  constructor
  · intro absent
    obtain ⟨tree, a⟩ := st
    cases tree with
    | none => rfl
    | some tree =>
        obtain ⟨h, s⟩ := tree
        obtain ⟨k, held⟩ := ((wellFormed h s rfl).keyed least_pos).stocked.exists_key
        exact absurd held ((wellFormed.absent_iff k).mp (absent k))
  · intro none_ k
    refine (wellFormed.absent_iff k).mpr ?_
    simp [none_, Contents.keys]

theorem Represents.allFree (represents : Represents t st) (none_ : st.tree = none) : AllFree t where
  root := by rw [represents.root, none_]; rfl
  free := by
    refine ⟨st.alloc.free, represents.heap.chain, ?_⟩
    have books := represents.heap.accounts.perm
    rwa [none_, ← represents.heap.num] at books

/-- **No page is lost**: whenever the map a run comes to is empty, every page is free. -/
theorem tableRun_reclaims {junk : Page} {t₀ : Table} {calls : List (Op × Reply)}
    (run : Run SafeStep (freshTable junk t₀) calls t) :
    ∃ m, Run MapStep (fun _ => none) calls m ∧ ((∀ k, m k = none) ↔ AllFree t) := by
  obtain ⟨m, spec, st, represents, wellFormed, rfl⟩ :=
    run.simulation Agrees.step (agrees_fresh junk t₀)
  refine ⟨st.lookup, spec, ?_⟩
  rw [wellFormed.empty_iff]
  constructor
  · exact represents.allFree
  · intro allFree
    cases tree : st.tree with
    | none => rfl
    | some tree' =>
        have held := represents.inTable tree
        exact absurd (held.root.symm.trans allFree.root) held.nonzero

/-- In the end all that was inserted has been deleted. -/
theorem tableRun_reclaims_sample : ∃ calls t, Run SafeStep (freshTable default default) calls t ∧
    calls.map Prod.fst = sampleOps ∧
    ∃ m, Run MapStep (fun _ => none) calls m ∧ ((∀ k, m k = none) ↔ AllFree t) := by
  obtain ⟨calls, t, run, ops⟩ := sampleRun
  exact ⟨calls, t, run, ops, tableRun_reclaims run⟩

end SimpleDatabase.Kernel
