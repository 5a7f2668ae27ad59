/- Kernel.MapRuns -- a table is a map in which the first insertion wins

Calls of `db_insert`, `db_find` and `db_delete` on a new table, one after the other,
against a map.  A call is `Safe` if the separators it sends up still separate after an
`int` has carried them, and if it does not redistribute the keys of an internal page that
is its parent's last child.  A safe call does to the table what `Store.after` does to the
store it holds (`Represents.follows`), and every run of safe calls is a run of the map,
reply for reply (`tableRun_refines_map`).  A run with a call that is not need not be: in one of them a
key that was inserted is lost (`tableRun_loses_key`).
-/
import SimpleDatabase.Kernel.Insert
import SimpleDatabase.Kernel.Delete

namespace SimpleDatabase.Kernel

open SimpleDatabase.Theory SimpleDatabase.Theory.PageTree SimpleDatabase.Project5 Page

set_option autoImplicit false

/-! ## The map -/

/-- A call of the interface; `find` has a buffer with something in it. -/
inductive Op where
  | insert (k : Key) (v : Value)
  | find (k : Key) (retVal : Value)
  | delete (k : Key)

/-- What a call returns, and what its buffer holds afterwards. -/
inductive Reply where
  | status (r : Int)
  | value (r : Int) (retVal : Value)

/-- One call on a map in which the first insertion of a key wins. -/
inductive MapStep (m : Key → Option Value) : Op × Reply → (Key → Option Value) → Prop
  | insertNew {k : Key} (v : Value) (absent : m k = none) :
      MapStep m (.insert k v, .status 0) (Function.update m k (some v))
  | insertOld {k : Key} {w : Value} (v : Value) (present : m k = some w) :
      MapStep m (.insert k v, .status 0) m
  | findHeld {k : Key} {v : Value} (retVal : Value) (present : m k = some v) :
      MapStep m (.find k retVal, .value 0 v) m
  | findAbsent {k : Key} (retVal : Value) (absent : m k = none) :
      MapStep m (.find k retVal, .value (-1) retVal) m
  | deleteHeld {k : Key} {v : Value} (present : m k = some v) :
      MapStep m (.delete k, .status 0) (Function.update m k none)
  | deleteAbsent {k : Key} (absent : m k = none) : MapStep m (.delete k, .status (-1)) m

/-! ## The table -/

/-- A call on a table file that returns. -/
inductive Call (heap : Nat → Page) (t : Table) : Op → Reply → Table → Prop
  | insert {k : Key} {v : Value} {r : Int} {t' : Table}
      (run : Returns (fun fuel => dbInsert heap fuel t k v) (r, t')) :
      Call heap t (.insert k v) (.status r) t'
  | find {k : Key} {retVal : Value} {r : Int} {v : Value}
      (run : Returns (fun fuel => dbFind fuel t k retVal) (r, v)) :
      Call heap t (.find k retVal) (.value r v) t
  | delete {k : Key} {r : Int} {t' : Table}
      (run : Returns (fun fuel => dbDelete .layout fuel t k) (r, t')) :
      Call heap t (.delete k) (.status r) t'

theorem Call.unique {heap : Nat → Page} {t : Table} {op : Op} {r r' : Reply} {t' t'' : Table}
    (left : Call heap t op r t') (right : Call heap t op r' t'') : r = r' ∧ t' = t'' := by
  cases left with
  | insert run =>
      cases right with
      | insert run' =>
          cases run.unique run'
          exact ⟨rfl, rfl⟩
  | find run =>
      cases right with
      | find run' =>
          cases run.unique run'
          exact ⟨rfl, rfl⟩
  | delete run =>
      cases right with
      | delete run' =>
          cases run.unique run'
          exact ⟨rfl, rfl⟩

/-- One call, made with any bytes in the memory `malloc` gives. -/
def CallStep (t : Table) (call : Op × Reply) (t' : Table) : Prop :=
  ∃ heap, Call heap t call.1 call.2 t'

/-- The call does not run into the places where the code is wrong: an insertion sends up
no separator that an `int` spoils, and a deletion redistributes no internal page that is
its parent's last child. -/
def Safe (t : Table) : Op → Prop
  | .insert k v => ∀ st, Represents t st → st.lookup k = none →
      ∀ p ∈ st.posted k v, p.SeparatedBy (throughInt p.sep)
  | .find _ _ => True
  | .delete k => ∀ st, Represents t st → (st.lookup k).isSome →
      ∀ x ∈ st.underflows k, Underflow.Smooth x

def SafeStep (t : Table) (call : Op × Reply) (t' : Table) : Prop :=
  Safe t call.1 ∧ CallStep t call t'

/-! ## A call on a well-formed table -/

section Maps

variable {st : Store} {k : Key} {v : Value}

theorem Contents.keys_eq (c : Contents) : c.keys = c.records.map Prod.fst := by
  cases c with
  | none => rfl
  | some tree => rfl

theorem Store.WellFormed.absent_iff (wellFormed : st.WellFormed) (k : Key) :
    st.lookup k = none ↔ k ∉ st.tree.keys := by
  rw [Contents.keys_eq, Option.eq_none_iff_forall_ne_some]
  simp [wellFormed.lookup_iff]

/-- The keys of a well-formed store are different. -/
theorem Store.WellFormed.keys_nodup (wellFormed : st.WellFormed) : st.tree.keys.Nodup := by
  obtain ⟨tree, a⟩ := st
  cases tree with
  | none => exact List.nodup_nil
  | some tree =>
      obtain ⟨h, s⟩ := tree
      have tree := wellFormed h s rfl
      have sorted := tree.within.keys_sorted (tree.keyed least_pos).stocked tree.sorted
      exact sorted.imp fun less => ne_of_lt less

theorem Store.WellFormed.lookup_insert (wellFormed : st.WellFormed)
    (after : (st.insert k v).WellFormed) (absent : st.lookup k = none) :
    (st.insert k v).lookup = Function.update st.lookup k (some v) := by
  have records := wellFormed.packed.insert_records (k := k) (v := v)
  funext x
  apply Option.ext
  intro w
  rw [after.lookup_iff, records.mem_iff, List.mem_cons, ← wellFormed.lookup_iff]
  by_cases same : x = k
  · subst same
    simp [absent, eq_comm]
  · simp [same]

theorem Store.WellFormed.lookup_delete (wellFormed : st.WellFormed) (found : st.lookup k = some v) :
    (st.delete k).lookup = Function.update st.lookup k none := by
  have after := wellFormed.delete found
  have records := wellFormed.delete_records found
  have distinct := wellFormed.keys_nodup
  -- no other record has the key
  have gone : k ∉ (st.delete k).tree.records.map Prod.fst := by
    rw [Contents.keys_eq, (records.map Prod.fst).nodup_iff, List.map_cons, List.nodup_cons] at distinct
    exact distinct.1
  funext x
  apply Option.ext
  intro w
  rw [after.lookup_iff]
  by_cases same : x = k
  · subst same
    simpa using fun record => gone (List.mem_map_of_mem record)
  · rw [Function.update_of_ne same, wellFormed.lookup_iff, records.mem_iff]
    simp [same]

/-! ## What a call makes of the store -/

/-- What `db_insert` does to a store. -/
def Store.put (st : Store) (record : Key × Value) : Store :=
  if (st.lookup record.1).isSome then st else st.insert record.1 record.2

/-- The store after a call. -/
def Store.after (st : Store) : Op → Store
  | .insert k v => st.put (k, v)
  | .find _ _ => st
  | .delete k => if (st.lookup k).isSome then st.delete k else st

/-- What `Safe` asks of a call, read off the store. -/
def Store.SafeFor (st : Store) : Op → Prop
  | .insert k v => st.lookup k = none → ∀ p ∈ st.posted k v, p.SeparatedBy (throughInt p.sep)
  | .find _ _ => True
  | .delete k => (st.lookup k).isSome → ∀ x ∈ st.underflows k, Underflow.Smooth x

instance (st : Store) : DecidablePred st.SafeFor
  | .insert k v =>
      inferInstanceAs (Decidable (st.lookup k = none → ∀ p ∈ st.posted k v, p.SeparatedBy (throughInt p.sep)))
  | .find _ _ => .isTrue trivial
  | .delete k => inferInstanceAs (Decidable ((st.lookup k).isSome → ∀ x ∈ st.underflows k, Underflow.Smooth x))

/-- One call after the other. -/
def Store.SafeForAll : Store → List Op → Prop
  | _, [] => True
  | st, op :: ops => st.SafeFor op ∧ (st.after op).SafeForAll ops

instance decidableSafeForAll : (st : Store) → (ops : List Op) → Decidable (st.SafeForAll ops)
  | _, [] => .isTrue trivial
  | st, op :: ops => @instDecidableAnd _ _ _ (decidableSafeForAll (st.after op) ops)

variable {t t' : Table}

theorem Represents.safe_iff (represents : Represents t st) (op : Op) : Safe t op ↔ st.SafeFor op := by
  cases op with
  | insert k v =>
      refine ⟨fun safe => safe st represents, fun safe st' other => ?_⟩
      rw [other.unique represents]
      exact safe
  | find k retVal => exact Iff.rfl
  | delete k =>
      refine ⟨fun safe => safe st represents, fun safe st' other => ?_⟩
      rw [other.unique represents]
      exact safe

/-- The descent ends at a page in which `find_value` finds what the store holds. -/
theorem Represents.finds (represents : Represents t st) (keyed : st.Keyed) (k : Key) :
    ∃ pgnum, Returns (fun fuel => findLeafPage fuel t k) pgnum ∧
      findValue (t pgnum) k = .ok (st.lookup k) := by
  obtain ⟨tree, a⟩ := st
  cases tree with
  | none => exact ⟨_, findLeafPage_empty represents.root k, findValue_header represents.root k⟩
  | some tree =>
      obtain ⟨h, s⟩ := tree
      have held := represents.inTable rfl
      exact ⟨_, findLeafPage_eq held (keyed h s rfl) k, findValue_leafFor held.shape k⟩

/-- The call returns as the map says, and the table then holds the store after it. -/
def Follows (heap : Nat → Page) (t : Table) (st : Store) (op : Op) : Prop :=
  ∃ r t', Call heap t op r t' ∧ MapStep st.lookup (op, r) (st.after op).lookup ∧
    Represents t' (st.after op) ∧ (st.after op).WellFormed

theorem Represents.insert_follows (represents : Represents t st) (wellFormed : st.WellFormed)
    (safe : Safe t (.insert k v)) (heap : Nat → Page) : Follows heap t st (.insert k v) := by
  obtain ⟨t', run, after⟩ := dbInsert_spec represents (wellFormed.packed.keyed least_pos) heap k v
  cases found : st.lookup k with
  | some old =>
      obtain rfl : t' = t := by simpa [found] using after
      have same : st.after (.insert k v) = st := if_pos (by rw [found]; rfl)
      rw [Follows, same]
      exact ⟨_, t', .insert run, .insertOld v found, represents, wellFormed⟩
  | none =>
      have after : Represents t' (st.insert k v) := by simpa [found] using after
      have next := wellFormed.insert (v := v) ((wellFormed.absent_iff k).mp found) fun p member _ =>
        safe st represents found p member
      have new : st.after (.insert k v) = st.insert k v := if_neg (by simp [found])
      rw [Follows, new, wellFormed.lookup_insert next found]
      exact ⟨_, t', .insert run, .insertNew v found, after, next⟩

theorem Represents.find_follows (represents : Represents t st) (wellFormed : st.WellFormed)
    (heap : Nat → Page) (k : Key) (retVal : Value) : Follows heap t st (.find k retVal) := by
  obtain ⟨pgnum, descent, value⟩ := represents.finds (wellFormed.packed.keyed least_pos) k
  have run := dbFind_of_descent descent value retVal
  cases found : st.lookup k with
  | none =>
      rw [found] at run
      exact ⟨_, t, .find run, .findAbsent retVal found, represents, wellFormed⟩
  | some v =>
      rw [found] at run
      exact ⟨_, t, .find run, .findHeld retVal found, represents, wellFormed⟩

theorem Represents.delete_follows (represents : Represents t st) (wellFormed : st.WellFormed)
    (safe : Safe t (.delete k)) (heap : Nat → Page) : Follows heap t st (.delete k) := by
  cases found : st.lookup k with
  | none =>
      obtain ⟨pgnum, descent, value⟩ := represents.finds (wellFormed.packed.keyed least_pos) k
      rw [found] at value
      have same : st.after (.delete k) = st := if_neg (by simp [found])
      rw [Follows, same]
      exact ⟨_, t, .delete (dbDelete_of_descent descent value .layout), .deleteAbsent found, represents, wellFormed⟩
  | some v =>
      obtain ⟨t', run, after⟩ := dbDelete_held represents wellFormed found
        (safe st represents (by rw [found]; rfl))
      have new : st.after (.delete k) = st.delete k := if_pos (by rw [found]; rfl)
      rw [Follows, new, wellFormed.lookup_delete found]
      exact ⟨_, t', .delete run, .deleteHeld found, after, wellFormed.delete found⟩

/-- **A safe call returns, and does what the map says.** -/
theorem Represents.follows (represents : Represents t st) (wellFormed : st.WellFormed) (heap : Nat → Page)
    {op : Op} (safe : Safe t op) : Follows heap t st op := by
  cases op with
  | insert k v => exact represents.insert_follows wellFormed safe heap
  | find k retVal => exact represents.find_follows wellFormed heap k retVal
  | delete k => exact represents.delete_follows wellFormed safe heap

theorem SafeStep.after {op : Op} {r : Reply} (step : SafeStep t (op, r) t') (represents : Represents t st)
    (wellFormed : st.WellFormed) : Represents t' (st.after op) ∧ (st.after op).WellFormed := by
  obtain ⟨safe, heap, call⟩ := step
  obtain ⟨r', t'', call', -, after⟩ := represents.follows wellFormed heap safe
  obtain ⟨-, rfl⟩ := call.unique call'
  exact after

/-! ## Runs of safe calls -/

/-- The table holds a well-formed store, and searching it is looking up the map. -/
def Agrees (t : Table) (m : Key → Option Value) : Prop :=
  ∃ st, Represents t st ∧ st.WellFormed ∧ st.lookup = m

variable {m : Key → Option Value}

theorem agrees_fresh (junk : Page) (t₀ : Table) : Agrees (freshTable junk t₀) fun _ => none :=
  ⟨⟨none, ⟨[], 1⟩⟩, freshTable_represents junk t₀, (fun _ _ tree => nomatch tree), rfl⟩

theorem Agrees.call (agrees : Agrees t m) (heap : Nat → Page) {op : Op} (safe : Safe t op) :
    ∃ r m' t', Call heap t op r t' ∧ MapStep m (op, r) m' ∧ Agrees t' m' := by
  obtain ⟨st, represents, wellFormed, rfl⟩ := agrees
  obtain ⟨r, t', call, same, after, kept⟩ := represents.follows wellFormed heap safe
  exact ⟨r, _, t', call, same, st.after op, after, kept, rfl⟩

theorem Agrees.step (t : Table) (m : Key → Option Value) (call : Op × Reply) (t' : Table)
    (agrees : Agrees t m) (step : SafeStep t call t') : ∃ m', MapStep m call m' ∧ Agrees t' m' := by
  obtain ⟨op, r⟩ := call
  obtain ⟨safe, heap, run⟩ := step
  obtain ⟨r', m', t'', run', same, after⟩ := agrees.call heap safe
  obtain ⟨rfl, rfl⟩ := run.unique run'
  exact ⟨m', same, after⟩

end Maps

/-- **Every run of safe calls on a new table is a run of the map**, reply for reply, and
a safe call after it returns with the reply the map gives. -/
theorem tableRun_refines_map {junk : Page} {t₀ t : Table} {calls : List (Op × Reply)}
    (run : Run SafeStep (freshTable junk t₀) calls t) :
    ∃ m, Run MapStep (fun _ => none) calls m ∧
      ∀ heap op, Safe t op → ∃ r m' t', Call heap t op r t' ∧ MapStep m (op, r) m' := by
  obtain ⟨m, spec, agrees⟩ := run.simulation Agrees.step (agrees_fresh junk t₀)
  refine ⟨m, spec, ?_⟩
  intro heap op safe
  obtain ⟨r, m', t', call, same, -⟩ := agrees.call heap safe
  exact ⟨r, m', t', call, same⟩

/-- Safe calls can be made, one after the other. -/
theorem Represents.safeRun {t : Table} {st : Store} (represents : Represents t st) (wellFormed : st.WellFormed)
    {ops : List Op} (safe : st.SafeForAll ops) : ∃ calls t', Run SafeStep t calls t' ∧ calls.map Prod.fst = ops := by
  induction ops generalizing t st with
  | nil => exact ⟨[], t, .nil t, rfl⟩
  | cons op ops ih =>
      have first : Safe t op := (represents.safe_iff op).mpr safe.1
      obtain ⟨r, u, call, -, after, kept⟩ := represents.follows wellFormed (fun _ => default) first
      obtain ⟨calls, t', run, same⟩ := ih after kept safe.2
      exact ⟨(op, r) :: calls, t', .cons ⟨first, _, call⟩ run, congrArg (op :: ·) same⟩

/-- The records split a leaf; while they are deleted its two halves first share what is left
of them and then become one leaf, which is the root until it is empty. -/
def sampleOps : List Op :=
  smallRecords.map (fun r => .insert r.1 r.2) ++ .find 20 default :: smallRecords.map fun r => .delete r.1

theorem sampleRun : ∃ calls t, Run SafeStep (freshTable default default) calls t ∧
    calls.map Prod.fst = sampleOps :=
  (freshTable_represents default default).safeRun (by rintro _ _ ⟨⟩) (by decide +kernel)

theorem tableRun_refines_map_sample : ∃ calls t, Run SafeStep (freshTable default default) calls t ∧
    calls.map Prod.fst = sampleOps ∧
    ∃ m, Run MapStep (fun _ => none) calls m ∧
      ∀ heap op, Safe t op → ∃ r m' t', Call heap t op r t' ∧ MapStep m (op, r) m' := by
  obtain ⟨calls, t, run, ops⟩ := sampleRun
  exact ⟨calls, t, run, ops, tableRun_refines_map run⟩

/-! ## A run that loses a key -/

/-- Keys that an `int` makes 0. -/
def wideRecords : List (Key × Value) := (List.range 32).map fun i => (Int64.ofNat (i * 2 ^ 32), default)

/-- Insertions, each of which returns 0. -/
def insertCalls (records : List (Key × Value)) : List (Op × Reply) :=
  records.map fun r => (.insert r.1 r.2, .status 0)

/-- Insertions on a table do what they do on its store, whatever the separators. -/
theorem insertCalls_run {t : Table} {st : Store} (represents : Represents t st)
    (packed : st.Packed fun h => maxKeys h / 2) (records : List (Key × Value)) :
    ∃ t', Run CallStep t (insertCalls records) t' ∧ Represents t' (records.foldl Store.put st) ∧
      (records.foldl Store.put st).Keyed := by
  induction records generalizing t st with
  | nil => exact ⟨t, .nil t, represents, packed.keyed half_pos⟩
  | cons r records ih =>
      obtain ⟨u, run, after⟩ := dbInsert_spec represents (packed.keyed half_pos) (fun _ => default) r.1 r.2
      have next : Represents u (st.put r) ∧ (st.put r).Packed fun h => maxKeys h / 2 := by
        unfold Store.put
        cases found : st.lookup r.1 with
        | some v =>
            obtain rfl : u = t := by simpa [found] using after
            exact ⟨represents, packed⟩
        | none =>
            exact ⟨by simpa [found] using after, packed.insert (fun _ => Nat.le_refl _) found⟩
      obtain ⟨t', rest, final⟩ := ih next.1 next.2
      exact ⟨t', .cons ⟨_, .insert run⟩ rest, final⟩

/-- In the map, insertions keep what is there. -/
theorem insertCalls_keep {m m' : Key → Option Value} {records : List (Key × Value)}
    {calls : List (Op × Reply)} (run : Run MapStep m (insertCalls records ++ calls) m') {k : Key}
    (held : (m k).isSome) : ∃ m₁, Run MapStep m₁ calls m' ∧ (m₁ k).isSome := by
  induction records generalizing m with
  | nil => exact ⟨m, run, held⟩
  | cons r records ih =>
      cases run with
      | cons here rest =>
          refine ih rest ?_
          cases here with
          | insertNew v absent =>
              by_cases same : k = r.1
              · rw [same]
                simp
              · rwa [Function.update_of_ne same]
          | insertOld v present => exact held

/-- **A key that has been inserted is not found**, after insertions of keys whose low 32
bits are 0: the separator that goes up is 0, and every search goes past the left page. -/
theorem tableRun_loses_key : ∃ calls t, Run CallStep (freshTable default default) calls t ∧
    ¬ ∃ m, Run MapStep (fun _ => none) calls m := by
  obtain ⟨t, inserted, represents, keyed⟩ := insertCalls_run (freshTable_represents default default)
    (fun _ _ tree => nomatch tree) wideRecords
  obtain ⟨pgnum, descent, value⟩ := represents.finds keyed 0
  have lost : (wideRecords.foldl Store.put ⟨none, ⟨[], 1⟩⟩).lookup 0 = none := by decide +kernel
  rw [lost] at value
  have find := dbFind_of_descent descent value default
  refine ⟨insertCalls wideRecords ++ [(.find 0 default, .value (-1) default)], t,
    inserted.append (.cons ⟨fun _ => default, .find find⟩ (.nil t)), ?_⟩
  rintro ⟨m, run⟩
  have first : wideRecords = (0, default) :: wideRecords.tail := by decide +kernel
  rw [first] at run
  cases run with
  | cons here rest =>
      have held : ∃ m₁, Run MapStep m₁ [(.find 0 default, .value (-1) default)] m ∧ (m₁ 0).isSome := by
        refine insertCalls_keep rest ?_
        cases here with
        | insertNew v absent => simp
        | insertOld v present => simp [present]
      obtain ⟨m₁, last, held⟩ := held
      cases last with
      | cons here _ =>
          cases here with
          | findAbsent _ absent => simp [absent] at held

end SimpleDatabase.Kernel
