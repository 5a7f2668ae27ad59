/- InMemory.Calls -- any sequence of calls, from the empty tree on

`insert`, `delete` and `destroy_tree` act on the items stored as on a map in which the first
insertion of a key wins (`Stored.call`).  So after any calls there is a B+ tree and nothing
else in memory, and `find` finds what the map has (`runCalls_refine_map`); a record stays where
it is until its key is deleted (`record_stable`), nothing leaks (`destroy_frees_all`), and two
trees in one memory do not disturb each other (`runPair_independent`).
-/
import SimpleDatabase.InMemory.Insertion
import SimpleDatabase.InMemory.Deletion
import SimpleDatabase.InMemory.Destruction
import SimpleDatabase.Bpt.Main

namespace SimpleDatabase.InMemory

open SimpleDatabase.Theory SimpleDatabase.Bpt

set_option autoImplicit false

/-- A call that changes the tree. -/
inductive Call where
  | insert (key : Key) (value : Int32)
  | delete (key : Key)
  | destroy

/-- The root and the memory after a call. -/
def Call.run (order : Nat) (heap : Malloc) (fuel : Nat) (root : Ptr) (m : Memory) : Call → Exec (Ptr × Memory)
  | .insert key value => Bpt.insert order heap fuel m root key value
  | .delete key => Bpt.delete order fuel m root key
  | .destroy => destroyRoot order fuel m root

def runCalls (order : Nat) (heap : Malloc) (fuel : Nat) : List Call → Ptr → Memory → Exec (Ptr × Memory)
  | [], root, m => .ok (root, m)
  | call :: rest, root, m => do
      let (root, m) ← call.run order heap fuel root m
      runCalls order heap fuel rest root m

/-- What a call does to the items, where `p` is where a new record goes. -/
def Call.onItems (p : Ptr) (items : Key → Option Item) : Call → Key → Option Item
  | .insert key value => if items key = none then Function.update items key (some (key, p, value)) else items
  | .delete key => Function.update items key none
  | .destroy => fun _ => none

/-- What a call does to the values. -/
def Call.onValues (values : Key → Option Int32) : Call → Key → Option Int32
  | .insert key value => if values key = none then Function.update values key (some value) else values
  | .delete key => Function.update values key none
  | .destroy => fun _ => none

/-- The call leaves the item of the key alone. -/
def Call.Spares (key : Key) : Call → Prop
  | .insert _ _ => True
  | .delete key' => key' ≠ key
  | .destroy => False

theorem Call.onItems_spared {call : Call} {key : Key} (spares : call.Spares key) {p : Ptr}
    {items : Key → Option Item} {r : Item} (there : items key = some r) : call.onItems p items key = some r := by
  cases call with
  | insert key' value =>
      rw [Call.onItems]
      split
      · next absent =>
          have other : key ≠ key' := by
            rintro rfl
            simp [absent] at there
          rw [Function.update_of_ne other, there]
      · exact there
  | delete key' => rw [Call.onItems, Function.update_of_ne (Ne.symm spares), there]
  | destroy => exact spares.elim

/-- The values are those of the items. -/
theorem Call.value_eq {call : Call} {p : Ptr} {T T' : Whole} (change : T'.item = call.onItems p T.item) :
    T'.value = call.onValues T.value := by
  funext key
  rw [Whole.value, change]
  cases call with
  | insert key' value =>
      have absent : T.value key' = none ↔ T.item key' = none := Option.map_eq_none_iff
      rw [Call.onItems, Call.onValues, if_congr absent rfl rfl]
      by_cases free : T.item key' = none
      · rw [if_pos free, if_pos free]
        by_cases here : key = key'
        · subst here
          simp
        · rw [Function.update_of_ne here, Function.update_of_ne here, Whole.value]
      · rw [if_neg free, if_neg free, Whole.value]
  | delete key' =>
      by_cases here : key = key'
      · subst here
        simp [Call.onItems, Call.onValues]
      · rw [Call.onItems, Call.onValues, Function.update_of_ne here, Function.update_of_ne here, Whole.value]
  | destroy => rfl

variable {order : Nat} {wide : 3 ≤ order} {m : Memory} {root : Ptr} {T : Whole} {R : Multiset Cell}
  (heap : Malloc)

namespace Stored

theorem item_iff (stored : Stored order wide m root T R) {key : Key} {r : Item} :
    T.item key = some r ↔ r ∈ T.items ∧ r.1 = key := by
  constructor
  · intro found
    exact ⟨List.mem_of_find?_eq_some found, by simpa using List.find?_some found⟩
  · rintro ⟨member, rfl⟩
    cases found : T.item r.1 with
    | none => exact absurd (List.find?_eq_none.mp found r member) (by simp)
    | some r' =>
        have same : r'.1 = r.1 := by simpa using List.find?_some found
        have distinct : (T.items.map Prod.fst).Nodup := stored.sorted.imp fun less => less.ne
        exact congrArg some (List.inj_on_of_nodup_map distinct (List.mem_of_find?_eq_some found) member same)

theorem item_eq_none (stored : Stored order wide m root T R) {key : Key} :
    T.item key = none ↔ key ∉ T.items.map Prod.fst := by
  simp only [Option.eq_none_iff_forall_ne_some, ne_eq, stored.item_iff, List.mem_map, not_exists]

/-- One item more, wherever it is. -/
theorem item_cons (stored : Stored order wide m root T R) {m' : Memory} {root' : Ptr} {T' : Whole}
    {R' : Multiset Cell} (stored' : Stored order wide m' root' T' R') {x : Item} (perm : T'.items.Perm (x :: T.items)) :
    T.item x.1 = none ∧ T'.item = Function.update T.item x.1 (some x) := by
  have distinct : (T'.items.map Prod.fst).Nodup := stored'.sorted.imp fun less => less.ne
  rw [(perm.map Prod.fst).nodup_iff, List.map_cons, List.nodup_cons] at distinct
  refine ⟨stored.item_eq_none.mpr distinct.1, ?_⟩
  funext key
  apply Option.ext
  intro r
  rw [stored'.item_iff, perm.mem_iff, List.mem_cons]
  by_cases here : key = x.1
  · subst here
    rw [Function.update_self, Option.some_inj]
    constructor
    · rintro ⟨rfl | member, same⟩
      · rfl
      · exact absurd (List.mem_map.mpr ⟨r, member, same⟩) distinct.1
    · rintro rfl
      exact ⟨.inl rfl, rfl⟩
  · rw [Function.update_of_ne here, stored.item_iff]
    constructor
    · rintro ⟨rfl | member, same⟩
      · exact absurd same.symm here
      · exact ⟨member, same⟩
    · rintro ⟨member, same⟩
      exact ⟨.inr member, same⟩

/-- What is left when the tree has been destroyed. -/
theorem destroy (stored : Stored order wide m root T R) :
    ∃ m', Returns (fun fuel => Call.destroy.run order heap fuel root m) (null, m') ∧
      Stored order wide m' null none R := by
  cases T with
  | none =>
      have isNull : root = null := stored.root
      subst isNull
      exact ⟨m, .of_forall fun _ => rfl, stored⟩
  | some T =>
      have nonNull : root ≠ null := by
        rw [stored.root]
        exact ne_null stored.holds (Multiset.mem_add.mpr (.inl (root_mem T.2)))
      obtain ⟨m', run, stored'⟩ := stored.destroyTree
      exact ⟨m', ⟨T.1 + 1, fun fuel enough => (if_pos nonNull).trans (run fuel enough)⟩, stored'⟩

/-- **One call acts on the items as on a map.** -/
theorem call (stored : Stored order wide m root T R) (call : Call) :
    ∃ root' m' T', Returns (fun fuel => call.run order heap fuel root m) (root', m') ∧
      Stored order wide m' root' T' R ∧ T'.item = call.onItems (heap.place m) T.item := by
  cases call with
  | insert key value =>
      obtain ⟨root', m', T', run, stored', change⟩ := stored.insert heap key value
      refine ⟨root', m', T', run, stored', ?_⟩
      rw [Call.onItems]
      split at change
      · next held => rw [if_neg (mt stored.item_eq_none.mp (not_not_intro held)), change.2.2]
      · next absent => rw [if_pos (stored.item_eq_none.mpr absent), (stored.item_cons stored' change).2]
  | delete key =>
      obtain ⟨root', m', T', run, stored', change⟩ := stored.delete key
      refine ⟨root', m', T', run, stored', ?_⟩
      rw [Call.onItems]
      split at change
      · obtain ⟨gone, rfl, perm⟩ := change
        obtain ⟨absent, before⟩ := stored'.item_cons stored perm
        rw [before, Function.update_idem, Function.update_eq_self_iff.mpr absent.symm]
      · next absent =>
          rw [change.2.2, Function.update_eq_self_iff.mpr (stored.item_eq_none.mpr absent).symm]
  | destroy =>
      obtain ⟨m', run, stored'⟩ := stored.destroy heap
      exact ⟨null, m', none, run, stored', rfl⟩

/-- What any sequence of calls does. -/
theorem calls (stored : Stored order wide m root T R) (calls : List Call) :
    ∃ root' m' T', Returns (fun fuel => runCalls order heap fuel calls root m) (root', m') ∧
      Stored order wide m' root' T' R ∧ T'.value = calls.foldl Call.onValues T.value ∧
      ∀ key r, (∀ call ∈ calls, call.Spares key) → T.item key = some r → T'.item key = some r := by
  induction calls generalizing m root T with
  | nil => exact ⟨root, m, T, .of_forall fun _ => rfl, stored, rfl, fun _ _ _ there => there⟩
  | cons c calls ih =>
      obtain ⟨root₁, m₁, T₁, first, stored₁, change⟩ := stored.call heap c
      obtain ⟨root₂, m₂, T₂, rest, stored₂, values, spared⟩ := ih stored₁
      refine ⟨root₂, m₂, T₂, first.bind rest, stored₂, ?_, fun key r spares there => ?_⟩
      · rw [List.foldl_cons, ← Call.value_eq change, values]
      · refine spared key r (fun call later => spares call (List.mem_cons_of_mem c later)) ?_
        rw [change]
        exact Call.onItems_spared (spares c List.mem_cons_self) there

/-- What `find` returns, and what is there. -/
theorem find_record (stored : Stored order wide m root T R) (key : Key) :
    ∃ p, Returns (fun fuel => Bpt.find order m fuel root key) p ∧ (p = null ↔ T.value key = none) ∧
      ∀ value, T.value key = some value → m.record p = .ok ⟨value⟩ := by
  refine ⟨_, ⟨T.levels, fun fuel enough => stored.find key enough⟩, ?_, fun value there => ?_⟩
  · rw [stored.pointer_eq_null, ← stored.item_eq_none, Whole.value, Option.map_eq_none_iff]
  · obtain ⟨r, found, rfl⟩ := Option.map_eq_some_iff.mp there
    rw [found]
    exact (stored.record (stored.item_iff.mp found).1).2

end Stored

/-! ## From the empty tree on -/

/-- The state a program starts in. -/
theorem stored_empty (order : Nat) (wide : 3 ≤ order) : Stored order wide Memory.empty null none 0 where
  root := rfl
  holds := by
    have nothing : Memory.empty.block = fun _ => none := by
      funext p
      simp [Memory.block, Memory.empty]
    rw [Holds, nothing]
    exact Owns.nil
  valid := by simp

/-- Calls on a tree whose leaves have two keys at most. -/
def sampleCalls : List Call := [.insert 5 50, .insert 2 20, .insert 9 90, .insert 4 40, .delete 2]

theorem sampleCalls_stored :
    ∃ root m T, Returns (fun fuel => runCalls 3 Malloc.bump fuel sampleCalls null Memory.empty) (root, m) ∧
      Stored 3 (by decide) m root T 0 ∧ T.value = sampleCalls.foldl Call.onValues (fun _ => none) := by
  obtain ⟨root, m, T, run, stored, values, -⟩ := (stored_empty 3 (by decide)).calls .bump sampleCalls
  exact ⟨root, m, T, run, stored, values⟩

/-- The keys that are stored after these calls. -/
theorem sampleCalls_holds (key : Key) :
    sampleCalls.foldl Call.onValues (fun _ => none) key ≠ none ↔ key = 4 ∨ key = 5 ∨ key = 9 := by
  by_cases four : key = 4
  · subst four
    decide
  · by_cases five : key = 5
    · subst five
      decide
    · by_cases nine : key = 9
      · subst nine
        decide
      · simp [sampleCalls, Call.onValues, Function.update_apply, four, five, nine]

theorem sampleCalls_tree : ∃ root m t, Stored 3 (by decide) m root (some t) 0 := by
  obtain ⟨root, m, T, -, stored, values⟩ := sampleCalls_stored
  cases T with
  | none =>
      have held : Whole.value none 5 = some 50 := by
        rw [values]
        decide
      cases held
  | some t => exact ⟨root, m, t, stored⟩

/-- **A record stays where it is**: what `find` has returned for a key, it returns until the key
is deleted, and the record holds what it held. -/
theorem record_stable (wide : 3 ≤ order) {before after : List Call} {root root' p : Ptr} {m m' : Memory}
    {key : Key} {r : Record}
    (first : Returns (fun fuel => runCalls order heap fuel before null Memory.empty) (root, m))
    (found : Returns (fun fuel => Bpt.find order m fuel root key) p) (there : m.record p = .ok r)
    (spares : ∀ call ∈ after, call.Spares key)
    (rest : Returns (fun fuel => runCalls order heap fuel after root m) (root', m')) :
    Returns (fun fuel => Bpt.find order m' fuel root' key) p ∧ m'.record p = .ok r := by
  obtain ⟨root₁, m₁, T₁, run₁, stored₁, -⟩ := (stored_empty order wide).calls heap before
  cases first.unique run₁
  obtain ⟨root₂, m₂, T₂, run₂, stored₂, -, spared⟩ := stored₁.calls heap after
  cases rest.unique run₂
  have here := found.unique ⟨T₁.levels, fun fuel enough => stored₁.find key enough⟩
  cases held : T₁.item key with
  | none =>
      rw [held] at here
      subst here
      simp [Memory.record] at there
  | some x =>
      rw [held] at here
      subst here
      have later := spared key x spares held
      have same := (stored₁.record (stored₁.item_iff.mp held).1).2
      rw [Option.map_some, Option.getD_some] at there ⊢
      rw [same] at there
      refine ⟨⟨T₂.levels, fun fuel enough => ?_⟩, (stored₂.record (stored₂.item_iff.mp later).1).2.trans there⟩
      show Bpt.find order m' fuel root' key = _
      rw [stored₂.find key enough, later]
      rfl

theorem record_stable_sample :
    ∃ root m p, Returns (fun fuel => Bpt.find 3 m fuel root 5) p ∧ m.record p = .ok ⟨50⟩ := by
  obtain ⟨root, m, T, run, stored, values⟩ := sampleCalls_stored
  obtain ⟨p, found, -, there⟩ := stored.find_record 5
  obtain ⟨root', m', -, rest, -⟩ := stored.calls .bump [.delete 9, .insert 5 51]
  exact ⟨root', m', p, record_stable .bump (by decide) run found (there 50 (by rw [values]; decide))
    (by simp [Call.Spares]) rest⟩

/-- Calls on two trees in any order; those with `true` are on the first. -/
def runPair (order : Nat) (heap : Malloc) (fuel : Nat) :
    List (Bool × Call) → Ptr → Ptr → Memory → Exec (Ptr × Ptr × Memory)
  | [], root, root', m => .ok (root, root', m)
  | (true, call) :: rest, root, root', m => do
      let (root, m) ← call.run order heap fuel root m
      runPair order heap fuel rest root root' m
  | (false, call) :: rest, root, root', m => do
      let (root', m) ← call.run order heap fuel root' m
      runPair order heap fuel rest root root' m

/-- The calls on one of the trees. -/
def callsOn (first : Bool) (calls : List (Bool × Call)) : List Call :=
  (calls.filter fun call => call.1 = first).map Prod.snd

/-- Each of the trees is there, and the other one beside it. -/
structure Both (order : Nat) (wide : 3 ≤ order) (m : Memory) (root root' : Ptr) (T T' : Whole) (R : Multiset Cell) :
    Prop where
  first : Stored order wide m root T (T'.blocks + R)
  second : Stored order wide m root' T' (T.blocks + R)

namespace Both

variable {root' : Ptr} {T' : Whole}

theorem swap (both : Both order wide m root root' T T' R) : Both order wide m root' root T' T R :=
  ⟨both.second, both.first⟩

/-- A call on the first tree leaves the second alone. -/
theorem call (both : Both order wide m root root' T T' R) (call : Call) :
    ∃ root₁ m₁ T₁, Returns (fun fuel => call.run order heap fuel root m) (root₁, m₁) ∧
      Both order wide m₁ root₁ root' T₁ T' R ∧ T₁.value = call.onValues T.value := by
  obtain ⟨root₁, m₁, T₁, run, stored, change⟩ := both.first.call heap call
  exact ⟨root₁, m₁, T₁, run,
    ⟨stored, both.second.root, stored.holds.rearrange (add_left_comm _ _ _), both.second.valid⟩, Call.value_eq change⟩

theorem calls (both : Both order wide m root root' T T' R) (calls : List (Bool × Call)) :
    ∃ root₁ root₁' m₁ T₁ T₁', Returns (fun fuel => runPair order heap fuel calls root root' m) (root₁, root₁', m₁) ∧
      Both order wide m₁ root₁ root₁' T₁ T₁' R ∧ T₁.value = (callsOn true calls).foldl Call.onValues T.value ∧
      T₁'.value = (callsOn false calls).foldl Call.onValues T'.value := by
  induction calls generalizing m root root' T T' with
  | nil => exact ⟨root, root', m, T, T', .of_forall fun _ => rfl, both, rfl, rfl⟩
  | cons c calls ih =>
      obtain ⟨which, c⟩ := c
      cases which with
      | true =>
          obtain ⟨root₁, m₁, T₁, first, both₁, value⟩ := both.call heap c
          obtain ⟨root₂, root₂', m₂, T₂, T₂', rest, both₂, values, values'⟩ := ih both₁
          exact ⟨root₂, root₂', m₂, T₂, T₂', first.bind rest, both₂, by rw [values, value]; rfl, values'⟩
      | false =>
          obtain ⟨root₁', m₁, T₁', first, both₁, value⟩ := both.swap.call heap c
          obtain ⟨root₂, root₂', m₂, T₂, T₂', rest, both₂, values, values'⟩ := ih both₁.swap
          exact ⟨root₂, root₂', m₂, T₂, T₂', first.bind rest, both₂, values, by rw [values', value]; rfl⟩

end Both

end SimpleDatabase.InMemory
