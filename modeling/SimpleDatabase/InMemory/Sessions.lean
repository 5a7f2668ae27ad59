/- InMemory.Sessions -- every session of the program, from its start to the end of its input

What a session looks like from outside is a set of keys, whether `verbose_output` is set, and a
B+ tree with just these keys, each with itself as its value (`View`); `Shows` says what an
instruction prints and what it makes of them.  Every session is a run of `Shows` (`main_returns`), whatever
the order, the allocator, the input file and the instructions are, if only the size of each
range asked for is an `int` and the stack has room for as many elements in both arrays of
`find_and_print_range` (`Sized`).  Where it has not, the session ends there
(`main_overflows`).
-/
import SimpleDatabase.InMemory.Calls
import SimpleDatabase.InMemory.LevelOrder
import SimpleDatabase.Theory.Run
import Mathlib.Data.Finset.Basic

namespace SimpleDatabase.InMemory

open SimpleDatabase.Theory SimpleDatabase.Bpt

set_option autoImplicit false

/-- Every key has itself as its value. -/
def ownValues (keys : Finset Key) (key : Key) : Option Int32 := if key ∈ keys then some key else none

structure View (order : Nat) (wide : 3 ≤ order) where
  verbose : Bool
  keys : Finset Key
  tree : Whole
  valid : ∀ t ∈ tree, PageTree.Valid (limits order wide) t.2
  values : tree.value = ownValues keys

section Shows

variable {order : Nat} {wide : 3 ≤ order}

/-- The record that is found under a key. -/
inductive Found (v : View order wide) (key : Key) : Option Item → Prop
  | held (p : Ptr) (held : key ∈ v.keys) : Found v key (some (key, p, key))
  | absent (absent : key ∉ v.keys) : Found v key none

/-- An instruction with what it prints. -/
inductive Shows : View order wide → Instruction × Output → View order wide → Prop
  | delete {v w : View order wide} (key : Key) (keys : w.keys = v.keys.erase key) (verbose : w.verbose = v.verbose) :
      Shows v (.delete key, w.tree.treeText w.verbose) w
  | insert {v w : View order wide} (key : Key) (keys : w.keys = insert key v.keys) (verbose : w.verbose = v.verbose) :
      Shows v (.insert key, w.tree.treeText w.verbose) w
  | destroy {v w : View order wide} (keys : w.keys = ∅) (verbose : w.verbose = v.verbose) :
      Shows v (.destroy, w.tree.treeText w.verbose) w
  | find {v : View order wide} {key : Key} {r : Option Item} (found : Found v key r) :
      Shows v (.find key, foundText key r) v
  | path {v : View order wide} {key : Key} {r : Option Item} (found : Found v key r) :
      Shows v (.path key, v.tree.traceText true key ++ foundText key r) v
  | range (v : View order wide) (a b : Key) : Shows v (.range a b, rangeText (v.tree.found (min a b) (max a b))) v
  | leaves (v : View order wide) : Shows v (.leaves, v.tree.leavesText v.verbose) v
  | tree (v : View order wide) : Shows v (.tree, v.tree.treeText v.verbose) v
  | verbose (v : View order wide) : Shows v (.verbose, []) { v with verbose := !v.verbose }
  | other (v : View order wide) : Shows v (.other, usage2) v

end Shows

/-- The size of a range is an `int`, and the stack has room for as many elements. -/
def Sized (room : Nat) : Instruction → Prop
  | .range a b => (max a b).toInt - (min a b).toInt < 2 ^ 31 - 1 ∧ (max a b).toInt - (min a b).toInt < room
  | _ => True

instance (room : Nat) : DecidablePred (Sized room)
  | .range a b => inferInstanceAs (Decidable (_ ∧ (max a b).toInt - (min a b).toInt < room))
  | .delete _ | .insert _ | .find _ | .path _ | .leaves | .tree | .verbose | .destroy | .other => .isTrue trivial

/-- The session is in a state that looks so. -/
structure LooksLike {order : Nat} {wide : 3 ≤ order} (s : Session) (v : View order wide) : Prop where
  stored : Stored order wide s.memory s.root v.tree 0
  verbose : s.verboseOutput = v.verbose

/-! ## Keys and values -/

theorem onValues_insert (keys : Finset Key) (key : Key) :
    (Call.insert key key).onValues (ownValues keys) = ownValues (insert key keys) := by
  funext x
  by_cases held : key ∈ keys
  · rw [Call.onValues, if_neg (by simp [ownValues, held]), Finset.insert_eq_of_mem held]
  · rw [Call.onValues, if_pos (by simp [ownValues, held])]
    by_cases here : x = key
    · subst here
      simp [ownValues]
    · simp [ownValues, here]

theorem onValues_delete (keys : Finset Key) (key : Key) :
    (Call.delete key).onValues (ownValues keys) = ownValues (keys.erase key) := by
  funext x
  by_cases here : x = key
  · subst here
    simp [Call.onValues, ownValues]
  · simp [Call.onValues, ownValues, here]

/-! ## One instruction -/

/-- The two bounds of a range come in order. -/
theorem execute_range (order : Nat) (heap : Malloc) (room fuel : Nat) (s : Session) (a b : Key) :
    Bpt.execute order heap room fuel s (.range a b) =
      Bpt.findAndPrintRange order s.memory room false fuel s.root (min a b) (max a b) >>= fun out => .ok (s, out) := by
  have swap : (if a > b then (b, a) else (a, b)) = (min a b, max a b) := by
    split
    · next greater => rw [min_eq_right greater.le, max_eq_left greater.le]
    · next le => rw [min_eq_left (not_lt.mp le), max_eq_right (not_lt.mp le)]
  simp only [Bpt.execute, swap]
  rfl

/-- A range too large for the stack ends the session. -/
theorem execute_overflows (order : Nat) (heap : Malloc) {room : Nat} {a b : Key}
    (int : (max a b).toInt - (min a b).toInt < 2 ^ 31 - 1) (large : room ≤ (max a b).toInt - (min a b).toInt)
    (fuel : Nat) (s : Session) : Bpt.execute order heap room fuel s (.range a b) = .error .stackOverflow := by
  have full : room < arraySize (min a b) (max a b) := (room_lt_arraySize_iff min_le_max room).mpr ⟨large, int⟩
  rw [execute_range, Bpt.findAndPrintRange, if_pos full, Exec.error_bind]

variable {order : Nat} {wide : 3 ≤ order} {s : Session} {v : View order wide} (heap : Malloc) {room : Nat}

namespace LooksLike

theorem showTree (looks : LooksLike s v) :
    ∃ s', Returns (fun fuel => Bpt.showTree order fuel s) (s', v.tree.treeText v.verbose) ∧
      LooksLike s' v := by
  obtain ⟨m', run, stored⟩ := looks.stored.printTree s.verboseOutput
  refine ⟨{ s with memory := m' }, ?_, stored, looks.verbose⟩
  rw [← looks.verbose]
  exact run.bind (.of_forall fun _ => rfl)

/-- What a call makes of the session. -/
theorem call (looks : LooksLike s v) (call : Call) (keys : Finset Key)
    (change : call.onValues (ownValues v.keys) = ownValues keys) :
    ∃ (root : Ptr) (m : Memory) (w : View order wide),
      Returns (fun fuel => call.run order heap fuel s.root s.memory) (root, m) ∧ w.keys = keys ∧
        w.verbose = v.verbose ∧ LooksLike { s with root, memory := m } w := by
  obtain ⟨root, m, T, run, stored, items⟩ := looks.stored.call heap call
  have values : T.value = ownValues keys := by rw [Call.value_eq items, v.values, change]
  exact ⟨root, m, ⟨v.verbose, keys, T, stored.valid, values⟩, run, rfl, rfl, stored, looks.verbose⟩

theorem found (looks : LooksLike s v) (key : Key) : Found v key (v.tree.item key) := by
  have value : (v.tree.item key).map (fun r => r.2.2) = ownValues v.keys key := congrFun v.values key
  cases item : v.tree.item key with
  | none =>
      rw [item, Option.map_none, ownValues] at value
      exact .absent fun held => by simp [held] at value
  | some r =>
      obtain ⟨k, p, x⟩ := r
      obtain rfl : k = key := (looks.stored.item_iff.mp item).2
      rw [item, Option.map_some, ownValues] at value
      split at value
      · next held =>
          obtain rfl : x = k := Option.some.inj value
          exact .held p held
      · cases value

/-- **Every instruction returns and prints what it should.** -/
theorem execute (looks : LooksLike s v) (instruction : Instruction) (sized : Sized room instruction) :
    ∃ (s' : Session) (out : Output) (w : View order wide),
      Returns (fun fuel => Bpt.execute order heap room fuel s instruction) (s', out) ∧
        LooksLike s' w ∧ Shows v (instruction, out) w := by
  cases instruction with
  | delete key =>
      obtain ⟨root, m, w, run, keys, verbose, looks⟩ := looks.call heap (.delete key) _ (onValues_delete _ key)
      obtain ⟨s', shown, looks⟩ := looks.showTree
      exact ⟨s', _, w, run.bind shown, looks, .delete key keys verbose⟩
  | insert key =>
      obtain ⟨root, m, w, run, keys, verbose, looks⟩ := looks.call heap (.insert key key) _ (onValues_insert _ key)
      obtain ⟨s', shown, looks⟩ := looks.showTree
      exact ⟨s', _, w, run.bind shown, looks, .insert key keys verbose⟩
  | destroy =>
      obtain ⟨root, m, w, run, keys, verbose, looks⟩ := looks.call heap .destroy ∅ rfl
      obtain ⟨s', shown, looks⟩ := looks.showTree
      exact ⟨s', _, w, run.bind shown, looks, .destroy keys verbose⟩
  | find key =>
      have run : Returns (fun fuel => Bpt.findAndPrint order s.memory false fuel s.root key) _ :=
        ⟨v.tree.levels, fun fuel enough => looks.stored.findAndPrint false key enough⟩
      exact ⟨s, _, v, run.bind (.of_forall fun _ => rfl), looks, .find (looks.found key)⟩
  | path key =>
      have run : Returns (fun fuel => Bpt.findAndPrint order s.memory true fuel s.root key) _ :=
        ⟨v.tree.levels, fun fuel enough => looks.stored.findAndPrint true key enough⟩
      exact ⟨s, _, v, run.bind (.of_forall fun _ => rfl), looks, .path (looks.found key)⟩
  | range a b =>
      obtain ⟨int, fits⟩ := sized
      obtain ⟨enough, run⟩ := looks.stored.findAndPrintRange room false (min a b) (max a b)
      have starts : ¬ room < arraySize (min a b) (max a b) := by
        rw [room_lt_arraySize_iff min_le_max, not_and_or, not_le]
        exact .inl fits
      rw [if_neg starts, if_pos (.inr int)] at run
      have run : Returns
          (fun fuel => Bpt.findAndPrintRange order s.memory room false fuel s.root (min a b) (max a b)) _ :=
        ⟨enough, run⟩
      refine ⟨s, _, v, ?_, looks, .range v a b⟩
      simp only [execute_range]
      exact run.bind (.of_forall fun _ => rfl)
  | leaves =>
      have run := looks.stored.printLeaves v.verbose
      rw [← looks.verbose] at run
      exact ⟨s, _, v, run.bind (.of_forall fun _ => rfl), looks, looks.verbose ▸ .leaves v⟩
  | tree =>
      obtain ⟨s', shown, looks⟩ := looks.showTree
      exact ⟨s', _, v, shown, looks, .tree v⟩
  | verbose =>
      refine ⟨{ s with verboseOutput := !s.verboseOutput }, [], { v with verbose := !v.verbose },
        .of_forall fun _ => rfl, ⟨looks.stored, ?_⟩, .verbose v⟩
      rw [looks.verbose]
  | other => exact ⟨s, usage2, v, .of_forall fun _ => rfl, looks, .other v⟩

/-- **Every list of instructions.** -/
theorem commandLoop (looks : LooksLike s v) (instructions : List Instruction)
    (sized : ∀ i ∈ instructions, Sized room i) :
    ∃ (s' : Session) (outs : List Output) (w : View order wide),
      Returns (fun fuel => Bpt.commandLoop order heap room fuel s instructions) (s', outs) ∧
        LooksLike s' w ∧ outs.length = instructions.length ∧ Run Shows v (instructions.zip outs) w := by
  induction instructions generalizing s v with
  | nil => exact ⟨s, [], v, .of_forall fun _ => rfl, looks, rfl, .nil v⟩
  | cons i instructions ih =>
      obtain ⟨s₁, out, v₁, first, looks₁, shows⟩ := looks.execute heap i (sized i List.mem_cons_self)
      obtain ⟨s₂, outs, w, rest, looks₂, length, run⟩ := ih looks₁ fun j later => sized j (List.mem_cons_of_mem i later)
      exact ⟨s₂, out :: outs, w, first.bind (rest.bind (.of_forall fun _ => rfl)), looks₂, congrArg Nat.succ length,
        .cons shows run⟩

/-- The first range too large for the stack ends the loop. -/
theorem commandLoop_overflows (looks : LooksLike s v) {before : List Instruction} (after : List Instruction) {a b : Key}
    (sized : ∀ i ∈ before, Sized room i) (int : (max a b).toInt - (min a b).toInt < 2 ^ 31 - 1)
    (large : room ≤ (max a b).toInt - (min a b).toInt) :
    ∃ enough, ∀ fuel, enough ≤ fuel →
      Bpt.commandLoop order heap room fuel s (before ++ .range a b :: after) = .error .stackOverflow := by
  induction before generalizing s v with
  | nil =>
      refine ⟨0, fun fuel _ => ?_⟩
      rw [List.nil_append, Bpt.commandLoop, execute_overflows order heap int large, Exec.error_bind]
  | cons i before ih =>
      obtain ⟨s₁, out, v₁, ⟨n, first⟩, looks₁, -⟩ := looks.execute heap i (sized i List.mem_cons_self)
      obtain ⟨m, rest⟩ := ih looks₁ fun j later => sized j (List.mem_cons_of_mem i later)
      refine ⟨max n m, fun fuel enough => ?_⟩
      have here := first fuel ((le_max_left n m).trans enough)
      have there := rest fuel ((le_max_right n m).trans enough)
      simp only [List.cons_append, Bpt.commandLoop, here, Exec.ok_bind, there, Exec.error_bind]

/-- The keys of the input file. -/
theorem load (looks : LooksLike s v) (keys : List Key) :
    ∃ (s' : Session) (w : View order wide), Returns (fun fuel => Bpt.load order heap fuel s keys) s' ∧ LooksLike s' w ∧
      w.keys = v.keys ∪ keys.toFinset ∧ w.verbose = v.verbose := by
  induction keys generalizing s v with
  | nil => exact ⟨s, v, .of_forall fun _ => rfl, looks, by simp, rfl⟩
  | cons key keys ih =>
      obtain ⟨root, m, v₁, first, keys₁, verbose₁, looks₁⟩ :=
        looks.call heap (.insert key key) _ (onValues_insert _ key)
      obtain ⟨s₂, w, rest, looks₂, keys₂, verbose₂⟩ := ih looks₁
      refine ⟨s₂, w, first.bind rest, looks₂, ?_, verbose₂.trans verbose₁⟩
      rw [keys₂, keys₁, List.toFinset_cons, Finset.insert_union, Finset.union_insert]

end LooksLike

/-- What a session looks like when it starts. -/
theorem looksLike_start (order : Nat) (wide : 3 ≤ order) :
    LooksLike Session.start (⟨false, ∅, none, by simp, rfl⟩ : View order wide) where
  stored := stored_empty order wide
  verbose := rfl

theorem readFile_returns (order : Nat) (wide : 3 ≤ order) (file : Option (List Key)) :
    ∃ (s : Session) (v : View order wide), Returns (fun fuel => readFile order heap fuel file)
        (s, if file.isSome then v.tree.treeText false else []) ∧
      LooksLike s v ∧ v.keys = (file.getD []).toFinset ∧ v.verbose = false := by
  cases file with
  | none => exact ⟨_, _, .of_forall fun _ => rfl, looksLike_start order wide, rfl, rfl⟩
  | some keys =>
      obtain ⟨s, v, run, looks, same, verbose⟩ := (looksLike_start order wide).load heap keys
      obtain ⟨s', shown, looks'⟩ := looks.showTree
      rw [verbose] at shown
      exact ⟨s', v, run.bind shown, looks', by simpa using same, verbose⟩

theorem argumentOrder_wide {argument : Option Int32} {order : Nat}
    (chosen : argumentOrder argument = .ok order) : 3 ≤ order := by
  cases argument with
  | none =>
      cases chosen
      decide
  | some n =>
      rw [argumentOrder] at chosen
      split at chosen
      · cases chosen
      · next valid =>
          cases chosen
          simp only [not_or, not_lt, minOrder] at valid
          omega

/-- **Every session returns** if the stack has room for the ranges it asks for: it is a run of
`Shows` from the keys of the input file on. -/
theorem main_returns {argument : Option Int32} (chosen : argumentOrder argument = .ok order) (file : Option (List Key))
    {instructions : List Instruction} (sized : ∀ i ∈ instructions, Sized room i) :
    ∃ (wide : 3 ≤ order) (s : Session) (outs : List Output) (v w : View order wide),
      Returns (fun fuel => main heap room argument file instructions fuel)
        (s, (if file.isSome then v.tree.treeText false else []) :: outs) ∧
      v.keys = (file.getD []).toFinset ∧ v.verbose = false ∧ outs.length = instructions.length ∧
      Run Shows v (instructions.zip outs) w ∧ LooksLike s w := by
  have wide := argumentOrder_wide chosen
  obtain ⟨s₁, v, first, looks₁, keys, verbose⟩ := readFile_returns heap order wide file
  obtain ⟨s₂, outs, w, rest, looks₂, length, run⟩ := looks₁.commandLoop heap instructions sized
  refine ⟨wide, s₂, outs, v, w, ?_, keys, verbose, length, run, looks₂⟩
  simp only [main, chosen, Exec.ok_bind]
  exact first.bind (rest.bind (.of_forall fun _ => rfl))

/-- The arrays for the range from 1 to 9 just fit. -/
theorem main_returns_sample :
    ∃ (wide : 3 ≤ 4) (s : Session) (outs : List Output) (v w : View 4 wide),
      Returns (fun fuel => main Malloc.bump 9 none (some [3, 1, 2])
        [.insert 4, .verbose, .range 9 1, .path 4, .destroy] fuel) (s, v.tree.treeText false :: outs) ∧
      v.keys = [3, 1, 2].toFinset ∧ v.verbose = false ∧ outs.length = 5 ∧
      Run Shows v ([Instruction.insert 4, .verbose, .range 9 1, .path 4, .destroy].zip outs) w ∧
      LooksLike s w :=
  main_returns .bump (rfl : argumentOrder none = .ok 4) (some [3, 1, 2]) (by decide)

/-- **And where the stack has no room for a range it faults**, whatever comes after. -/
theorem main_overflows {argument : Option Int32} (chosen : argumentOrder argument = .ok order)
    (file : Option (List Key)) {before : List Instruction} (after : List Instruction) {a b : Key}
    (sized : ∀ i ∈ before, Sized room i)
    (int : (max a b).toInt - (min a b).toInt < 2 ^ 31 - 1) (large : room ≤ (max a b).toInt - (min a b).toInt) :
    ∃ enough, ∀ fuel, enough ≤ fuel →
      main heap room argument file (before ++ .range a b :: after) fuel = .error .stackOverflow := by
  obtain ⟨s, v, ⟨n, first⟩, looks, -⟩ := readFile_returns heap order (argumentOrder_wide chosen) file
  obtain ⟨m, rest⟩ := looks.commandLoop_overflows heap after sized int large
  refine ⟨max n m, fun fuel enough => ?_⟩
  have here := first fuel ((le_max_left n m).trans enough)
  have there := rest fuel ((le_max_right n m).trans enough)
  simp only [main, chosen, Exec.ok_bind, here, there, Exec.error_bind]

end SimpleDatabase.InMemory
