/- Bpt.Type -- nodes, records and the memory they are in, as `bpt/include/bpt.h` has them

`order` is a global variable of the source that is set once, before the first node is
made; here it is a parameter.  A node and its two arrays are three blocks that are
always allocated and freed together, so they are one block of `Memory`: `keys` has
`order - 1` elements, `pointers` has `order`, and every access checks its index.  A loop
of the source that moves keys and pointers side by side is one loop over each array, as
the arrays do not overlap.

An address is a number, 0 is `NULL`.  Following a pointer to anything but a live block of
the right kind is a fault, and so is freeing what is not allocated.  `malloc` may return
any address that is not in use, one that has been freed for instance, and what it
returns holds anything; it does not fail.
-/
import SimpleDatabase.Theory.Arrays
import Mathlib.Data.Int.Order.Basic

namespace SimpleDatabase.Bpt

open SimpleDatabase.Theory

set_option autoImplicit false

/-- `void *`, `node *` and `record *`. -/
abbrev Ptr := Nat

abbrev null : Ptr := 0

/-- `int key`. -/
abbrev Key := Int32

/-- The order on keys is the machine's. -/
instance keyOrder : LinearOrder Int32 where
  le_refl := Int32.le_refl
  le_trans _ _ _ := Int32.le_trans
  le_antisymm _ _ := Int32.le_antisymm
  le_total := Int32.le_total
  lt_iff_le_not_ge a b := by
    rw [Int32.lt_iff_toInt_lt, Int32.le_iff_toInt_le, Int32.le_iff_toInt_le]
    omega
  toDecidableLE := inferInstance
  toDecidableEq := inferInstance
  toDecidableLT := inferInstance

abbrev defaultOrder : Nat := 4
abbrev minOrder : Nat := 3
abbrev maxOrder : Nat := 20

/-- `record`. -/
structure Record where
  value : Int32
  deriving DecidableEq

/-- `node`. -/
structure Node where
  pointers : Nat → Ptr
  keys : Nat → Key
  parent : Ptr
  isLeaf : Bool
  numKeys : Nat
  next : Ptr

/-- `n->keys`. -/
abbrev keyArray (order : Nat) : Slots (Nat → Key) Key Unit := array Key (order - 1)

/-- `n->pointers`. -/
abbrev pointerArray (order : Nat) : Slots (Nat → Ptr) Ptr Unit := array Ptr order

/-! ## Memory -/

inductive Block where
  | record (r : Record)
  | node (n : Node)

/-- The allocated blocks, with their addresses; the first one counts. -/
structure Memory where
  blocks : List (Ptr × Block)

namespace Memory

/-- Nothing is allocated. -/
def empty : Memory := ⟨[]⟩

/-- The block at an address; none at `NULL`. -/
def block (m : Memory) (p : Ptr) : Option Block :=
  if p = null then none else (m.blocks.find? fun e => e.1 = p).map Prod.snd

/-- The node a pointer leads to. -/
def node (m : Memory) (p : Ptr) : Exec Node :=
  match m.block p with
  | some (.node n) => .ok n
  | _ => .error .nullPointer

/-- The record a pointer leads to. -/
def record (m : Memory) (p : Ptr) : Exec Record :=
  match m.block p with
  | some (.record r) => .ok r
  | _ => .error .nullPointer

def put (m : Memory) (p : Ptr) (b : Block) : Memory := ⟨(p, b) :: m.blocks.filter fun e => e.1 ≠ p⟩

/-- Assigning to fields and array elements of a node. -/
def setNode (m : Memory) (p : Ptr) (n : Node) : Exec Memory := do
  let _ ← m.node p
  return m.put p (.node n)

/-- `free`, which ignores `NULL`. -/
def free (m : Memory) (p : Ptr) : Exec Memory :=
  if p = null then .ok m
  else if (m.block p).isSome then .ok ⟨m.blocks.filter fun e => e.1 ≠ p⟩
  else .error .nullPointer

theorem find?_filter_ne (l : List (Ptr × Block)) {p q : Ptr} (other : q ≠ p) :
    ((l.filter fun e => e.1 ≠ p).find? fun e => e.1 = q) = l.find? fun e => e.1 = q := by
  rw [List.find?_filter]
  congr 1
  funext e
  by_cases here : e.1 = q
  · simp [here, other]
  · simp [here]

theorem block_put (m : Memory) {p : Ptr} (nonNull : p ≠ null) (b : Block) :
    (m.put p b).block = Function.update m.block p (some b) := by
  funext q
  by_cases here : q = p
  · subst here
    simp [block, put, nonNull]
  · rw [Function.update_of_ne here, block, block, put, List.find?_cons_of_neg (by simpa using Ne.symm here),
      find?_filter_ne m.blocks here]

theorem block_free (m : Memory) (p : Ptr) :
    block ⟨m.blocks.filter fun e => e.1 ≠ p⟩ = Function.update m.block p none := by
  funext q
  by_cases here : q = p
  · subst here
    simp [block]
  · rw [Function.update_of_ne here, block, block, find?_filter_ne m.blocks here]

@[simp] theorem block_null (m : Memory) : m.block null = none := by simp [block]

end Memory

/-- `malloc`: where the next block goes, and what its arrays hold before they are written. -/
structure Malloc where
  place : Memory → Ptr
  keys : Memory → Nat → Key
  pointers : Memory → Nat → Ptr
  nonNull : ∀ m : Memory, place m ≠ null
  fresh : ∀ m : Memory, m.block (place m) = none

/-- Each block goes behind all others. -/
def Malloc.bump : Malloc where
  place m := (m.blocks.map Prod.fst).foldr max 0 + 1
  keys _ _ := 0
  pointers _ _ := null
  nonNull _ := Nat.succ_ne_zero _
  fresh m := by
    have below : ∀ l : List (Ptr × Block), ∀ e ∈ l, e.1 ≤ (l.map Prod.fst).foldr max 0 := by
      intro l
      induction l with
      | nil => simp
      | cons x l ih =>
          intro e member
          rw [List.map_cons, List.foldr_cons]
          rcases List.mem_cons.mp member with rfl | later
          · exact le_max_left _ _
          · exact (ih e later).trans (le_max_right _ _)
    have absent : (m.blocks.find? fun e => e.1 = (m.blocks.map Prod.fst).foldr max 0 + 1) = none := by
      rw [List.find?_eq_none]
      intro e member
      simpa using (Nat.lt_succ_of_le (below m.blocks e member)).ne
    simp [Memory.block, absent]

section Make

variable (heap : Malloc)

def makeRecord (m : Memory) (value : Int32) : Ptr × Memory :=
  (heap.place m, m.put (heap.place m) (.record ⟨value⟩))

/-- What `make_node` makes of the memory it gets. -/
def newNode (m : Memory) : Node where
  pointers := heap.pointers m
  keys := heap.keys m
  parent := null
  isLeaf := false
  numKeys := 0
  next := null

def makeNode (m : Memory) : Ptr × Memory :=
  (heap.place m, m.put (heap.place m) (.node (newNode heap m)))

/-- `make_node`, and `is_leaf` set. -/
def makeLeaf (m : Memory) : Ptr × Memory :=
  (heap.place m, m.put (heap.place m) (.node { newNode heap m with isLeaf := true }))

end Make

end SimpleDatabase.Bpt
