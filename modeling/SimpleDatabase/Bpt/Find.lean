/- Bpt.Find -- `find_leaf`, `find`, `find_range` and `cut` of `bpt/src/bpt.c`

What `find_leaf` prints under `verbose` changes nothing that is returned or stored; it is
`findLeafTrace` in `Bpt.Print`.
-/
import SimpleDatabase.Bpt.Type

namespace SimpleDatabase.Bpt

open SimpleDatabase.Theory

set_option autoImplicit false

def cut (length : Nat) : Nat := if length % 2 = 0 then length / 2 else length / 2 + 1

section Find

variable (order : Nat) (m : Memory)

/-- The pointer `find_leaf` follows out of an inner node: the one at the first key that
is greater. -/
def childFor (c : Node) (key : Key) : Exec Ptr := do
  let i ← (keyArray order).find c.keys (fun k => ¬ k ≤ key) 0 c.numKeys
  (pointerArray order).read c.pointers i

/-- The `while (!c->is_leaf)` loop. -/
def findLeafLoop (key : Key) : Nat → Ptr → Exec Ptr
  | 0, _ => .error .outOfFuel
  | fuel + 1, p => do
      let c ← m.node p
      if c.isLeaf then
        return p
      else
        let child ← childFor order c key
        findLeafLoop key fuel child

def findLeaf (fuel : Nat) (root : Ptr) (key : Key) : Exec Ptr :=
  if root = null then .ok root else findLeafLoop order m key fuel root

/-- The pointer at the first entry of the node with the key, `NULL` if there is none. -/
def entryFor (c : Node) (key : Key) : Exec Ptr := do
  let i ← (keyArray order).find c.keys (fun k => k = key) 0 c.numKeys
  if i = c.numKeys then
    return null
  else
    (pointerArray order).read c.pointers i

def find (fuel : Nat) (root : Ptr) (key : Key) : Exec Ptr := do
  let p ← findLeaf order m fuel root key
  if p = null then
    return null
  else
    let c ← m.node p
    entryFor order c key

/-! ## Ranges -/

/-- The next element of `returned_keys` and `returned_pointers`, arrays of the caller of
`size` elements each. -/
def returnEntry (size : Nat) (found : List (Key × Ptr)) (entry : Key × Ptr) :
    Exec (List (Key × Ptr)) :=
  if found.length < size then .ok (found ++ [entry]) else .error .outOfBounds

/-- `for ( ; i < n->num_keys && n->keys[i] <= key_end; i++)`, with `rounds` keys left. -/
def rangeLoop (size : Nat) (n : Node) (keyEnd : Key) :
    Nat → Nat → List (Key × Ptr) → Exec (List (Key × Ptr))
  | _, 0, found => .ok found
  | i, rounds + 1, found => do
      let k ← (keyArray order).read n.keys i
      if k ≤ keyEnd then
        let p ← (pointerArray order).read n.pointers i
        let found ← returnEntry size found (k, p)
        rangeLoop size n keyEnd (i + 1) rounds found
      else
        return found

/-- The `while (n != NULL)` loop. -/
def rangeLeaves (size : Nat) (keyEnd : Key) :
    Nat → Ptr → Nat → List (Key × Ptr) → Exec (List (Key × Ptr))
  | 0, _, _, _ => .error .outOfFuel
  | fuel + 1, p, i, found =>
      if p = null then
        .ok found
      else do
        let n ← m.node p
        let found ← rangeLoop order size n keyEnd i (n.numKeys - i) found
        let next ← (pointerArray order).read n.pointers (order - 1)
        rangeLeaves size keyEnd fuel next 0 found

/-- What `find_range` returns and leaves in the arrays. -/
def findRange (fuel : Nat) (root : Ptr) (keyStart keyEnd : Key) (size : Nat) :
    Exec (List (Key × Ptr)) := do
  let p ← findLeaf order m fuel root keyStart
  if p = null then
    return []
  else
    let n ← m.node p
    let i ← (keyArray order).find n.keys (fun k => ¬ k < keyStart) 0 n.numKeys
    if i = n.numKeys then
      return []
    else
      rangeLeaves order m size keyEnd fuel p i []

end Find

end SimpleDatabase.Bpt
