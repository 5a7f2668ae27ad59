/- Bpt.Delete -- the deletion functions of `bpt/src/bpt.c`, and `destroy_tree`

What happens to the arrays of a node, or of two neighbours and their parent, is a
function of its own (`removeEntry`, `mergeNodes`, `mergeLeaves`, `rotate...`).  The
cascade of `delete_entry` and `coalesce_nodes` takes a unit of fuel a call; a coalesced
node is freed when the call for its parent has returned.
-/
import SimpleDatabase.Bpt.Insert

namespace SimpleDatabase.Bpt

open SimpleDatabase.Theory

set_option autoImplicit false

section Delete

variable (order : Nat)

/-! ## Taking an entry out of a node -/

/-- `remove_entry_from_node`, on the node's arrays. -/
def removeEntry (n : Node) (key : Key) (pointer : Ptr) : Exec Node := do
  let i ← (keyArray order).seek n.keys (fun k => k = key)
  let keys ← (keyArray order).moveDown 1 i (n.numKeys - (i + 1)) n.keys
  let numPointers := if n.isLeaf then n.numKeys else n.numKeys + 1
  let j ← (pointerArray order).seek n.pointers (fun p => p = pointer)
  let pointers ← (pointerArray order).moveDown 1 j (numPointers - (j + 1)) n.pointers
  let numKeys := n.numKeys - 1
  let pointers ←
    if n.isLeaf then fill (pointerArray order) null numKeys (order - 1 - numKeys) pointers
    else fill (pointerArray order) null (numKeys + 1) (order - (numKeys + 1)) pointers
  return { n with keys, pointers, numKeys }

def removeEntryFromNode (m : Memory) (n : Ptr) (key : Key) (pointer : Ptr) : Exec Memory := do
  let node ← m.node n
  let node ← removeEntry order node key pointer
  m.setNode n node

/-- The root after an entry has been taken out of it. -/
def adjustRoot (m : Memory) (root : Ptr) : Exec (Ptr × Memory) := do
  let r ← m.node root
  if r.numKeys > 0 then
    return (root, m)
  else if r.isLeaf then
    let m ← m.free root
    return (null, m)
  else
    let newRoot ← (pointerArray order).read r.pointers 0
    let m ← setParent m newRoot null
    let m ← m.free root
    return (newRoot, m)

/-! ## Coalescing -/

/-- The index before that of the pointer to `n` in its parent; `none` is -1. -/
def getNeighborIndex (m : Memory) (n : Ptr) : Exec (Option Nat) := do
  let node ← m.node n
  let parent ← m.node node.parent
  let i ← (pointerArray order).find parent.pointers (fun p => p = n) 0 (parent.numKeys + 1)
  if i = parent.numKeys + 1 then
    .error .exitFailure
  else
    match i with
    | 0 => return none
    | i + 1 => return some i

/-- The entries of an inner node behind those of its neighbour, `kPrime` between them: the
neighbour, and what `num_keys` of the node has come to. -/
def mergeNodes (neighbor n : Node) (kPrime : Key) : Exec (Node × Node) := do
  let start := neighbor.numKeys
  let keys ← (keyArray order).write neighbor.keys start kPrime
  let nEnd := n.numKeys
  let keys ← (keyArray order).copyUp (keyArray order) n.keys 0 (start + 1) nEnd keys
  let pointers ← (pointerArray order).copyUp (pointerArray order) n.pointers 0 (start + 1) nEnd neighbor.pointers
  let last ← (pointerArray order).read n.pointers nEnd
  let pointers ← (pointerArray order).write pointers (start + 1 + nEnd) last
  return ({ neighbor with keys, pointers, numKeys := start + 1 + nEnd }, { n with numKeys := n.numKeys - nEnd })

/-- The entries of a leaf behind those of its neighbour. -/
def mergeLeaves (neighbor n : Node) : Exec Node := do
  let start := neighbor.numKeys
  let keys ← (keyArray order).copyUp (keyArray order) n.keys 0 start n.numKeys neighbor.keys
  let pointers ← (pointerArray order).copyUp (pointerArray order) n.pointers 0 start n.numKeys neighbor.pointers
  let next ← (pointerArray order).read n.pointers (order - 1)
  let pointers ← (pointerArray order).write pointers (order - 1) next
  return { neighbor with keys, pointers, numKeys := start + n.numKeys }

/-- `coalesce_nodes` up to its call of `delete_entry`: `n` goes into its left neighbour. -/
def coalesceInto (m : Memory) (neighbor n : Ptr) (kPrime : Key) : Exec Memory := do
  let node ← m.node n
  let nb ← m.node neighbor
  if node.isLeaf then
    let nb ← mergeLeaves order nb node
    m.setNode neighbor nb
  else
    let (nb, node) ← mergeNodes order nb node kPrime
    let m ← m.setNode neighbor nb
    let m ← m.setNode n node
    adoptChildren order neighbor nb 0 (nb.numKeys + 1) m

/-! ## Redistributing -/

/-- The last entry of the left neighbour goes to the front of a leaf: the leaf, the neighbour
and the new key between them. -/
def rotateLeafRight (n neighbor : Node) : Exec (Node × Node × Key) := do
  let keys ← (keyArray order).moveUp 0 1 n.numKeys n.keys
  let pointers ← (pointerArray order).moveUp 0 1 n.numKeys n.pointers
  let moved ← (pointerArray order).read neighbor.pointers (neighbor.numKeys - 1)
  let pointers ← (pointerArray order).write pointers 0 moved
  let left ← (pointerArray order).write neighbor.pointers (neighbor.numKeys - 1) null
  let key ← (keyArray order).read neighbor.keys (neighbor.numKeys - 1)
  let keys ← (keyArray order).write keys 0 key
  return ({ n with keys, pointers, numKeys := n.numKeys + 1 },
    { neighbor with pointers := left, numKeys := neighbor.numKeys - 1 }, key)

/-- The last child of the left neighbour goes to the front of an inner node, the key between
them with it. -/
def rotateNodeRight (n neighbor : Node) (kPrime : Key) : Exec (Node × Node × Key) := do
  let last ← (pointerArray order).read n.pointers n.numKeys
  let pointers ← (pointerArray order).write n.pointers (n.numKeys + 1) last
  let keys ← (keyArray order).moveUp 0 1 n.numKeys n.keys
  let pointers ← (pointerArray order).moveUp 0 1 n.numKeys pointers
  let moved ← (pointerArray order).read neighbor.pointers neighbor.numKeys
  let pointers ← (pointerArray order).write pointers 0 moved
  let left ← (pointerArray order).write neighbor.pointers neighbor.numKeys null
  let keys ← (keyArray order).write keys 0 kPrime
  let key ← (keyArray order).read neighbor.keys (neighbor.numKeys - 1)
  return ({ n with keys, pointers, numKeys := n.numKeys + 1 },
    { neighbor with pointers := left, numKeys := neighbor.numKeys - 1 }, key)

/-- The first entry of the right neighbour goes to the end of a leaf. -/
def rotateLeafLeft (n neighbor : Node) : Exec (Node × Node × Key) := do
  let first ← (keyArray order).read neighbor.keys 0
  let keys ← (keyArray order).write n.keys n.numKeys first
  let moved ← (pointerArray order).read neighbor.pointers 0
  let pointers ← (pointerArray order).write n.pointers n.numKeys moved
  let key ← (keyArray order).read neighbor.keys 1
  let rightKeys ← (keyArray order).moveDown 1 0 (neighbor.numKeys - 1) neighbor.keys
  let rightPointers ← (pointerArray order).moveDown 1 0 (neighbor.numKeys - 1) neighbor.pointers
  return ({ n with keys, pointers, numKeys := n.numKeys + 1 },
    { neighbor with keys := rightKeys, pointers := rightPointers, numKeys := neighbor.numKeys - 1 }, key)

/-- The first child of the right neighbour goes to the end of an inner node, the key between
them before it. -/
def rotateNodeLeft (n neighbor : Node) (kPrime : Key) : Exec (Node × Node × Key) := do
  let keys ← (keyArray order).write n.keys n.numKeys kPrime
  let moved ← (pointerArray order).read neighbor.pointers 0
  let pointers ← (pointerArray order).write n.pointers (n.numKeys + 1) moved
  let key ← (keyArray order).read neighbor.keys 0
  let rightKeys ← (keyArray order).moveDown 1 0 (neighbor.numKeys - 1) neighbor.keys
  let rightPointers ← (pointerArray order).moveDown 1 0 neighbor.numKeys neighbor.pointers
  return ({ n with keys, pointers, numKeys := n.numKeys + 1 },
    { neighbor with keys := rightKeys, pointers := rightPointers, numKeys := neighbor.numKeys - 1 }, key)

/-- `n->parent->keys[k_prime_index] = key`. -/
def setParentKey (m : Memory) (n : Ptr) (kPrimeIndex : Nat) (key : Key) : Exec Memory := do
  let node ← m.node n
  let parent ← m.node node.parent
  let keys ← (keyArray order).write parent.keys kPrimeIndex key
  m.setNode node.parent { parent with keys }

/-- `redistribute_nodes`; the neighbour is on the left unless `neighborIndex` is -1. -/
def redistributeNodes (m : Memory) (n neighbor : Ptr) (neighborIndex : Option Nat) (kPrimeIndex : Nat)
    (kPrime : Key) : Exec Memory := do
  let node ← m.node n
  let nb ← m.node neighbor
  match neighborIndex with
  | some _ =>
      if node.isLeaf then
        let (node, nb, key) ← rotateLeafRight order node nb
        let m ← m.setNode n node
        let m ← m.setNode neighbor nb
        setParentKey order m n kPrimeIndex key
      else
        let (node, nb, key) ← rotateNodeRight order node nb kPrime
        let m ← m.setNode n node
        let m ← m.setNode neighbor nb
        let child ← (pointerArray order).read node.pointers 0
        let m ← setParent m child n
        setParentKey order m n kPrimeIndex key
  | none =>
      if node.isLeaf then
        let (node, nb, key) ← rotateLeafLeft order node nb
        let m ← m.setNode n node
        let m ← m.setNode neighbor nb
        setParentKey order m n kPrimeIndex key
      else
        let (node, nb, key) ← rotateNodeLeft order node nb kPrime
        let m ← m.setNode n node
        let m ← m.setNode neighbor nb
        let child ← (pointerArray order).read node.pointers node.numKeys
        let m ← setParent m child n
        setParentKey order m n kPrimeIndex key

/-! ## The cascade -/

/-- The index of the key between a node and its neighbour. -/
def kPrimeIndexOf : Option Nat → Nat
  | none => 0
  | some i => i

/-- The index of the pointer to the neighbour. -/
def neighborSlot : Option Nat → Nat
  | none => 1
  | some i => i

mutual

def deleteEntry : Nat → Memory → Ptr → Ptr → Key → Ptr → Exec (Ptr × Memory)
  | 0, _, _, _, _, _ => .error .outOfFuel
  | fuel + 1, m, root, n, key, pointer => do
      let m ← removeEntryFromNode order m n key pointer
      if n = root then
        adjustRoot order m root
      else
        let node ← m.node n
        let minKeys := if node.isLeaf then cut (order - 1) else cut order - 1
        if node.numKeys ≥ minKeys then
          return (root, m)
        else
          let neighborIndex ← getNeighborIndex order m n
          let kPrimeIndex := kPrimeIndexOf neighborIndex
          let parent ← m.node node.parent
          let kPrime ← (keyArray order).read parent.keys kPrimeIndex
          let neighbor ← (pointerArray order).read parent.pointers (neighborSlot neighborIndex)
          let nb ← m.node neighbor
          let capacity := if node.isLeaf then order else order - 1
          if nb.numKeys + node.numKeys < capacity then
            coalesceNodes fuel m root n neighbor neighborIndex kPrime
          else
            let m ← redistributeNodes order m n neighbor neighborIndex kPrimeIndex kPrime
            return (root, m)

/-- A node without left neighbour changes places with its right one. -/
def coalesceNodes : Nat → Memory → Ptr → Ptr → Ptr → Option Nat → Key → Exec (Ptr × Memory)
  | 0, _, _, _, _, _, _ => .error .outOfFuel
  | fuel + 1, m, root, n, neighbor, neighborIndex, kPrime => do
      let (n, neighbor) := if neighborIndex = none then (neighbor, n) else (n, neighbor)
      let m ← coalesceInto order m neighbor n kPrime
      let node ← m.node n
      let (root, m) ← deleteEntry fuel m root node.parent kPrime n
      let m ← m.free n
      return (root, m)

end

/-- The root after the deletion. -/
def delete (fuel : Nat) (m : Memory) (root : Ptr) (key : Key) : Exec (Ptr × Memory) := do
  let keyRecord ← find order m fuel root key
  let keyLeaf ← findLeaf order m fuel root key
  if keyRecord ≠ null ∧ keyLeaf ≠ null then
    let (root, m) ← deleteEntry order fuel m root keyLeaf key keyRecord
    let m ← m.free keyRecord
    return (root, m)
  else
    return (root, m)

/-! ## Destroying a tree -/

/-- `for ( ; rounds times; i++) f(root->pointers[i])`. -/
def forPointers (f : Ptr → Memory → Exec Memory) (n : Node) : Nat → Nat → Memory → Exec Memory
  | _, 0, m => .ok m
  | i, rounds + 1, m => do
      let p ← (pointerArray order).read n.pointers i
      let m ← f p m
      forPointers f n (i + 1) rounds m

def destroyTreeNodes : Nat → Ptr → Memory → Exec Memory
  | 0, _, _ => .error .outOfFuel
  | fuel + 1, root, m => do
      let n ← m.node root
      let m ←
        if n.isLeaf then forPointers order (fun p m => m.free p) n 0 n.numKeys m
        else forPointers order (destroyTreeNodes fuel) n 0 (n.numKeys + 1) m
      m.free root

def destroyTree (fuel : Nat) (m : Memory) (root : Ptr) : Exec (Ptr × Memory) := do
  let m ← destroyTreeNodes order fuel root m
  return (null, m)

end Delete

end SimpleDatabase.Bpt
