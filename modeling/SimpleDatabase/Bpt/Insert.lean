/- Bpt.Insert -- the insertion functions of `bpt/src/bpt.c`

What a function does to the arrays of one node, or of a node and the new one beside it,
is a function of its own (`leafWith`, `leafHalves`, `nodeWith`, `nodeHalves`).  The
temporary arrays start with whatever `malloc` returns.  Each round of the cascade that
goes up the tree takes one unit of fuel.
-/
import SimpleDatabase.Bpt.Find

namespace SimpleDatabase.Bpt

open SimpleDatabase.Theory

set_option autoImplicit false

section Insert

variable (order : Nat)

/-! ## Leaves -/

/-- `insert_into_leaf`, on the leaf's arrays. -/
def leafWith (n : Node) (key : Key) (pointer : Ptr) : Exec Node := do
  let insertionPoint ← (keyArray order).find n.keys (fun k => ¬ k < key) 0 n.numKeys
  let keys ← (keyArray order).moveUp insertionPoint 1 (n.numKeys - insertionPoint) n.keys
  let pointers ← (pointerArray order).moveUp insertionPoint 1 (n.numKeys - insertionPoint) n.pointers
  let keys ← (keyArray order).write keys insertionPoint key
  let pointers ← (pointerArray order).write pointers insertionPoint pointer
  return { n with keys, pointers, numKeys := n.numKeys + 1 }

def insertIntoLeaf (m : Memory) (leaf : Ptr) (key : Key) (pointer : Ptr) : Exec Memory := do
  let n ← m.node leaf
  let n ← leafWith order n key pointer
  m.setNode leaf n

/-- The two nodes a node is split into, and the key that goes up. -/
structure Halves where
  old : Node
  new : Node
  key : Key

/-- `insert_into_leaf_after_splitting`, on the arrays of the leaf and of the new leaf, which is
at `newLeaf`. -/
def leafHalves (tempKeys : Nat → Key) (tempPointers : Nat → Ptr) (n new : Node) (newLeaf : Ptr)
    (key : Key) (pointer : Ptr) : Exec Halves := do
  let insertionIndex ← (keyArray order).find n.keys (fun k => ¬ k < key) 0 (order - 1)
  let tempKeys ← (array Key order).copyAround (keyArray order) n.keys insertionIndex 0 0 n.numKeys tempKeys
  let tempPointers ←
    (array Ptr order).copyAround (pointerArray order) n.pointers insertionIndex 0 0 n.numKeys tempPointers
  let tempKeys ← (array Key order).write tempKeys insertionIndex key
  let tempPointers ← (array Ptr order).write tempPointers insertionIndex pointer
  let split := cut (order - 1)
  let pointers ← (pointerArray order).copyUp (array Ptr order) tempPointers 0 0 split n.pointers
  let keys ← (keyArray order).copyUp (array Key order) tempKeys 0 0 split n.keys
  let newPointers ←
    (pointerArray order).copyUp (array Ptr order) tempPointers split 0 (order - split) new.pointers
  let newKeys ← (keyArray order).copyUp (array Key order) tempKeys split 0 (order - split) new.keys
  let next ← (pointerArray order).read pointers (order - 1)
  let newPointers ← (pointerArray order).write newPointers (order - 1) next
  let pointers ← (pointerArray order).write pointers (order - 1) newLeaf
  let pointers ← fill (pointerArray order) null split (order - 1 - split) pointers
  let newPointers ←
    fill (pointerArray order) null (order - split) (order - 1 - (order - split)) newPointers
  let first ← (keyArray order).read newKeys 0
  return {
    old := { n with keys, pointers, numKeys := split }
    new := { new with
      keys := newKeys, pointers := newPointers, numKeys := new.numKeys + (order - split)
      parent := n.parent }
    key := first }

/-! ## Inner nodes -/

/-- The index of the parent's pointer to `left`. -/
def getLeftIndex (parent : Node) (left : Ptr) : Exec Nat :=
  (pointerArray order).find parent.pointers (fun p => p = left) 0 (parent.numKeys + 1)

/-- `insert_into_node`, on the node's arrays. -/
def nodeWith (n : Node) (leftIndex : Nat) (key : Key) (right : Ptr) : Exec Node := do
  let pointers ← (pointerArray order).moveUp (leftIndex + 1) 1 (n.numKeys - leftIndex) n.pointers
  let keys ← (keyArray order).moveUp leftIndex 1 (n.numKeys - leftIndex) n.keys
  let pointers ← (pointerArray order).write pointers (leftIndex + 1) right
  let keys ← (keyArray order).write keys leftIndex key
  return { n with keys, pointers, numKeys := n.numKeys + 1 }

def insertIntoNode (m : Memory) (n : Ptr) (leftIndex : Nat) (key : Key) (right : Ptr) :
    Exec Memory := do
  let node ← m.node n
  let node ← nodeWith order node leftIndex key right
  m.setNode n node

/-- `insert_into_node_after_splitting`, on the arrays of the node and of the new node. -/
def nodeHalves (tempKeys : Nat → Key) (tempPointers : Nat → Ptr) (n new : Node) (leftIndex : Nat)
    (key : Key) (right : Ptr) : Exec Halves := do
  let tempPointers ← (array Ptr (order + 1)).copyAround (pointerArray order) n.pointers (leftIndex + 1)
    0 0 (n.numKeys + 1) tempPointers
  let tempKeys ← (array Key order).copyAround (keyArray order) n.keys leftIndex 0 0 n.numKeys tempKeys
  let tempPointers ← (array Ptr (order + 1)).write tempPointers (leftIndex + 1) right
  let tempKeys ← (array Key order).write tempKeys leftIndex key
  let split := cut order
  let pointers ← (pointerArray order).copyUp (array Ptr (order + 1)) tempPointers 0 0 (split - 1) n.pointers
  let keys ← (keyArray order).copyUp (array Key order) tempKeys 0 0 (split - 1) n.keys
  let last ← (array Ptr (order + 1)).read tempPointers (split - 1)
  let pointers ← (pointerArray order).write pointers (split - 1) last
  let kPrime ← (array Key order).read tempKeys (split - 1)
  let newPointers ←
    (pointerArray order).copyUp (array Ptr (order + 1)) tempPointers split 0 (order - split) new.pointers
  let newKeys ← (keyArray order).copyUp (array Key order) tempKeys split 0 (order - split) new.keys
  let newLast ← (array Ptr (order + 1)).read tempPointers order
  let newPointers ← (pointerArray order).write newPointers (order - split) newLast
  return {
    old := { n with keys, pointers, numKeys := split - 1 }
    new := { new with
      keys := newKeys, pointers := newPointers, numKeys := new.numKeys + (order - split)
      parent := n.parent }
    key := kPrime }

/-- `child->parent = p`. -/
def setParent (m : Memory) (child p : Ptr) : Exec Memory := do
  let c ← m.node child
  m.setNode child { c with parent := p }

/-- `for ( ; rounds times; i++) n->pointers[i]->parent = p`, with `n` at `p`. -/
def adoptChildren (p : Ptr) (n : Node) : Nat → Nat → Memory → Exec Memory
  | _, 0, m => .ok m
  | i, rounds + 1, m => do
      let child ← (pointerArray order).read n.pointers i
      let m ← setParent m child p
      adoptChildren p n (i + 1) rounds m

variable (heap : Malloc)

def insertIntoNewRoot (m : Memory) (left : Ptr) (key : Key) (right : Ptr) : Exec (Ptr × Memory) := do
  let (root, m) := makeNode heap m
  let n ← m.node root
  let keys ← (keyArray order).write n.keys 0 key
  let pointers ← (pointerArray order).write n.pointers 0 left
  let pointers ← (pointerArray order).write pointers 1 right
  let m ← m.setNode root { n with keys, pointers, numKeys := n.numKeys + 1, parent := null }
  let m ← setParent m left root
  let m ← setParent m right root
  return (root, m)

mutual

def insertIntoParent : Nat → Memory → Ptr → Ptr → Key → Ptr → Exec (Ptr × Memory)
  | 0, _, _, _, _, _ => .error .outOfFuel
  | fuel + 1, m, root, left, key, right => do
      let l ← m.node left
      if l.parent = null then
        insertIntoNewRoot order heap m left key right
      else
        let parent ← m.node l.parent
        let leftIndex ← getLeftIndex order parent left
        if parent.numKeys < order - 1 then
          let m ← insertIntoNode order m l.parent leftIndex key right
          return (root, m)
        else
          insertIntoNodeAfterSplitting fuel m root l.parent leftIndex key right

def insertIntoNodeAfterSplitting : Nat → Memory → Ptr → Ptr → Nat → Key → Ptr → Exec (Ptr × Memory)
  | 0, _, _, _, _, _, _ => .error .outOfFuel
  | fuel + 1, m, root, oldNode, leftIndex, key, right => do
      let n ← m.node oldNode
      let (newNode, m') := makeNode heap m
      let new ← m'.node newNode
      let halves ← nodeHalves order (heap.keys m) (heap.pointers m) n new leftIndex key right
      let m ← m'.setNode oldNode halves.old
      let m ← m.setNode newNode halves.new
      let m ← adoptChildren order newNode halves.new 0 (halves.new.numKeys + 1) m
      insertIntoParent fuel m root oldNode halves.key newNode

end

def insertIntoLeafAfterSplitting (fuel : Nat) (m : Memory) (root leaf : Ptr) (key : Key) (pointer : Ptr) :
    Exec (Ptr × Memory) := do
  let (newLeaf, m') := makeLeaf heap m
  let n ← m'.node leaf
  let new ← m'.node newLeaf
  let halves ← leafHalves order (heap.keys m') (heap.pointers m') n new newLeaf key pointer
  let m ← m'.setNode leaf halves.old
  let m ← m.setNode newLeaf halves.new
  insertIntoParent order heap fuel m root leaf halves.key newLeaf

/-! ## The whole insertion -/

def startNewTree (m : Memory) (key : Key) (pointer : Ptr) : Exec (Ptr × Memory) := do
  let (root, m) := makeLeaf heap m
  let n ← m.node root
  let keys ← (keyArray order).write n.keys 0 key
  let pointers ← (pointerArray order).write n.pointers 0 pointer
  let pointers ← (pointerArray order).write pointers (order - 1) null
  let m ← m.setNode root { n with keys, pointers, parent := null, numKeys := n.numKeys + 1 }
  return (root, m)

/-- The root after the insertion. -/
def insert (fuel : Nat) (m : Memory) (root : Ptr) (key : Key) (value : Int32) :
    Exec (Ptr × Memory) := do
  let held ← find order m fuel root key
  if held ≠ null then
    return (root, m)
  else
    let (pointer, m) := makeRecord heap m value
    if root = null then
      startNewTree order heap m key pointer
    else
      let leaf ← findLeaf order m fuel root key
      let n ← m.node leaf
      if n.numKeys < order - 1 then
        let m ← insertIntoLeaf order m leaf key pointer
        return (root, m)
      else
        insertIntoLeafAfterSplitting order heap fuel m root leaf key pointer

end Insert

end SimpleDatabase.Bpt
