/- Bpt.Print -- what `bpt/src/bpt.c` prints of a tree

An `Output` lists the texts of the `printf` calls in order.  `print_tree` goes through the
tree with a queue that is linked through the nodes' own `next` fields, so it writes to
memory; the other functions do not.  What `find_leaf` prints under `verbose` is a function of
its own, `findLeafTrace`, beside the one that says what it returns.

The rounds of an outer loop and those of the loops in it take fuel of their own.
-/
import SimpleDatabase.Bpt.Find

namespace SimpleDatabase.Bpt

open SimpleDatabase.Theory

set_option autoImplicit false

abbrev Output := List String

/-- `%d`. -/
def decimal (k : Int32) : String := toString k.toInt

/-- `%lx`. -/
def hexadecimal (p : Ptr) : String := String.ofList (Nat.toDigits 16 p)

section Print

variable (order : Nat)

/-! ## The queue -/

/-- `p->next = next`. -/
def setNext (m : Memory) (p next : Ptr) : Exec Memory := do
  let n ← m.node p
  m.setNode p { n with next }

/-- `while (c->next != NULL)`. -/
def lastInQueue (m : Memory) : Nat → Ptr → Exec Ptr
  | 0, _ => .error .outOfFuel
  | fuel + 1, c => do
      let n ← m.node c
      if n.next ≠ null then lastInQueue m fuel n.next else return c

/-- The `queue` after `enqueue`, and the memory. -/
def enqueue (fuel : Nat) (newNode : Ptr) (queue : Ptr) (m : Memory) : Exec (Ptr × Memory) :=
  if queue = null then do
    let m ← setNext m newNode null
    return (newNode, m)
  else do
    let c ← lastInQueue m fuel queue
    let m ← setNext m c newNode
    let m ← setNext m newNode null
    return (queue, m)

/-- What `dequeue` returns, the `queue` after it, and the memory. -/
def dequeue (queue : Ptr) (m : Memory) : Exec (Ptr × Ptr × Memory) := do
  let n ← m.node queue
  let m ← setNext m queue null
  return (queue, n.next, m)

/-- `for ( ; rounds times; i++) enqueue(n->pointers[i])`. -/
def enqueueChildren (fuel : Nat) (n : Node) : Nat → Nat → Ptr → Memory → Exec (Ptr × Memory)
  | _, 0, queue, m => .ok (queue, m)
  | i, rounds + 1, queue, m => do
      let child ← (pointerArray order).read n.pointers i
      let (queue, m) ← enqueue fuel child queue m
      enqueueChildren fuel n (i + 1) rounds queue m

/-- `if (!n->is_leaf)`, and the loop. -/
def enqueueKids (fuel : Nat) (n : Node) (queue : Ptr) (m : Memory) : Exec (Ptr × Memory) :=
  if n.isLeaf then .ok (queue, m) else enqueueChildren order fuel n 0 (n.numKeys + 1) queue m

/-! ## One node -/

/-- A pointer of a node, which is printed only if `verbose_output` is set. -/
def printPointer (verboseOutput : Bool) (n : Node) (i : Nat) : Exec Output :=
  if verboseOutput then do
    let p ← (pointerArray order).read n.pointers i
    return [hexadecimal p ++ " "]
  else
    return []

/-- `for ( ; rounds times; i++)` over the keys of a node. -/
def printKeys (verboseOutput : Bool) (n : Node) : Nat → Nat → Exec Output
  | _, 0 => .ok []
  | i, rounds + 1 => do
      let location ← printPointer order verboseOutput n i
      let k ← (keyArray order).read n.keys i
      let rest ← printKeys verboseOutput n (i + 1) rounds
      return location ++ (decimal k ++ " ") :: rest

/-! ## The leaves -/

variable (m : Memory)

/-- `while (!c->is_leaf) c = c->pointers[0]`: the leaf, and how many rounds it took. -/
def firstLeaf : Nat → Ptr → Exec (Ptr × Nat)
  | 0, _ => .error .outOfFuel
  | fuel + 1, c => do
      let n ← m.node c
      if n.isLeaf then
        return (c, 0)
      else
        let child ← (pointerArray order).read n.pointers 0
        let (leaf, h) ← firstLeaf fuel child
        return (leaf, h + 1)

def height (fuel : Nat) (root : Ptr) : Exec Nat := do
  let (_, h) ← firstLeaf order m fuel root
  return h

/-- The `while (true)` loop of `print_leaves`. -/
def printLeavesLoop (verboseOutput : Bool) : Nat → Ptr → Exec Output
  | 0, _ => .error .outOfFuel
  | fuel + 1, c => do
      let n ← m.node c
      let keys ← printKeys order verboseOutput n 0 n.numKeys
      let last ← printPointer order verboseOutput n (order - 1)
      let next ← (pointerArray order).read n.pointers (order - 1)
      if next ≠ null then
        let rest ← printLeavesLoop verboseOutput fuel next
        return keys ++ last ++ " | " :: rest
      else
        return keys ++ last

def printLeaves (verboseOutput : Bool) (fuel : Nat) (root : Ptr) : Exec Output :=
  if root = null then
    return ["Empty tree.\n"]
  else do
    let (c, _) ← firstLeaf order m fuel root
    let leaves ← printLeavesLoop order m verboseOutput fuel c
    return leaves ++ ["\n"]

/-! ## The tree in level order -/

def pathToRoot (root : Ptr) : Nat → Ptr → Exec Nat
  | 0, _ => .error .outOfFuel
  | fuel + 1, c =>
      if c = root then
        .ok 0
      else do
        let n ← m.node c
        let length ← pathToRoot root fuel n.parent
        return length + 1

/-- The `rank` when the node `n`, at `p`, is printed, and the line break before it. -/
def newRank (fuel : Nat) (root p : Ptr) (n : Node) (rank : Nat) : Exec (Nat × Output) :=
  if n.parent = null then
    return (rank, [])
  else do
    let parent ← m.node n.parent
    let first ← (pointerArray order).read parent.pointers 0
    if p = first then
      let length ← pathToRoot m root fuel p
      if length ≠ rank then return (length, ["\n"]) else return (rank, [])
    else
      return (rank, [])

/-- The `while (queue != NULL)` loop. -/
def printTreeLoop (verboseOutput : Bool) (inner : Nat) (root : Ptr) :
    Nat → Ptr → Nat → Memory → Exec (Output × Memory)
  | 0, _, _, _ => .error .outOfFuel
  | fuel + 1, queue, rank, m =>
      if queue = null then
        .ok ([], m)
      else do
        let (p, queue, m) ← dequeue queue m
        let n ← m.node p
        let (rank, lineBreak) ← newRank order m inner root p n rank
        let location := if verboseOutput then ["(" ++ hexadecimal p ++ ")"] else []
        let keys ← printKeys order verboseOutput n 0 n.numKeys
        let (queue, m) ← enqueueKids order inner n queue m
        let last ← printPointer order verboseOutput n (if n.isLeaf then order - 1 else n.numKeys)
        let (rest, m) ← printTreeLoop verboseOutput inner root fuel queue rank m
        return (lineBreak ++ location ++ keys ++ last ++ "| " :: rest, m)

def printTree (verboseOutput : Bool) (fuel : Nat) (root : Ptr) : Exec (Output × Memory) :=
  if root = null then
    return (["Empty tree.\n"], m)
  else do
    let (queue, m) ← enqueue fuel root null m
    let (ranks, m) ← printTreeLoop order verboseOutput fuel root fuel queue 0 m
    return (ranks ++ ["\n"], m)

/-! ## Searches -/

/-- The keys of a node on the way, the last one with what closes the bracket. -/
def printBracket (n : Node) (close : String) : Exec Output := do
  let keys ← printKeys order false n 0 (n.numKeys - 1)
  let last ← (keyArray order).read n.keys (n.numKeys - 1)
  return keys ++ [decimal last ++ close]

/-- What the `while (!c->is_leaf)` loop prints, and what follows it. -/
def findLeafTraceLoop (key : Key) : Nat → Ptr → Exec Output
  | 0, _ => .error .outOfFuel
  | fuel + 1, p => do
      let c ← m.node p
      if c.isLeaf then
        let keys ← printBracket order c "] ->\n"
        return "Leaf [" :: keys
      else
        let keys ← printBracket order c "] "
        let i ← (keyArray order).find c.keys (fun k => ¬ k ≤ key) 0 c.numKeys
        let child ← (pointerArray order).read c.pointers i
        let rest ← findLeafTraceLoop key fuel child
        return "[" :: keys ++ (toString i ++ " ->\n") :: rest

/-- What `find_leaf` prints. -/
def findLeafTrace (verbose : Bool) (fuel : Nat) (root : Ptr) (key : Key) : Exec Output :=
  if ¬ verbose then
    return []
  else if root = null then
    return ["Empty tree.\n"]
  else
    findLeafTraceLoop order m key fuel root

def findAndPrint (verbose : Bool) (fuel : Nat) (root : Ptr) (key : Key) : Exec Output := do
  let trace ← findLeafTrace order m verbose fuel root key
  let r ← find order m fuel root key
  if r = null then
    return trace ++ ["Record not found under key " ++ decimal key ++ ".\n"]
  else
    let found ← m.record r
    return trace ++ ["Record at " ++ hexadecimal r ++ " -- key " ++ decimal key ++ ", value " ++
      decimal found.value ++ ".\n"]

/-- The loop over what has been found. -/
def printFound : List (Key × Ptr) → Exec Output
  | [] => .ok []
  | (k, p) :: found => do
      let r ← m.record p
      let rest ← printFound found
      return ("Key: " ++ decimal k ++ "   Location: " ++ hexadecimal p ++ "  Value: " ++ decimal r.value ++ "\n") ::
        rest

/-- `array_size` wraps, as the machine's integers do; an array of a negative size has no
elements. -/
def arraySize (keyStart keyEnd : Key) : Nat := (keyEnd - keyStart + 1).toInt.toNat

/-- Both arrays are on the stack, which has room for `room` elements of each. -/
def findAndPrintRange (room : Nat) (verbose : Bool) (fuel : Nat) (root : Ptr) (keyStart keyEnd : Key) :
    Exec Output := do
  if room < arraySize keyStart keyEnd then
    .error .stackOverflow
  else
    let trace ← findLeafTrace order m verbose fuel root keyStart
    let found ← findRange order m fuel root keyStart keyEnd (arraySize keyStart keyEnd)
    if found.length = 0 then
      return trace ++ ["None found.\n"]
    else
      let lines ← printFound m found
      return trace ++ lines

end Print

end SimpleDatabase.Bpt
