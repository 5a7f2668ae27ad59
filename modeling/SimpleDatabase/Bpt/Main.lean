/- Bpt.Main -- the command loop of `bpt/src/main.c`

An instruction is a command with the numbers that `scanf` reads for it; a list of them ends
where the input does, or at `q`.  The keys of the input file are a list too.  What is printed
before any of them is read is not modelled.

Beside the allocator the program depends on the stack, through the arrays of
`find_and_print_range`: `room` is how many elements of each it has room for.
-/
import SimpleDatabase.Bpt.Delete
import SimpleDatabase.Bpt.Print

namespace SimpleDatabase.Bpt

open SimpleDatabase.Theory

set_option autoImplicit false

inductive Instruction where
  /-- `d` -/
  | delete (input : Key)
  /-- `i` -/
  | insert (input : Key)
  /-- `f` -/
  | find (input : Key)
  /-- `p` -/
  | path (input : Key)
  /-- `r` -/
  | range (input range2 : Key)
  /-- `l` -/
  | leaves
  /-- `t` -/
  | tree
  /-- `v` -/
  | verbose
  /-- `x` -/
  | destroy
  /-- Any other character. -/
  | other

/-- The variables of `main` and the memory. -/
structure Session where
  root : Ptr
  verboseOutput : Bool
  memory : Memory

def Session.start : Session := ⟨null, false, .empty⟩

/-- `usage_2`. -/
def usage2 : Output :=
  ["Enter any of the following commands after the prompt > :\n" ++
    "\ti <k>  -- Insert <k> (an integer) as both key and value).\n" ++
    "\tf <k>  -- Find the value under key <k>.\n" ++
    "\tp <k> -- Print the path from the root to key k and its associated value.\n" ++
    "\tr <k1> <k2> -- Print the keys and values found in the range [<k1>, <k2>\n" ++
    "\td <k>  -- Delete key <k> and its associated value.\n" ++
    "\tx -- Destroy the whole tree.  Start again with an empty tree of the same order.\n" ++
    "\tt -- Print the B+ tree.\n" ++
    "\tl -- Print the keys of the leaves (bottom row of the tree).\n" ++
    "\tv -- Toggle output of pointer addresses (\"verbose\") in tree and leaves.\n" ++
    "\tq -- Quit. (Or use Ctl-D.)\n" ++
    "\t? -- Print this help message.\n"]

section Main

variable (order : Nat) (heap : Malloc) (room fuel : Nat)

/-- `print_tree(root)`. -/
def showTree (s : Session) : Exec (Session × Output) := do
  let (out, memory) ← printTree order s.memory s.verboseOutput fuel s.root
  return ({ s with memory }, out)

/-- `if (root) root = destroy_tree(root)`. -/
def destroyRoot (m : Memory) (root : Ptr) : Exec (Ptr × Memory) :=
  if root ≠ null then destroyTree order fuel m root else .ok (root, m)

/-- The `switch`. -/
def execute (s : Session) : Instruction → Exec (Session × Output)
  | .delete input => do
      let (root, memory) ← delete order fuel s.memory s.root input
      showTree order fuel { s with root, memory }
  | .insert input => do
      let (root, memory) ← insert order heap fuel s.memory s.root input input
      showTree order fuel { s with root, memory }
  | .find input => do
      let out ← findAndPrint order s.memory false fuel s.root input
      return (s, out)
  | .path input => do
      let out ← findAndPrint order s.memory true fuel s.root input
      return (s, out)
  | .range input range2 => do
      let (input, range2) := if input > range2 then (range2, input) else (input, range2)
      let out ← findAndPrintRange order s.memory room false fuel s.root input range2
      return (s, out)
  | .leaves => do
      let out ← printLeaves order s.memory s.verboseOutput fuel s.root
      return (s, out)
  | .tree => showTree order fuel s
  | .verbose => return ({ s with verboseOutput := !s.verboseOutput }, [])
  | .destroy => do
      let (root, memory) ← destroyRoot order fuel s.memory s.root
      showTree order fuel { s with root, memory }
  | .other => return (s, usage2)

/-- The `while (scanf(...) != EOF)` loop, with what each instruction prints. -/
def commandLoop (s : Session) : List Instruction → Exec (Session × List Output)
  | [] => .ok (s, [])
  | instruction :: rest => do
      let (s, out) ← execute order heap room fuel s instruction
      let (s, outs) ← commandLoop s rest
      return (s, out :: outs)

/-- The `while (!feof(fp))` loop. -/
def load (s : Session) : List Key → Exec Session
  | [] => .ok s
  | input :: rest => do
      let (root, memory) ← insert order heap fuel s.memory s.root input input
      load { s with root, memory } rest

/-- What `main` does with the input file, if one is given. -/
def readFile : Option (List Key) → Exec (Session × Output)
  | none => .ok (Session.start, [])
  | some keys => do
      let s ← load order heap fuel Session.start keys
      showTree order fuel s

end Main

/-- The order that the first argument of the program sets. -/
def argumentOrder : Option Int32 → Exec Nat
  | none => .ok defaultOrder
  | some n =>
      if n.toInt < minOrder ∨ n.toInt > maxOrder then .error .exitFailure else .ok n.toInt.toNat

/-- `main`: what is printed of the input file and for each instruction, after each `> `. -/
def main (heap : Malloc) (room : Nat) (argument : Option Int32) (file : Option (List Key))
    (instructions : List Instruction) (fuel : Nat) : Exec (Session × List Output) := do
  let order ← argumentOrder argument
  let (s, out) ← readFile order heap fuel file
  let (s, outs) ← commandLoop order heap room fuel s instructions
  return (s, out :: outs)

end SimpleDatabase.Bpt
