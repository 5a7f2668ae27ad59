/- Bpt.Input -- what `bpt/src/main.c` reads

The input file and the standard input are lists of characters, and what a call leaves of one
is the rest of the list.  At the end `getchar` returns `EOF` again and again.  A file is known to be at
its end once a call has met the end, and then nothing is left of it.

`mainText` is `main` with the calls that read where the source has them: it is not told the
instructions, it finds them in the text as it goes.
-/
import SimpleDatabase.Theory.Numerals
import SimpleDatabase.Bpt.Main

namespace SimpleDatabase.Bpt

open SimpleDatabase.Theory

set_option autoImplicit false

/-- What `scanf` stores for a number it has read: the number, if it is an `int`. -/
structure Scanf where
  store : Int → Int32
  stores : ∀ n : Int32, store n.toInt = n

/-- A `scanf` that stores the low 32 bits. -/
def Scanf.wrapping : Scanf := ⟨Int32.ofInt, Int32.ofInt_toInt⟩

/-- The variables of `main` that `scanf` sets. -/
structure Scanned where
  input : Key
  range2 : Key

section Scan

variable (scanf : Scanf)

/-- `scanf("%d", &variable)`: what the variable holds afterwards. -/
def scanInt (held : Int32) (text : List Char) : Int32 × List Char :=
  let (n, text) := scanNumeral text
  (n.elim held scanf.store, text)

/-- `scanf("%d %d", &input, &range2)`, which stops at a number that is not there. -/
def scanRange (v : Scanned) (text : List Char) : Scanned × List Char :=
  let (n, text) := scanNumeral text
  match n with
  | none => (v, text)
  | some n =>
      let (range2, text) := scanInt scanf v.range2 text
      (⟨scanf.store n, range2⟩, text)

/-- `fscanf(fp, "%d\n", &input)`. -/
def scanKey (input : Key) (text : List Char) : Key × List Char :=
  let (n, text) := scanNumeral text
  match n with
  | none => (input, text)
  | some n => (scanf.store n, skipSpaces text)

/-- The calls of `scanf` in the `switch`. -/
def scanInstruction (v : Scanned) (instruction : Char) (text : List Char) :
    Instruction × Scanned × List Char :=
  let (input, rest) := scanInt scanf v.input text
  match instruction with
  | 'd' => (.delete input, { v with input }, rest)
  | 'i' => (.insert input, { v with input }, rest)
  | 'f' => (.find input, { v with input }, rest)
  | 'p' => (.path input, { v with input }, rest)
  | 'r' =>
      -- the two are exchanged in the variables themselves
      let (w, rest) := scanRange scanf v text
      (.range w.input w.range2, if w.input > w.range2 then ⟨w.range2, w.input⟩ else w, rest)
  | 'l' => (.leaves, v, text)
  | 't' => (.tree, v, text)
  | 'v' => (.verbose, v, text)
  | 'x' => (.destroy, v, text)
  | _ => (.other, v, text)

def atoi (text : List Char) : Int32 := (scanInt scanf 0 text).1

end Scan

/-- `while (getchar() != (int)'\n')`. -/
def skipLine : Nat → List Char → Exec (List Char)
  | 0, _ => .error .outOfFuel
  | fuel + 1, [] => skipLine fuel []
  | fuel + 1, c :: text => if c = '\n' then .ok text else skipLine fuel text

section Main

variable (order : Nat) (heap : Malloc) (scanf : Scanf) (room fuel : Nat)

/-- The `while (!feof(fp))` loop, and what `input` holds after it. -/
def scanFileLoop : Nat → List Char → Session → Key → Exec (Session × Key)
  | 0, _, _, _ => .error .outOfFuel
  | rounds + 1, text, s, input => do
      let (input, text) := scanKey scanf input text
      let (root, memory) ← insert order heap fuel s.memory s.root input input
      if text = [] then
        return ({ s with root, memory }, input)
      else
        scanFileLoop rounds text { s with root, memory } input

/-- What `main` does with the input file, if one is given. -/
def scanFile (v : Scanned) : Option (List Char) → Exec (Session × Scanned × Output)
  | none => .ok (Session.start, v, [])
  | some text => do
      let (s, input) ← scanFileLoop order heap scanf fuel fuel text Session.start v.input
      let (s, out) ← showTree order fuel s
      return (s, { v with input }, out)

/-- The `while (scanf("%c", &instruction) != EOF)` loop. -/
def scanLoop : Nat → List Char → Session → Scanned → Exec (Session × List Output)
  | 0, _, _, _ => .error .outOfFuel
  | _ + 1, [], s, _ => .ok (s, [])
  | rounds + 1, instruction :: text, s, v =>
      if instruction = 'q' then do
        let _ ← skipLine fuel text
        return (s, [])
      else do
        let (instruction, v, text) := scanInstruction scanf v instruction text
        let (s, out) ← execute order heap room fuel s instruction
        let text ← skipLine fuel text
        let (s, outs) ← scanLoop rounds text s v
        return (s, out :: outs)

end Main

/-- `main`, with `v` in its variables at first. -/
def mainText (heap : Malloc) (scanf : Scanf) (room : Nat) (v : Scanned) (argument file : Option (List Char))
    (text : List Char) (fuel : Nat) : Exec (Session × List Output) := do
  let order ← argumentOrder (argument.map (atoi scanf))
  let (s, v, out) ← scanFile order heap scanf fuel v file
  let (s, outs) ← scanLoop order heap scanf room fuel fuel text s v
  return (s, out :: outs)

end SimpleDatabase.Bpt
