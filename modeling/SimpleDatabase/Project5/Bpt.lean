/- Project5.Bpt -- the API services of `src/bpt.c` -/
import SimpleDatabase.Project5.IndexManager.Delete
import SimpleDatabase.Project5.IndexManager.Join

namespace SimpleDatabase.Project5

open SimpleDatabase.Theory Page

set_option autoImplicit false

/-- A table file that `open_table` has just created: a header page, and nothing
written yet at any other page. -/
def freshTable (junk : Page) (t : Table) : Table :=
  fileWritePage t headerPagenum (makeHeaderPage junk)

/-- The cases of `db_insert` for a key its leaf does not hold. -/
def insertAtLeaf (heap : Nat → Page) (fuel : Nat) (t : Table) (targetPgnum : Pgnum) (key : Key)
    (value : Value) : Exec Table :=
  let targetPg := fileReadPage t targetPgnum
  if targetPg.numofkeys < maxLeafKey then do
    let page ← insertIntoLeaf targetPg key value
    return fileWritePage t targetPgnum page
  else
    insertIntoLeafAfterSplitting heap fuel t targetPgnum key value

def dbInsert (heap : Nat → Page) (fuel : Nat) (t : Table) (key : Key) (value : Value) :
    Exec (Int × Table) := do
  if getRootpgnum t = 0 then
    let targetPg ← startNewTree (heap headerPagenum) key value
    let targetPgnum := (fileAllocPage t).1
    let t := setRootpgnum (fileAllocPage t).2 targetPgnum
    return (0, fileWritePage t targetPgnum targetPg)
  let targetPgnum ← findLeafPage fuel t key
  match ← findValue (fileReadPage t targetPgnum) key with
  | some _ => return (0, t)
  | none =>
      let t ← insertAtLeaf heap fuel t targetPgnum key value
      return (0, t)

/-- The return value, and what `ret_val` holds afterwards. -/
def dbFind (fuel : Nat) (t : Table) (key : Key) (retVal : Value) : Exec (Int × Value) := do
  let targetPgnum ← findLeafPage fuel t key
  match ← findValue (fileReadPage t targetPgnum) key with
  | none => return (-1, retVal)
  | some value => return (0, value)

def dbDelete (bounds : Bounds) (fuel : Nat) (t : Table) (key : Key) : Exec (Int × Table) := do
  let targetPgnum ← findLeafPage fuel t key
  match ← findValue (fileReadPage t targetPgnum) key with
  | none => return (-1, t)
  | some _ =>
      let t ← deleteEntry bounds fuel t targetPgnum key
      return (0, t)

/-- What `fprintf (fp, "%ld,%s,%ld,%s\n", ...)` writes: two keys, each with its value. -/
structure JoinLine where
  key1 : Key
  value1 : Value
  key2 : Key
  value2 : Value
  deriving DecidableEq

/-- `while (key < bound) key = get_next_record (key)`. -/
def advance (t : Table) : Nat → Key → Key → Exec Key
  | 0, _, _ => .error .outOfFuel
  | fuel + 1, key, bound =>
      if key < bound then do
        let next ← getNextRecord fuel t key
        advance t fuel next bound
      else
        .ok key

/-- The two values of a line, both looked up under `key_1`. -/
def joinLine (fuel : Nat) (t1 t2 : Table) (key1 key2 : Key) : Exec JoinLine := do
  let value1 ← getTableValue fuel t1 key1
  let value2 ← getTableValue fuel t2 key1
  return { key1, value1, key2, value2 }

/-- The `while (1)` loop of `join_table`; `lines` is what the file holds so far. -/
def joinLoop (t1 t2 : Table) : Nat → Key → Key → List JoinLine → Exec (List JoinLine)
  | 0, _, _, _ => .error .outOfFuel
  | fuel + 1, key1, key2, lines => do
      let lines ←
        if key1 = maxKeyValue ∧ key2 = maxKeyValue then do
          let line ← joinLine fuel t1 t2 key1 key2
          pure (lines ++ [line])
        else
          pure lines
      let key1 ← advance t1 fuel key1 key2
      let key2 ← advance t2 fuel key2 key1
      if key1 = maxKeyValue ∨ key2 = maxKeyValue then
        return lines
      else
        let line ← joinLine fuel t1 t2 key1 key2
        let key2 ← getNextRecord fuel t2 key2
        joinLoop t1 t2 fuel key1 key2 (lines ++ [line])

/-- The return value, and the lines written. -/
def joinTable (fuel : Nat) (t1 t2 : Table) : Exec (Int × List JoinLine) := do
  let key1 ← findLeastKey t1
  let key2 ← findLeastKey t2
  let lines ← joinLoop t1 t2 fuel key1 key2 []
  return (0, lines)

end SimpleDatabase.Project5
