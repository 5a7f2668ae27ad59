/- Project5.IndexManager.Join -- the join functions of `src/index_manager.c` -/
import SimpleDatabase.Project5.IndexManager.Find

namespace SimpleDatabase.Project5

open SimpleDatabase.Theory Page

set_option autoImplicit false

/-- From an internal root the code goes down one page, whatever that page is. -/
def findLeastKey (t : Table) : Exec Key :=
  let pgnum := getRootpgnum t
  if pgnum = 0 then
    .ok maxKeyValue
  else do
    let page := fileReadPage t pgnum
    let page := if page.isLeaf = 0 then fileReadPage t page.leftPgnum else page
    let r ← leafRecord.read page 0
    return r.1

/-- The scan for the key is not bounded by `numofkeys`. -/
def getNextRecord (fuel : Nat) (t : Table) (key : Key) : Exec Key := do
  let pgnum ← findLeafPage fuel t key
  let page := fileReadPage t pgnum
  let index ← leafRecord.seek page (fun r => r.1 = key)
  if index + 1 ≥ page.numofkeys then
    if page.nextPgnum = 0 then
      return maxKeyValue
    else
      let r ← leafRecord.read (fileReadPage t page.nextPgnum) 0
      return r.1
  else
    let r ← leafRecord.read page (index + 1)
    return r.1

/-- `strcpy` from `find_value`'s result, which may be `NULL`. -/
def getTableValue (fuel : Nat) (t : Table) (key : Key) : Exec Value := do
  let pgnum ← findLeafPage fuel t key
  match ← findValue (fileReadPage t pgnum) key with
  | none => throw .nullPointer
  | some value => return value

end SimpleDatabase.Project5
