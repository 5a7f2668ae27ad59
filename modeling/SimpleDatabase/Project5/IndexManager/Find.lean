/- Project5.IndexManager.Find -- the finding functions of `src/index_manager.c` -/
import SimpleDatabase.Project5.DiskManager

namespace SimpleDatabase.Project5

open SimpleDatabase.Theory Page

set_option autoImplicit false

/-- The child of an internal page that `find_leaf_page` goes to: the leftmost one
for a key below the first separator, else the one of the last record that is not
above the key. -/
def childFor (page : Page) (key : Key) : Exec Pgnum := do
  let first ← internalRecord.read page 0
  if key < first.1 then
    return page.leftPgnum
  else
    let i ← internalRecord.find page (fun r => key < r.1) 1 (page.numofkeys - 1)
    let r ← internalRecord.read page (i - 1)
    return r.2

/-- The `while (is_leaf == 0)` loop of `find_leaf_page`. -/
def findLeafLoop (t : Table) (key : Key) : Nat → Pgnum → Exec Pgnum
  | 0, _ => .error .outOfFuel
  | fuel + 1, targetPgnum =>
      let targetPg := fileReadPage t targetPgnum
      if targetPg.isLeaf = 0 then do
        let child ← childFor targetPg key
        findLeafLoop t key fuel child
      else
        .ok targetPgnum

def findLeafPage (fuel : Nat) (t : Table) (key : Key) : Exec Pgnum :=
  let rootpgnum := getRootpgnum t
  if rootpgnum = 0 then .ok rootpgnum else findLeafLoop t key fuel rootpgnum

/-- The value in the page's first record with the key; `none` is `NULL`. -/
def findValue (page : Page) (key : Key) : Exec (Option Value) := do
  let i ← leafRecord.find page (fun r => r.1 = key) 0 page.numofkeys
  if i = page.numofkeys then
    return none
  else
    let r ← leafRecord.read page i
    return some r.2

end SimpleDatabase.Project5
