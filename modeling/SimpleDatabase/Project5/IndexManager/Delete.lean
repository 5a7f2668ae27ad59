/- Project5.IndexManager.Delete -- the deletion functions of `src/index_manager.c`

`neighbor_index` is the source's `int`: a record index, or -1 when the page is
its parent's last child.  Where that parent has one key, the code then reads
`internal_record[numofkeys - 2]`, the record at index -1.  C leaves that open;
the packed layout puts `left_pgnum` there.  `Bounds` says which reading is
meant: `layout` follows the bytes, `declared` calls it out of bounds.

Like the splits, `coalesce_pages` is in two parts: `mergePages` does everything
up to the recursive call of `delete_entry` and returns its arguments.
-/
import SimpleDatabase.Project5.IndexManager.Insert

namespace SimpleDatabase.Project5

open SimpleDatabase.Theory Page

set_option autoImplicit false

/-- What an index of -1 into `internal_record` reads. -/
inductive Bounds where
  | layout
  | declared
  deriving DecidableEq

/-- `internal_record[i].child_pgnum`, for an index that may be -1. -/
def childAt (bounds : Bounds) (page : Page) (i : Int) : Exec Pgnum :=
  if i = -1 ∧ bounds = .layout then
    .ok page.leftPgnum
  else if i < 0 then
    .error .outOfBounds
  else do
    let r ← internalRecord.read page i.toNat
    return r.2

/-- The scan for the key is not bounded by `numofkeys`. -/
def removeEntryFromPage (page : Page) (key : Key) : Exec Page :=
  if page.isLeaf = 1 then do
    let i ← leafRecord.seek page (fun r => r.1 = key)
    let page ← leafRecord.moveDown 1 i (page.numofkeys - (i + 1)) page
    return { page with numofkeys := page.numofkeys - 1 }
  else do
    let i ← internalRecord.seek page (fun r => r.1 = key)
    let page ← internalRecord.moveDown 1 i (page.numofkeys - (i + 1)) page
    return { page with numofkeys := page.numofkeys - 1 }

def adjustRoot (t : Table) (rootnum : Pgnum) : Table :=
  let root := fileReadPage t rootnum
  if 0 < root.numofkeys then
    t
  else if root.isLeaf = 0 then
    -- the first child becomes the root
    let newRootnum := root.leftPgnum
    let t := setRootpgnum t newRootnum
    let t := setParent t newRootnum 0
    fileFreePage t rootnum
  else
    let t := fileFreePage t rootnum
    setRootpgnum t 0

def getNeighborIndex (parent : Page) (pagenum : Pgnum) : Exec Int :=
  if parent.leftPgnum = pagenum then
    .ok 0
  else do
    let i ← internalRecord.find parent (fun r => r.2 = pagenum) 0 parent.numofkeys
    if i + 1 = parent.numofkeys then
      return -1
    else if i + 1 > parent.numofkeys then
      throw .exitFailure
    else
      return (i + 1 : Nat)

/-- The separator between a page and its neighbour: the parent's record
`neighbor_index`, or its last record. -/
def separatorIndex (parent : Page) (neighborIndex : Int) : Exec Nat :=
  if neighborIndex ≠ -1 then
    .ok neighborIndex.toNat
  else if parent.numofkeys = 0 then
    .error .outOfBounds
  else
    .ok (parent.numofkeys - 1)

/-- `for (; n times; i++, j++) { page->internal_record[j] = src->internal_record[i];`
and the child moved gets `pgnum` as its parent `}`. -/
def adopt (src : Page) (pgnum : Pgnum) : Nat → Nat → Nat → Table × Page → Exec (Table × Page)
  | _, _, 0, s => .ok s
  | i, j, n + 1, (t, page) => do
      let r ← internalRecord.read src i
      let page ← internalRecord.write page j r
      adopt src pgnum (i + 1) (j + 1) n (setParent t r.2 pgnum, page)

/-- The records of `src` appended to those of `dst`, the page `dstnum`: between
internal pages the separator comes down with `src`'s leftmost child. -/
def absorb (t : Table) (dst src : Page) (dstnum : Pgnum) (sep : Key) (balanceNum : Nat) :
    Exec (Table × Page) :=
  if dst.isLeaf = 1 then do
    let dst' ← leafRecord.copyUp leafRecord src 0 dst.numofkeys src.numofkeys dst
    return (t, { dst' with nextPgnum := src.nextPgnum, numofkeys := balanceNum })
  else do
    let dst' ← internalRecord.write dst dst.numofkeys (sep, src.leftPgnum)
    let t := setParent t src.leftPgnum dstnum
    let s ← adopt src dstnum 0 (dst.numofkeys + 1) src.numofkeys (t, dst')
    return (s.1, { s.2 with numofkeys := balanceNum })

/-- Two pages made one, up to the recursive call of `delete_entry`: the table, and
the call's arguments. -/
structure Merge where
  table : Table
  parentPgnum : Pgnum
  kPrime : Key

/-- `coalesce_pages`, up to its call of `delete_entry`. -/
def mergePages (t : Table) (pgnum neighborNum : Pgnum) (neighborIndex : Int) : Exec Merge := do
  let page := fileReadPage t pgnum
  let neighbor := fileReadPage t neighborNum
  let parent := fileReadPage t page.parentPgnum
  let balanceNum :=
    if page.isLeaf = 1 then page.numofkeys + neighbor.numofkeys
    else page.numofkeys + neighbor.numofkeys + 1
  let k ← separatorIndex parent neighborIndex
  let sep ← internalRecord.read parent k
  if neighborIndex ≠ -1 then
    let s ← absorb t page neighbor pgnum sep.1 balanceNum
    let t := fileWritePage s.1 pgnum s.2
    let t := fileFreePage t neighborNum
    return { table := t, parentPgnum := page.parentPgnum, kPrime := sep.1 }
  else
    let s ← absorb t neighbor page neighborNum sep.1 balanceNum
    let t := fileWritePage s.1 neighborNum s.2
    let t := fileFreePage t pgnum
    return { table := t, parentPgnum := page.parentPgnum, kPrime := sep.1 }

/-- The table, page, neighbour and parent in the middle of a redistribution. -/
structure Shift where
  table : Table
  page : Page
  neighbor : Page
  parent : Page

/-- The parent's separator, overwritten. -/
def setSeparator (parent : Page) (k : Nat) (key : Key) : Exec Page := do
  let r ← internalRecord.read parent k
  internalRecord.write parent k (key, r.2)

/-- Leaves, the neighbour to the right: its first records move over. -/
def shiftLeafRight (s : Shift) (k balanceNum : Nat) : Exec Shift := do
  let moved := balanceNum - s.page.numofkeys
  let page ← leafRecord.copyUp leafRecord s.neighbor 0 s.page.numofkeys moved s.page
  let first ← leafRecord.read s.neighbor moved
  let parent ← setSeparator s.parent k first.1
  let neighbor ← leafRecord.moveDown moved 0 (s.neighbor.numofkeys - moved) s.neighbor
  return { s with page, neighbor, parent }

/-- Internal pages, the neighbour to the right: its first children move over, the
separator rotating through the parent. -/
def shiftNodeRight (s : Shift) (pgnum : Pgnum) (k balanceNum : Nat) : Exec Shift := do
  let sep ← internalRecord.read s.parent k
  let page ← internalRecord.write s.page s.page.numofkeys (sep.1, s.neighbor.leftPgnum)
  let t := setParent s.table s.neighbor.leftPgnum pgnum
  let moved := balanceNum - (s.page.numofkeys + 1)
  let a ← adopt s.neighbor pgnum 0 (s.page.numofkeys + 1) moved (t, page)
  let middle ← internalRecord.read s.neighbor moved
  let parent ← setSeparator s.parent k middle.1
  let neighbor := { s.neighbor with nextPgnum := middle.2 }
  let neighbor ← internalRecord.moveDown (moved + 1) 0 (neighbor.numofkeys - (moved + 1)) neighbor
  return { table := a.1, page := a.2, neighbor, parent }

/-- Leaves, the neighbour to the left: its last records move over. -/
def shiftLeafLeft (s : Shift) (k balanceNum : Nat) : Exec Shift := do
  if balanceNum < s.page.numofkeys then throw .outOfBounds
  let moved := balanceNum - s.page.numofkeys
  let page ← leafRecord.moveUp 0 moved s.page.numofkeys s.page
  let page ← leafRecord.copyDown leafRecord s.neighbor (s.neighbor.numofkeys - moved) 0 moved page
  let first ← leafRecord.read page 0
  let parent ← setSeparator s.parent k first.1
  return { s with page, parent }

/-- Internal pages, the neighbour to the left.  The page's own records go up to
the indices `balance_num - numofkeys + 1 .. balance_num`, although the page is
left with `balance_num` keys. -/
def shiftNodeLeft (s : Shift) (pgnum : Pgnum) (k balanceNum : Nat) : Exec Shift := do
  if balanceNum < s.page.numofkeys then throw .outOfBounds
  let page ← internalRecord.moveUp 0 (balanceNum + 1 - s.page.numofkeys) s.page.numofkeys s.page
  let sep ← internalRecord.read s.parent k
  let page ← internalRecord.write page (balanceNum - s.page.numofkeys) (sep.1, page.leftPgnum)
  let a ← adopt s.neighbor pgnum (balanceNum + 1) 0 (s.neighbor.numofkeys - (balanceNum + 1))
    (s.table, page)
  let middle ← internalRecord.read s.neighbor balanceNum
  let parent ← setSeparator s.parent k middle.1
  let page := { a.2 with nextPgnum := middle.2 }
  let t := setParent a.1 middle.2 pgnum
  return { s with table := t, page, parent }

def redistributePages (t : Table) (pgnum neighborNum : Pgnum) (neighborIndex : Int) :
    Exec Table := do
  let page := fileReadPage t pgnum
  let neighbor := fileReadPage t neighborNum
  let parentNum := page.parentPgnum
  let parent := fileReadPage t parentNum
  let balanceNum := (page.numofkeys + neighbor.numofkeys) / 2
  let k ← separatorIndex parent neighborIndex
  let s : Shift := { table := t, page, neighbor, parent }
  let s ←
    if neighborIndex ≠ -1 then
      if page.isLeaf = 1 then shiftLeafRight s k balanceNum
      else shiftNodeRight s pgnum k balanceNum
    else
      if page.isLeaf = 1 then shiftLeafLeft s k balanceNum
      else shiftNodeLeft s pgnum k balanceNum
  let t := fileWritePage s.table parentNum s.parent
  -- the neighbour loses what the page gains
  let total := page.numofkeys + neighbor.numofkeys
  let t := fileWritePage t pgnum { s.page with numofkeys := balanceNum }
  return fileWritePage t neighborNum { s.neighbor with numofkeys := total - balanceNum }

section Cascade

variable (bounds : Bounds)

mutual

def deleteEntry : Nat → Table → Pgnum → Key → Exec Table
  | 0, _, _, _ => .error .outOfFuel
  | fuel + 1, t, pgnum, key => do
      let page ← removeEntryFromPage (fileReadPage t pgnum) key
      if pgnum = getRootpgnum t then
        return adjustRoot (fileWritePage t pgnum page) pgnum
      let minKeys := if page.isLeaf = 1 then maxLeafKey / 8 else maxInternalKey / 8
      if page.numofkeys > minKeys then
        return fileWritePage t pgnum page
      let parent := fileReadPage t page.parentPgnum
      let neighborIndex ← getNeighborIndex parent pgnum
      let neighborNum ← childAt bounds parent
        (if neighborIndex = -1 then (parent.numofkeys : Int) - 2 else neighborIndex)
      let capacity := if page.isLeaf = 1 then maxLeafKey / 2 else maxInternalKey / 2
      let neighbor := fileReadPage t neighborNum
      let t := fileWritePage t pgnum page
      if neighbor.numofkeys + page.numofkeys < capacity then
        coalescePages fuel t pgnum neighborNum neighborIndex
      else
        redistributePages t pgnum neighborNum neighborIndex

def coalescePages : Nat → Table → Pgnum → Pgnum → Int → Exec Table
  | 0, _, _, _, _ => .error .outOfFuel
  | fuel + 1, t, pgnum, neighborNum, neighborIndex => do
      let m ← mergePages t pgnum neighborNum neighborIndex
      deleteEntry fuel m.table m.parentPgnum m.kPrime

end

end Cascade

end SimpleDatabase.Project5
