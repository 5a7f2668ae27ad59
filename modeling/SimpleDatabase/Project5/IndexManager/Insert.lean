/- Project5.IndexManager.Insert -- the insertion functions of `src/index_manager.c`

`make_page` returns memory from `malloc`, so what a new page holds where the code
has not written yet is anything: `junk` is that page, and `heap p` the one that is
made while page `p` is split (`heap 0` for a new root, which splits no page).

A split is in two parts.  `splitLeaf` and `splitNode` do everything up to the
call of `insert_into_parent` and return its arguments; the `int` variables that
carry the separator there (`new_key`, `k_prime`) are `Int32`.  Each round of the
cascade that follows takes one unit of fuel.
-/
import SimpleDatabase.Project5.DiskManager

namespace SimpleDatabase.Project5

open SimpleDatabase.Theory Page

set_option autoImplicit false

def makeHeaderPage (junk : Page) : Page :=
  { junk with parentPgnum := 0, isLeaf := 0, numofkeys := 0, numofpages := 1 }

def makeLeafPage (junk : Page) : Page :=
  { junk with numofkeys := 0, isLeaf := 1, parentPgnum := 0, nextPgnum := 0 }

def makeInternalPage (junk : Page) : Page :=
  { junk with numofkeys := 0, isLeaf := 0, parentPgnum := 0, nextPgnum := 0 }

def startNewTree (junk : Page) (key : Key) (value : Value) : Exec Page := do
  let root ← leafRecord.write (makeLeafPage junk) 0 (key, value)
  return { root with parentPgnum := 0, numofkeys := 1 }

def insertIntoLeaf (page : Page) (key : Key) (value : Value) : Exec Page := do
  let insertionPoint ← leafRecord.find page (fun r => ¬ r.1 < key) 0 page.numofkeys
  let page ← leafRecord.moveUp insertionPoint 1 (page.numofkeys - insertionPoint) page
  let page ← leafRecord.write page insertionPoint (key, value)
  return { page with numofkeys := page.numofkeys + 1 }

def insertIntoNode (page : Page) (rightIndex : Nat) (key : Key) (right : Pgnum) : Exec Page := do
  let page ← internalRecord.moveUp rightIndex 1 (page.numofkeys - rightIndex) page
  let page ← internalRecord.write page rightIndex (key, right)
  return { page with numofkeys := page.numofkeys + 1 }

/-- The index of the record after the child `left`; 0 when no record lists it, as
for the leftmost child. -/
def getRightIndex (parent : Page) (left : Pgnum) : Exec Nat := do
  let leftIndex ← internalRecord.find parent (fun r => r.2 = left) 0 parent.numofkeys
  return if leftIndex + 1 > parent.numofkeys then 0 else leftIndex + 1

/-- A page split in two, up to the call of `insert_into_parent`: the table, and
the call's arguments but for the old page. -/
structure Split where
  table : Table
  parentPgnum : Pgnum
  sep : Int32
  newPgnum : Pgnum

/-- `insert_into_leaf_after_splitting`, up to its call of `insert_into_parent`. -/
def splitLeaf (junk : Page) (t : Table) (pgnum : Pgnum) (key : Key) (value : Value) :
    Exec Split := do
  let temp := tempRecord LeafRecord maxLeafKey
  let page := fileReadPage t pgnum
  let newPgnum := (fileAllocPage t).1
  let t := (fileAllocPage t).2
  let insertionIndex ← leafRecord.find page (fun r => ¬ r.1 < key) 0 maxLeafKey
  let records ← temp.copyAround leafRecord page insertionIndex 0 0 page.numofkeys fun _ => default
  let records ← temp.write records insertionIndex (key, value)
  let split := maxLeafKey / 2
  let old ← leafRecord.copyUp temp records 0 0 split { page with numofkeys := 0 }
  let new ← leafRecord.copyUp temp records split 0 (maxLeafKey + 1 - split) (makeLeafPage junk)
  let new := { new with
    numofkeys := new.numofkeys + (maxLeafKey + 1 - split)
    nextPgnum := old.nextPgnum
    parentPgnum := old.parentPgnum }
  let old := { old with numofkeys := old.numofkeys + split, nextPgnum := newPgnum }
  let first ← leafRecord.read new 0
  let t := fileWritePage t pgnum old
  let t := fileWritePage t newPgnum new
  return { table := t, parentPgnum := old.parentPgnum, sep := first.1.toInt32, newPgnum }

/-- Give a page a new parent. -/
def setParent (t : Table) (child pgnum : Pgnum) : Table :=
  fileWritePage t child { fileReadPage t child with parentPgnum := pgnum }

/-- `for (; n times; i++)`: the child of each record gets the page `pgnum` as its parent. -/
def reparent (page : Page) (pgnum : Pgnum) : Nat → Nat → Table → Exec Table
  | _, 0, t => .ok t
  | i, n + 1, t => do
      let r ← internalRecord.read page i
      reparent page pgnum (i + 1) n (setParent t r.2 pgnum)

/-- `insert_into_node_after_splitting`, up to its call of `insert_into_parent`. -/
def splitNode (junk : Page) (t : Table) (oldpgnum : Pgnum) (rightIndex : Nat) (key : Key)
    (right : Pgnum) : Exec Split := do
  let temp := tempRecord InternalRecord maxInternalKey
  let page := fileReadPage t oldpgnum
  let records ← temp.copyAround internalRecord page rightIndex 0 0 page.numofkeys fun _ => default
  let records ← temp.write records rightIndex (key, right)
  let split := maxInternalKey / 2
  let old ← internalRecord.copyUp temp records 0 0 split { page with numofkeys := 0 }
  let old := { old with numofkeys := old.numofkeys + split }
  let middle ← temp.read records split
  let new ← internalRecord.copyUp temp records (split + 1) 0 (maxInternalKey + 1 - (split + 1))
    (makeInternalPage junk)
  let new := { new with
    numofkeys := new.numofkeys + (maxInternalKey + 1 - (split + 1))
    nextPgnum := middle.2
    parentPgnum := old.parentPgnum }
  let t := fileWritePage t oldpgnum old
  let newPgnum := (fileAllocPage t).1
  let t := (fileAllocPage t).2
  -- the moved children get their new parent, the leftmost one last
  let t ← reparent new newPgnum 0 new.numofkeys t
  let t := setParent t new.leftPgnum newPgnum
  let t := fileWritePage t newPgnum new
  return { table := t, parentPgnum := old.parentPgnum, sep := middle.1.toInt32, newPgnum }

def insertIntoNewRoot (junk : Page) (t : Table) (left : Pgnum) (key : Key) (right : Pgnum) :
    Exec Table := do
  let root := makeInternalPage junk
  let rootpgnum := (fileAllocPage t).1
  let t := (fileAllocPage t).2
  let root ← internalRecord.write root 0 (key, right)
  let root := { root with nextPgnum := left, numofkeys := root.numofkeys + 1 }
  let t := fileWritePage t rootpgnum root
  let t := setParent t left rootpgnum
  let t := setParent t right rootpgnum
  return setRootpgnum t rootpgnum

section Cascade

variable (heap : Nat → Page)

mutual

def insertIntoParent : Nat → Table → Pgnum → Pgnum → Key → Pgnum → Exec Table
  | 0, _, _, _, _, _ => .error .outOfFuel
  | fuel + 1, t, pgnum, left, key, right =>
      if pgnum = 0 then
        insertIntoNewRoot (heap pgnum) t left key right
      else do
        let page := fileReadPage t pgnum
        let rightIndex ← getRightIndex page left
        if page.numofkeys < maxInternalKey then
          let page ← insertIntoNode page rightIndex key right
          return fileWritePage t pgnum page
        else
          insertIntoNodeAfterSplitting fuel t pgnum rightIndex key right

def insertIntoNodeAfterSplitting : Nat → Table → Pgnum → Nat → Key → Pgnum → Exec Table
  | 0, _, _, _, _, _ => .error .outOfFuel
  | fuel + 1, t, oldpgnum, rightIndex, key, right => do
      let s ← splitNode (heap oldpgnum) t oldpgnum rightIndex key right
      insertIntoParent fuel s.table s.parentPgnum oldpgnum s.sep.toInt64 s.newPgnum

end

def insertIntoLeafAfterSplitting (fuel : Nat) (t : Table) (pgnum : Pgnum) (key : Key)
    (value : Value) : Exec Table := do
  let s ← splitLeaf (heap pgnum) t pgnum key value
  insertIntoParent heap fuel s.table s.parentPgnum pgnum s.sep.toInt64 s.newPgnum

end Cascade

end SimpleDatabase.Project5
