/- Project5.DiskManager -- `src/disk_manager.c`

Reads and writes succeed; a write of eight bytes at a page's start sets the
field there, whatever the page is otherwise used for.
-/
import SimpleDatabase.Project5.Type

namespace SimpleDatabase.Project5

open SimpleDatabase.Theory

set_option autoImplicit false

abbrev fileReadPage (t : Table) (pgnum : Pgnum) : Page := t pgnum

def fileWritePage (t : Table) (pgnum : Pgnum) (src : Page) : Table := Function.update t pgnum src

/-- `pread` of the first eight bytes of a page. -/
def preadLink (t : Table) (pgnum : Pgnum) : Pgnum := (t pgnum).parentPgnum

/-- `pwrite` of the first eight bytes of a page. -/
def pwriteLink (t : Table) (pgnum next : Pgnum) : Table :=
  Function.update t pgnum { t pgnum with parentPgnum := next }

def getFreepgnum (t : Table) : Pgnum := (fileReadPage t headerPagenum).freepgnum

def getRootpgnum (t : Table) : Pgnum := (fileReadPage t headerPagenum).rootpgnum

def getNumofpages (t : Table) : Pgnum := (fileReadPage t headerPagenum).numofpages

def setFreepgnum (t : Table) (src : Pgnum) : Table :=
  fileWritePage t headerPagenum { fileReadPage t headerPagenum with parentPgnum := src }

def setRootpgnum (t : Table) (src : Pgnum) : Table :=
  fileWritePage t headerPagenum
    { fileReadPage t headerPagenum with isLeaf := src % 2 ^ 32, numofkeys := src / 2 ^ 32 }

def setNumofpages (t : Table) (src : Pgnum) : Table :=
  fileWritePage t headerPagenum { fileReadPage t headerPagenum with numofpages := src }

/-- `for (; n times; i++) { nextnum = i + 1; pwrite (nextnum at page i) }`. -/
def linkFreePages (t : Table) : Nat → Nat → Table
  | _, 0 => t
  | i, n + 1 => linkFreePages (pwriteLink t i (i + 1)) (i + 1) n

/-- The byte written at the new end of the file only extends the file: it lies in
the last free page, past the link, where nothing reads. -/
def fileAllocPage (t : Table) : Pgnum × Table :=
  let freepgnum := getFreepgnum t
  if freepgnum ≠ 0 then
    (freepgnum, setFreepgnum t (preadLink t freepgnum))
  else
    let lastpgnum := getNumofpages t
    let t := linkFreePages t (lastpgnum + 1) (freepageGrowRate - 1)
    let t := pwriteLink t (lastpgnum + freepageGrowRate - 1) 0
    let t := setFreepgnum t (lastpgnum + 1)
    (lastpgnum, setNumofpages t (lastpgnum + freepageGrowRate))

def fileFreePage (t : Table) (pgnum : Pgnum) : Table :=
  let freepgnum := getFreepgnum t
  pwriteLink (setFreepgnum t pgnum) pgnum freepgnum

end SimpleDatabase.Project5
