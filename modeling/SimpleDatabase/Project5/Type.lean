/- Project5.Type -- pages, as `include/type.h` lays them out

A page is 4096 bytes, and the same bytes are a tree page or the header page:

    offset   tree page                     header page
       0     parent_pgnum                  freepgnum
       8     is_leaf                       rootpgnum, low half
      12     numofkeys                     rootpgnum, high half
      16     (reserved)                    numofpages
     120     next_pgnum, left_pgnum        (reserved)
     128     internal_record[248], leaf_record[31]

`Page` has one field for each place, so what the code writes under one name it
reads back under the other; `freepgnum`, `rootpgnum` and `leftPgnum` are those
second names.  A leaf record is 128 bytes and an internal record 16, so
`leaf_record[i].key` and `internal_record[8 * i].key` are one field too
(`slotKey`).  The other overlaps of the two record arrays are not modelled: no
path reads a child number or a value out of a page that holds the other kind.

Page numbers are `Nat`.  The code multiplies each by 4096 into a file offset, so
every page it reads or writes with success is far below `2 ^ 64`, and the
`uint64_t` arithmetic never wraps.  `numofkeys` is a `Nat` as well: it is
decremented only after a record was found in the page.
-/
import SimpleDatabase.Theory.Slots
import Mathlib.Logic.Function.Basic
import Mathlib.Order.Basic

namespace SimpleDatabase.Project5

open SimpleDatabase.Theory

set_option autoImplicit false

abbrev freepageGrowRate : Nat := 25000
abbrev headerPagenum : Nat := 0
abbrev maxLeafKey : Nat := 31
abbrev maxInternalKey : Nat := 248
abbrev valueSize : Nat := 120

abbrev Pgnum := Nat

/-- `int64_t key`. -/
abbrev Key := Int64

/-- The order on keys is the machine's. -/
instance keyOrder : LinearOrder Int64 where
  le_refl := Int64.le_refl
  le_trans _ _ _ := Int64.le_trans
  le_antisymm _ _ := Int64.le_antisymm
  le_total := Int64.le_total
  lt_iff_le_not_ge a b := by
    rw [Int64.lt_iff_toInt_lt, Int64.le_iff_toInt_le, Int64.le_iff_toInt_le]
    omega
  toDecidableLE := inferInstance
  toDecidableEq := inferInstance
  toDecidableLT := inferInstance

def maxKeyValue : Key := 9223372036854775807

theorem le_maxKeyValue (k : Key) : k ≤ maxKeyValue := Int64.le_maxValue k

instance decidableMem (k : Key) (ks : List Key) : Decidable (k ∈ ks) :=
  List.instDecidableMemOfLawfulBEq k ks

/-- What `char value[VALUE_SIZE]` holds: a C string that fits it. -/
structure Value where
  chars : List UInt8
  nulFree : 0 ∉ chars
  fits : chars.length < valueSize
  deriving DecidableEq

instance : Inhabited Value := ⟨⟨[], by simp, by decide⟩⟩

/-- An `internal_record_t`: its key and its `child_pgnum`. -/
abbrev InternalRecord := Key × Pgnum

/-- A `leaf_record_t`: its key and its value. -/
abbrev LeafRecord := Key × Value

/-- The first 128 bytes of a page: `page_header`, or `meta_data` in the header page. -/
structure Header where
  parentPgnum : Pgnum
  isLeaf : Nat
  numofkeys : Nat
  numofpages : Pgnum
  nextPgnum : Pgnum
  deriving Inhabited

/-- `page_t`. -/
structure Page extends Header where
  slotKey : Nat → Key
  slotChild : Nat → Pgnum
  slotValue : Nat → Value
  deriving Inhabited

namespace Header

/-- `p_header.left_pgnum`. -/
def leftPgnum (p : Header) : Pgnum := p.nextPgnum

/-- `m_data.freepgnum`. -/
def freepgnum (p : Header) : Pgnum := p.parentPgnum

/-- `m_data.rootpgnum`: the eight bytes of `is_leaf` and `numofkeys`. -/
def rootpgnum (p : Header) : Pgnum := p.isLeaf + 2 ^ 32 * p.numofkeys

end Header

namespace Page

/-- `internal_record[MAX_INTERNAL_KEY]`. -/
def internalRecord : Slots Page InternalRecord Header where
  cap := maxInternalKey
  get p i := (p.slotKey i, p.slotChild i)
  put p i r := { p with
    slotKey := Function.update p.slotKey i r.1
    slotChild := Function.update p.slotChild i r.2 }
  rest p := p.toHeader
  get_put p i r j := by
    by_cases h : j = i <;> simp [Function.update, h]
  rest_put _ _ _ := rfl

/-- `leaf_record[MAX_LEAF_KEY]`. -/
def leafRecord : Slots Page LeafRecord Header where
  cap := maxLeafKey
  get p i := (p.slotKey (8 * i), p.slotValue i)
  put p i r := { p with
    slotKey := Function.update p.slotKey (8 * i) r.1
    slotValue := Function.update p.slotValue i r.2 }
  rest p := p.toHeader
  get_put p i r j := by
    by_cases h : j = i <;> simp [Function.update, h]
  rest_put _ _ _ := rfl

/-- The page's internal records. -/
def internalRecords (p : Page) : List InternalRecord := internalRecord.view p p.numofkeys

/-- The page's leaf records. -/
def leafRecords (p : Page) : List LeafRecord := leafRecord.view p p.numofkeys

@[simp] theorem internalRecords_length (p : Page) : p.internalRecords.length = p.numofkeys := by
  simp [internalRecords]

@[simp] theorem leafRecords_length (p : Page) : p.leafRecords.length = p.numofkeys := by
  simp [leafRecords]

@[simp] theorem internalRecord_cap : internalRecord.cap = 248 := rfl

@[simp] theorem leafRecord_cap : leafRecord.cap = 31 := rfl

/-- The first keys of the two record arrays are the same eight bytes. -/
theorem first_key (p : Page) : (leafRecord.get p 0).1 = (internalRecord.get p 0).1 := rfl

end Page

/-- `calloc`'d scratch records, one more than a full page has. -/
def tempRecord (α : Type) (max : Nat) : Slots (Nat → α) α Unit where
  cap := max + 1
  get a i := a i
  put a i r := Function.update a i r
  rest _ := ()
  get_put a i r j := by
    by_cases h : j = i <;> simp [Function.update, h]
  rest_put _ _ _ := rfl

/-- A table file: its pages by number. -/
abbrev Table := Pgnum → Page

end SimpleDatabase.Project5
