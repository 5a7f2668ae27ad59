/- Theory.Capacity -- how many records a tree of a given height holds

A page with `lo` keys at least has one child more than keys, so the records of a tree
grow with its height as `lo` says (`Fill.stock_le`).  Read the other way round this bounds
the height of a tree with so many records (`height_le_log`), and with it the length of
every search.

The same goes for the pages: where each inner page has many children, there are few inner pages
beside the leaves (`FillBelow.pages_le`), and no more leaves than the records fill.
-/
import SimpleDatabase.Theory.PageTree
import Mathlib.Data.Nat.Log
import Mathlib.Algebra.Order.BigOperators.Group.List
import Mathlib.Algebra.Order.Ring.Nat
import Mathlib.Algebra.Group.Nat.Defs
import Mathlib.Algebra.Group.Action.Defs

namespace SimpleDatabase.Theory

set_option autoImplicit false

/-- The records under a page of height `h`, if a page of height `i` has `b i` keys. -/
def stock (b : Nat → Nat) : Nat → Nat
  | 0 => b 0
  | h + 1 => (b (h + 1) + 1) * stock b h

/-- Where all inner pages have `m` keys, the records grow by `m + 1` a level. -/
theorem stock_eq {b : Nat → Nat} {m : Nat} (inner : ∀ h, b (h + 1) = m) (h : Nat) :
    stock b h = b 0 * (m + 1) ^ h := by
  induction h with
  | zero => simp [stock]
  | succ h ih =>
      rw [stock, inner, ih, Nat.pow_succ]
      ac_rfl

namespace PageTree

variable {K V : Type} {lo hi : Nat → Nat} {h : Nat}

theorem le_length_flatMap {α β : Type} {f : α → List β} {n : Nat} {l : List α}
    (each : ∀ a ∈ l, n ≤ (f a).length) : l.length * n ≤ (l.flatMap f).length := by
  have bound := List.card_nsmul_le_sum (l.map fun a => (f a).length) n (by simpa using each)
  rwa [List.length_map, smul_eq_mul, ← List.length_flatMap] at bound

theorem children_length (s : PageTree K V (h + 1)) : s.root.children.length = s.size + 1 := by
  simp [Node.children, size, Node.size]

/-- A tree whose pages are filled from `lo` up holds that many records at least. -/
theorem Fill.stock_le {s : PageTree K V h} (fill : Fill lo hi s) : stock lo h ≤ s.records.length := by
  induction h with
  | zero =>
      rw [records_zero]
      exact fill.1
  | succ h ih =>
      have below := le_length_flatMap fun c child => ih (fill.2 c child)
      rw [children_length] at below
      rw [records_succ, stock]
      exact (Nat.mul_le_mul_right _ (Nat.succ_le_succ fill.1.1)).trans below

/-- A root above the leaves has two children at least. -/
theorem FillBelow.stock_le {s : PageTree K V (h + 1)} (below : FillBelow lo hi s)
    (root : 1 ≤ s.size) : 2 * stock lo h ≤ s.records.length := by
  have each := le_length_flatMap fun c child => Fill.stock_le (below c child)
  rw [children_length] at each
  rw [records_succ]
  exact (Nat.mul_le_mul_right _ (Nat.succ_le_succ root)).trans each

/-- **The height is logarithmic in the number of records**, whatever the root holds. -/
theorem height_le_log {m : Nat} (inner : ∀ h, lo (h + 1) = m) (leaf : 1 ≤ lo 0) (wide : 1 ≤ m)
    {s : PageTree K V h} (below : FillBelow lo hi s) (root : 1 ≤ s.size) :
    h ≤ Nat.log (m + 1) (s.records.length / (2 * lo 0)) + 1 := by
  cases h with
  | zero => exact Nat.zero_le _
  | succ h =>
      have least := below.stock_le root
      rw [stock_eq inner, ← Nat.mul_assoc] at least
      have quotient : (m + 1) ^ h ≤ s.records.length / (2 * lo 0) :=
        (Nat.le_div_iff_mul_le (by omega)).mpr (by rw [Nat.mul_comm]; exact least)
      exact Nat.succ_le_succ (Nat.le_log_of_pow_le (by omega) quotient)

/-! ## How many pages there are -/

/-- What bounds each part bounds the whole. -/
theorem length_flatMap_add_le {α β γ : Type} {f : α → List β} {g : α → List γ} {a b : Nat} {l : List α}
    (each : ∀ x ∈ l, a * (f x).length + 1 ≤ b * (g x).length) :
    a * (l.flatMap f).length + l.length ≤ b * (l.flatMap g).length := by
  induction l with
  | nil => simp
  | cons x l ih =>
      have here := each x List.mem_cons_self
      have rest := ih fun y later => each y (List.mem_cons_of_mem x later)
      rw [List.flatMap_cons, List.flatMap_cons, List.length_append, List.length_append, List.length_cons,
        Nat.mul_add, Nat.mul_add]
      omega

/-- Inner pages are fewer than leaves, the fewer the more children they have. -/
theorem Fill.pages_le {m : Nat} (inner : ∀ h, lo (h + 1) = m) {s : PageTree K V h} (fill : Fill lo hi s) :
    m * s.pages.length + 1 ≤ (m + 1) * s.leaves.length := by
  induction h with
  | zero => exact Nat.le_of_eq rfl
  | succ h ih =>
      have below := length_flatMap_add_le (f := pages) (g := leaves) fun c child => ih (fill.2 c child)
      have width : m ≤ s.size := inner h ▸ fill.1.1
      rw [children_length] at below
      rw [pages_succ, leaves_succ, List.length_cons, Nat.mul_succ]
      omega

theorem FillBelow.pages_le {m : Nat} (inner : ∀ h, lo (h + 1) = m) {s : PageTree K V (h + 1)}
    (below : FillBelow lo hi s) (root : 1 ≤ s.size) :
    m * s.pages.length + 2 ≤ (m + 1) * s.leaves.length + m := by
  have below := length_flatMap_add_le (f := pages) (g := leaves) fun c child => Fill.pages_le inner (below c child)
  rw [children_length] at below
  rw [pages_succ, leaves_succ, List.length_cons, Nat.mul_succ]
  omega

theorem FillBelow.leaves_le {s : PageTree K V (h + 1)} (below : FillBelow lo hi s) :
    s.leaves.length * lo 0 ≤ s.records.length := by
  refine le_length_flatMap fun l member => ?_
  obtain ⟨c, child, inside⟩ := List.mem_flatMap.mp member
  exact ((below c child).leaf l inside).1

end PageTree

end SimpleDatabase.Theory
