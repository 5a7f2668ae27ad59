/- Theory.Growth -- insertion into a B+ tree

`grow` puts a record into the leaf a search for its key ends in.  A page that comes
to hold one key more than it has room for is cut in two, its right half goes to a
new page, and a separator goes up into the node above, which may overflow in turn.
What becomes of a tree is `Grown`: one tree, or two with a separator between them.

The separator that goes up is not the one the cut found but `carry` of it: the type
that carries it may be narrower than the keys.  Nothing about the pages depends on
`carry` -- not how full they are (`grow_fill`), not the records (`grow_records`),
not that each leaf is sorted (`grow_leavesSorted`).  Search order does: it is kept
if every separator carried up still separates what the one found separates
(`grow_within`).  `posted` keeps a record of these.
-/
import SimpleDatabase.Theory.SearchOrder
import SimpleDatabase.Theory.FreeList
import Mathlib.Data.List.InsertIdx

namespace SimpleDatabase.Theory

set_option autoImplicit false
set_option linter.unusedSectionVars false

/-- A separator that goes up, with the keys of the two halves it came from. -/
structure Posting (K : Type) where
  below : List K
  sep : K
  above : List K

/-- The separator `k` tells the two halves apart. -/
def Posting.SeparatedBy {K : Type} [LinearOrder K] (p : Posting K) (k : K) : Prop :=
  (∀ x ∈ p.below, x < k) ∧ ∀ x ∈ p.above, k ≤ x

instance {K : Type} [LinearOrder K] (p : Posting K) (k : K) : Decidable (p.SeparatedBy k) :=
  inferInstanceAs (Decidable ((∀ x ∈ p.below, x < k) ∧ ∀ x ∈ p.above, k ≤ x))

/-- What a tree has become: one tree, or two and the separator between them. -/
inductive Grown (K V : Type) (h : Nat) where
  | one (s : PageTree K V h)
  | two (l : PageTree K V h) (sep : K) (r : PageTree K V h)

/-- One or two trees, as the node they could be under. -/
def Grown.node {K V : Type} {h : Nat} : Grown K V h → Node K (PageTree K V h)
  | .one s => ⟨s, []⟩
  | .two l sep r => ⟨l, [(sep, r)]⟩

theorem Grown.size_le {K V : Type} {h : Nat} (g : Grown K V h) : g.node.size ≤ 1 := by
  cases g <;> simp [node, Node.size]

/-- The trees, the books after the new pages were taken, and the separators that went up. -/
structure Growth (K V : Type) (h : Nat) where
  grown : Grown K V h
  alloc : Alloc
  posted : List (Posting K)

namespace PageTree

variable {K V : Type} {h : Nat}

/-- A leaf with a new record before the first one that is not below it. -/
def insertRecord [LinearOrder K] (k : K) (v : V) (s : PageTree K V 0) : PageTree K V 0 :=
  leaf s.pg (s.recs.insertIdx (s.recs.findIdx fun r => ¬ r.1 < k) (k, v))

section Grow

variable [LinearOrder K] [Inhabited K] (cap : Nat → Nat) (block : Nat) (carry : K → K)

/-- Cut a tree in two if its root holds more than it has room for. -/
def overflow (s : PageTree K V h) (a : Alloc) (posted : List (Posting K)) : Growth K V h :=
  if s.size ≤ cap h then ⟨.one s, a, posted⟩
  else
    let new := a.take block
    let halves := s.cut (cap h / 2) new.1
    ⟨.two halves.1 (carry halves.2.1) halves.2.2, new.2,
      posted ++ [⟨halves.1.keys, halves.2.1, halves.2.2.keys⟩]⟩

/-- Insert a record; new pages are handed out from the leaf upwards. -/
def grow (k : K) (v : V) : {h : Nat} → PageTree K V h → Alloc → Growth K V h
  | 0, s, a => overflow cap block carry (insertRecord k v s) a []
  | _ + 1, s, a =>
      let f := s.root.focus k
      let below := grow k v f.2.1 a
      match below.grown with
      | .one c => ⟨.one (branch s.pg (Node.plug f.1 c f.2.2)), below.alloc, below.posted⟩
      | .two l sep r =>
          overflow cap block carry (branch s.pg (Node.plug f.1 l ((sep, r) :: f.2.2))) below.alloc
            below.posted

variable {cap block carry}

/-! ## Cutting an overfull page -/

theorem overflow_one {s : PageTree K V h} (fits : s.size ≤ cap h) (a : Alloc)
    (posted : List (Posting K)) : overflow cap block carry s a posted = ⟨.one s, a, posted⟩ := by
  simp [overflow, fits]

variable (block carry) in
/-- An overfull tree is the join of the two it becomes. -/
theorem overflow_two {s : PageTree K V h} (full : cap h < s.size) (a : Alloc)
    (posted : List (Posting K)) :
    ∃ l m r, s = join l m r ∧ l.pg = s.pg ∧ r.pg = (a.take block).1 ∧ l.size = cap h / 2 ∧
      (h = 0 → m ∈ r.keys.head?) ∧
      overflow cap block carry s a posted =
        ⟨.two l (carry m) r, (a.take block).2, posted ++ [⟨l.keys, m, r.keys⟩]⟩ := by
  obtain ⟨l, m, r, cut, joined, left, right, width, first⟩ :=
    cut_spec (s := s) (i := cap h / 2) (a.take block).1 (by omega)
  refine ⟨l, m, r, joined, left, right, width, first, ?_⟩
  simp only [overflow, if_neg (not_le.mpr full), cut]

/-- What overflows keeps its page. -/
theorem overflow_pg (s : PageTree K V h) (a : Alloc) (posted : List (Posting K)) :
    (overflow cap block carry s a posted).grown.node.left.pg = s.pg := by
  by_cases fits : s.size ≤ cap h
  · rw [overflow_one fits]
    rfl
  · obtain ⟨l, m, r, -, left, -, -, -, run⟩ := overflow_two block carry (not_le.mp fits) a posted
    rw [run]
    exact left

theorem overflow_firstLeaf (s : PageTree K V h) (a : Alloc) (posted : List (Posting K)) :
    (overflow cap block carry s a posted).grown.node.left.firstLeaf = s.firstLeaf := by
  by_cases fits : s.size ≤ cap h
  · rw [overflow_one fits]
    rfl
  · obtain ⟨l, m, r, joined, -, -, -, -, run⟩ := overflow_two block carry (not_le.mp fits) a posted
    rw [run, joined, firstLeaf_join]
    rfl

theorem overflow_records (s : PageTree K V h) (a : Alloc) (posted : List (Posting K)) :
    (overflow cap block carry s a posted).grown.node.children.flatMap records = s.records := by
  by_cases fits : s.size ≤ cap h
  · rw [overflow_one fits]
    simp [Grown.node]
  · obtain ⟨l, m, r, joined, -, -, -, -, run⟩ := overflow_two block carry (not_le.mp fits) a posted
    rw [run, joined, records_join]
    simp [Grown.node]

/-- The halves of an overfull page are at least half full. -/
theorem overflow_fill {lo : Nat → Nat} {s : PageTree K V h} (below : FillBelow lo cap s)
    (room : 2 ≤ cap h) (size : s.size ≤ cap h + 1) (a : Alloc) (posted : List (Posting K)) :
    ∀ c ∈ (overflow cap block carry s a posted).grown.node.children,
      FillBelow lo cap c ∧ min s.size (cap h / 2) ≤ c.size ∧ c.size ≤ cap h := by
  by_cases fits : s.size ≤ cap h
  · rw [overflow_one fits]
    intro c member
    obtain rfl : c = s := by simpa [Grown.node] using member
    exact ⟨below, Nat.min_le_left _ _, fits⟩
  · obtain ⟨l, m, r, joined, -, -, width, -, run⟩ := overflow_two block carry (not_le.mp fits) a posted
    rw [joined, fillBelow_join] at below
    have total := size_join l m r
    rw [← joined] at total
    have rest : cap h / 2 ≤ r.size ∧ r.size ≤ cap h := by
      split at total <;> omega
    rw [run]
    intro c member
    have either : c = l ∨ c = r := by simpa [Grown.node] using member
    rcases either with rfl | rfl
    · exact ⟨below.1, by omega, by omega⟩
    · exact ⟨below.2, by omega, rest.2⟩

theorem overflow_leavesSorted {s : PageTree K V h} (sorted : LeavesSorted s) (a : Alloc)
    (posted : List (Posting K)) :
    ∀ c ∈ (overflow cap block carry s a posted).grown.node.children, LeavesSorted c := by
  by_cases fits : s.size ≤ cap h
  · rw [overflow_one fits]
    intro c member
    obtain rfl : c = s := by simpa [Grown.node] using member
    exact sorted
  · obtain ⟨l, m, r, joined, -, -, -, -, run⟩ := overflow_two block carry (not_le.mp fits) a posted
    have halves := LeavesSorted.of_join (joined ▸ sorted)
    rw [run]
    intro c member
    have either : c = l ∨ c = r := by simpa [Grown.node] using member
    rcases either with rfl | rfl
    · exact halves.1
    · exact halves.2

/-- The separator that goes up separates if the one the cut found does. -/
def Survives (carry : K → K) (p : Posting K) : Prop :=
  p.SeparatedBy p.sep → p.SeparatedBy (carry p.sep)

theorem overflow_full (s : PageTree K V h) (a : Alloc) (posted : List (Posting K))
    (two : (overflow cap block carry s a posted).grown.node.size ≠ 0) : cap h < s.size := by
  by_contra fits
  rw [overflow_one (not_lt.mp fits)] at two
  exact two rfl

theorem overflow_posted (s : PageTree K V h) (a : Alloc) (posted : List (Posting K)) :
    posted ⊆ (overflow cap block carry s a posted).posted := by
  rw [overflow]
  split
  · exact List.Subset.refl _
  · exact List.subset_append_left _ _

/-- An overfull tree in order becomes two in order, around the separator that goes up. -/
theorem overflow_within {s : PageTree K V h} {lo : WithBot K} {hi : WithTop K}
    (within : Within lo hi s) (sorted : LeavesSorted s) (a : Alloc) (posted : List (Posting K))
    (stocked : ∀ c ∈ (overflow cap block carry s a posted).grown.node.children, Stocked c)
    (survive : ∀ p ∈ (overflow cap block carry s a posted).posted, Survives carry p) :
    Node.Fenced Within lo (overflow cap block carry s a posted).grown.node.left
      (overflow cap block carry s a posted).grown.node.recs hi := by
  by_cases fits : s.size ≤ cap h
  · rw [overflow_one fits]
    exact within
  · obtain ⟨l, m, r, joined, -, -, -, first, run⟩ := overflow_two block carry (not_le.mp fits) a posted
    rw [run] at stocked survive ⊢
    have stockedLeft : Stocked l := stocked l (by simp [Grown.node])
    have stockedRight : Stocked r := stocked r (by simp [Grown.node])
    obtain ⟨left, right⟩ := Within.of_join (joined ▸ within) (joined ▸ sorted) first
    have leftKeys := left.keys stockedLeft
    have rightKeys := right.keys stockedRight
    have separates : Posting.SeparatedBy ⟨l.keys, m, r.keys⟩ (carry m) := by
      refine survive ⟨l.keys, m, r.keys⟩ (by simp) ⟨fun x member => ?_, fun x member => ?_⟩
      · exact WithTop.coe_lt_coe.mp (leftKeys x member).2
      · exact WithBot.coe_le_coe.mp (rightKeys x member).1
    refine ⟨left.rebound stockedLeft fun x member => ⟨(leftKeys x member).1, ?_⟩,
      right.rebound stockedRight fun x member => ⟨?_, (rightKeys x member).2⟩⟩
    · exact WithTop.coe_lt_coe.mpr (separates.1 x member)
    · exact WithBot.coe_le_coe.mpr (separates.2 x member)

/-! ## Inserting a record -/

section Leaf

variable {k : K} {v : V}

theorem insertRecord_size (s : PageTree K V 0) : (insertRecord k v s).size = s.size + 1 :=
  List.length_insertIdx_of_le_length List.findIdx_le_length (k, v)

theorem insertRecord_records (s : PageTree K V 0) :
    (insertRecord k v s).records.Perm ((k, v) :: s.records) := by
  rw [records_zero, records_zero]
  exact List.perm_insertIdx _ _ List.findIdx_le_length

theorem mem_insertRecord_keys (s : PageTree K V 0) (x : K) :
    x ∈ (insertRecord k v s).keys ↔ x = k ∨ x ∈ s.keys := by
  rw [keys, ((insertRecord_records s).map Prod.fst).mem_iff]
  simp [keys]

/-- A key put before the first that is not below it lands between the lower ones and
the higher ones. -/
theorem insertRecord_leavesSorted {s : PageTree K V 0} (sorted : LeavesSorted s)
    (new : k ∉ s.keys) : LeavesSorted (insertRecord k v s) := by
  intro l member
  rw [leaves_zero, List.mem_singleton] at member
  subst member
  have increasing := sorted s (by simp [leaves_zero])
  simp only [insertRecord, keys, records_zero, recs_leaf] at new increasing ⊢
  generalize s.recs = recs at new increasing
  induction recs with
  | nil => simp
  | cons r recs ih =>
      obtain ⟨above, increasing⟩ := List.pairwise_cons.mp increasing
      have other : k ≠ r.1 := fun same => new (by simp [same])
      have rest : k ∉ recs.map Prod.fst := fun member => new (List.mem_cons_of_mem _ member)
      by_cases passed : r.1 < k
      · rw [List.findIdx_cons]
        simp only [passed, not_true_eq_false, decide_false, cond_false, List.insertIdx_succ_cons,
          List.map_cons]
        refine List.pairwise_cons.mpr ⟨fun x member => ?_, ih rest increasing⟩
        obtain ⟨e, inside, rfl⟩ := List.mem_map.mp member
        rcases List.mem_insertIdx List.findIdx_le_length |>.mp inside with rfl | old
        · exact passed
        · exact above _ (List.mem_map_of_mem old)
      · have before : k < r.1 := lt_of_le_of_ne (not_lt.mp passed) other
        rw [List.findIdx_cons]
        simp only [passed, not_false_eq_true, decide_true, cond_true, List.insertIdx_zero,
          List.map_cons]
        refine List.pairwise_cons.mpr ⟨fun x member => ?_, List.pairwise_cons.mpr ⟨above, increasing⟩⟩
        rcases List.mem_cons.mp member with rfl | later
        · exact before
        · exact before.trans (above x later)

end Leaf

/-! ## Inserting into a tree -/

variable {k : K} {v : V}

/-- Where the root is not overfull, inserting below it and then cutting it is all
there is to do. -/
theorem grow_succ {s : PageTree K V (h + 1)} (fits : s.size ≤ cap (h + 1)) (a : Alloc) :
    grow cap block carry k v s a =
      overflow cap block carry (branch s.pg (Node.splice (s.root.focus k).1
        (grow cap block carry k v (s.root.focus k).2.1 a).grown.node (s.root.focus k).2.2))
        (grow cap block carry k v (s.root.focus k).2.1 a).alloc
        (grow cap block carry k v (s.root.focus k).2.1 a).posted := by
  rw [grow]
  cases (grow cap block carry k v (s.root.focus k).2.1 a).grown with
  | one c =>
      refine (overflow_one ?_ _ _).symm
      have size := size_splice_focus k s ⟨c, []⟩
      rw [Node.splice_single] at size
      rw [size]
      exact fits
  | two l sep r => rfl

/-- Insertion keeps the root's page. -/
theorem grow_pg (s : PageTree K V h) (a : Alloc) :
    (grow cap block carry k v s a).grown.node.left.pg = s.pg := by
  cases h with
  | zero => exact overflow_pg _ _ _
  | succ h =>
      rw [grow]
      cases (grow cap block carry k v (s.root.focus k).2.1 a).grown with
      | one c => rfl
      | two l sep r => exact overflow_pg _ _ _

theorem grow_firstLeaf (s : PageTree K V h) (a : Alloc) :
    (grow cap block carry k v s a).grown.node.left.firstLeaf = s.firstLeaf := by
  induction h generalizing a with
  | zero => exact overflow_firstLeaf _ _ _
  | succ h ih =>
      have first := ih (s.root.focus k).2.1 a
      have whole := branch_focus k s
      rw [grow]
      cases grown : (grow cap block carry k v (s.root.focus k).2.1 a).grown with
      | one c =>
          rw [grown] at first
          exact (firstLeaf_splice s.pg _ _ _ _ first).trans (congrArg firstLeaf whole)
      | two l sep r =>
          rw [grown] at first
          rw [overflow_firstLeaf]
          exact (firstLeaf_splice s.pg _ _ _ _ first).trans (congrArg firstLeaf whole)

variable (block carry k v) in
/-- **Insertion adds the record, and no other record comes or goes.** -/
theorem grow_records {s : PageTree K V h} (fits : Fill (fun _ => 0) cap s) (a : Alloc) :
    ((grow cap block carry k v s a).grown.node.children.flatMap records).Perm
      ((k, v) :: s.records) := by
  induction h generalizing a with
  | zero =>
      rw [grow, overflow_records]
      exact insertRecord_records s
  | succ h ih =>
      have below := ih (fits.2 _ (s.root.focus_mem k)) a
      have whole := congrArg records (branch_focus k s)
      rw [grow_succ fits.root.2, overflow_records, records_succ, root_branch, flatMap_splice]
      rw [← whole, records_succ, root_branch, flatMap_splice]
      refine (List.Perm.append_left _ (below.append_right _)).trans ?_
      simp

variable (block carry k v) in
/-- Only a full tree becomes two. -/
theorem grow_full {s : PageTree K V h} (fits : Fill (fun _ => 0) cap s) (a : Alloc)
    (two : (grow cap block carry k v s a).grown.node.size ≠ 0) : cap h ≤ s.size := by
  cases h with
  | zero =>
      have excess := overflow_full _ _ _ two
      rw [insertRecord_size] at excess
      omega
  | succ h =>
      rw [grow_succ fits.root.2] at two
      have excess := overflow_full _ _ _ two
      have gained := ((grow cap block carry k v (s.root.focus k).2.1 a).grown).size_le
      have size := size_splice_focus k s (grow cap block carry k v (s.root.focus k).2.1 a).grown.node
      omega

variable (block carry k v) in
/-- **How full the pages are is kept**, whatever separators went up: the pages below
the root between `lo` and `cap`, and a root that was cut is at least half full. -/
theorem grow_fill {lo : Nat → Nat} (half : ∀ h, lo h ≤ cap h / 2) (room : ∀ h, 2 ≤ cap h)
    {s : PageTree K V h} (below : FillBelow lo cap s) (fits : s.size ≤ cap h) (a : Alloc) :
    ∀ c ∈ (grow cap block carry k v s a).grown.node.children,
      FillBelow lo cap c ∧ min s.size (cap h / 2) ≤ c.size ∧ c.size ≤ cap h := by
  induction h generalizing a with
  | zero =>
      intro c member
      have size := insertRecord_size (k := k) (v := v) s
      have leaf : FillBelow lo cap (insertRecord k v s) := trivial
      obtain ⟨inner, low, high⟩ := overflow_fill leaf (room 0) (by omega) a [] c member
      exact ⟨inner, by omega, high⟩
  | succ h ih =>
      have child := s.root.focus_mem k
      have inner := ih (below _ child).below (below _ child).root.2 a
      obtain ⟨g, hg⟩ : ∃ g, g = grow cap block carry k v (s.root.focus k).2.1 a := ⟨_, rfl⟩
      have two := g.grown.size_le
      rw [grow_succ fits]
      rw [← hg] at inner ⊢
      -- the root gains at most one key
      have size := size_splice_focus k s g.grown.node
      have around := below
      rw [← branch_focus k s, fillBelow_splice] at around
      have filled : FillBelow lo cap (branch s.pg (Node.splice (s.root.focus k).1 g.grown.node
          (s.root.focus k).2.2)) := by
        rw [fillBelow_splice]
        refine ⟨around.1, fun c member => ?_, around.2.2⟩
        obtain ⟨inside, low, high⟩ := inner c member
        have first := (below _ child).root.1
        exact Fill.of_root inside (by have := half h; omega) high
      intro c member
      obtain ⟨inside, low, high⟩ := overflow_fill filled (room (h + 1)) (by omega) g.alloc g.posted
        c member
      exact ⟨inside, by omega, high⟩

variable (block carry v) in
/-- **Each leaf stays sorted**, whatever separators went up. -/
theorem grow_leavesSorted {s : PageTree K V h} (fits : Fill (fun _ => 0) cap s)
    (sorted : LeavesSorted s) (new : k ∉ (s.leafFor k).keys) (a : Alloc) :
    ∀ c ∈ (grow cap block carry k v s a).grown.node.children, LeavesSorted c := by
  induction h generalizing a with
  | zero => exact overflow_leavesSorted (insertRecord_leavesSorted sorted new) a []
  | succ h ih =>
      have child := s.root.focus_mem k
      have below := ih (fits.2 _ child) (sorted.child child) new a
      rw [grow_succ fits.root.2]
      have around := sorted
      rw [← branch_focus k s, leavesSorted_splice] at around
      refine overflow_leavesSorted ?_ _ _
      rw [leavesSorted_splice]
      exact ⟨around.1, below, around.2.2⟩

/-! ## Search order -/

/-- A filled tree holds a record in every leaf. -/
theorem stocked_of_fill {lo hi : Nat → Nat} {s : PageTree K V h} (below : FillBelow lo hi s)
    (pos : 1 ≤ lo 0) (root : 1 ≤ s.size) : Stocked s := by
  cases h with
  | zero =>
      intro l member
      rw [leaves_zero, List.mem_singleton] at member
      exact member ▸ List.ne_nil_of_length_pos root
  | succ h =>
      intro l member
      obtain ⟨c, child, inside⟩ := List.mem_flatMap.mp member
      exact (below c child).stocked pos l inside

variable (block carry v) in
/-- **Insertion keeps search order**, provided every separator carried up separates
what the one it was made from separates. -/
theorem grow_within {lo : Nat → Nat} (half : ∀ h, lo h ≤ cap h / 2) (room : ∀ h, 2 ≤ cap h)
    (pos : ∀ h, 1 ≤ lo h) {s : PageTree K V h} {a : Alloc} {low : WithBot K} {high : WithTop K}
    (within : Within low high s) (below : FillBelow lo cap s) (root : 1 ≤ s.size)
    (fits : s.size ≤ cap h) (sorted : LeavesSorted s) (new : k ∉ (s.leafFor k).keys)
    (between : Between low high k)
    (survive : ∀ p ∈ (grow cap block carry k v s a).posted, Survives carry p) :
    Node.Fenced Within low (grow cap block carry k v s a).grown.node.left
      (grow cap block carry k v s a).grown.node.recs high := by
  have stocked : ∀ c ∈ (grow cap block carry k v s a).grown.node.children, Stocked c := by
    intro c member
    obtain ⟨inside, least, -⟩ := grow_fill block carry k v half room below fits a c member
    have := room h
    exact stocked_of_fill inside (pos 0) (by omega)
  induction h generalizing a low high with
  | zero =>
      have inserted : Within low high (insertRecord k v s) := by
        intro x member
        rcases (mem_insertRecord_keys s x).mp member with rfl | old
        · exact between
        · exact within x old
      exact overflow_within inserted (insertRecord_leavesSorted sorted new) a [] stocked survive
  | succ h ih =>
      have child := s.root.focus_mem k
      have fill := below _ child
      have held := (pos h).trans fill.root.1
      have inner : ∀ c ∈ (grow cap block carry k v (s.root.focus k).2.1 a).grown.node.children,
          Stocked c := by
        intro c member
        obtain ⟨inside, least, -⟩ := grow_fill block carry k v half room fill.below fill.root.2 a c member
        have := room h
        exact stocked_of_fill inside (pos 0) (by omega)
      have fits' : Fill (fun _ => 0) cap (s.root.focus k).2.1 := fill.mono fun _ => Nat.zero_le _
      have leaves := grow_leavesSorted block carry v fits' (sorted.child child) new a
      rw [grow_succ fits] at stocked survive ⊢
      -- the interval of the child, which what it becomes keeps
      have around := within
      rw [← branch_focus k s] at around
      obtain ⟨x, y, before, here, after⟩ := (Node.fenced_splice _ _ _).mp around
      have keyBetween : Between x y k :=
        ⟨before.bound between.1 (s.root.focus_before k), after.bound between.2 (s.root.focus_after k)⟩
      have grown := ih here fill.below held fill.root.2 (sorted.child child) new keyBetween
        (fun p member => survive p (overflow_posted _ _ _ member)) inner
      have spliced : Within low high (branch s.pg (Node.splice (s.root.focus k).1
          (grow cap block carry k v (s.root.focus k).2.1 a).grown.node (s.root.focus k).2.2)) :=
        (Node.fenced_splice _ _ _).mpr ⟨x, y, before, grown, after⟩
      have ordered := sorted
      rw [← branch_focus k s, leavesSorted_splice] at ordered
      refine overflow_within spliced ?_ _ _ stocked survive
      rw [leavesSorted_splice]
      exact ⟨ordered.1, leaves, ordered.2.2⟩

end Grow

end PageTree

end SimpleDatabase.Theory
