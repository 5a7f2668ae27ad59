/- Theory.Shrink -- deletion from a B+ tree

`shrink` takes a record out of the leaf a search for its key ends in.  A page below
the root that is left with no more than `few` keys is settled with a neighbour under
the same parent, the one on its right or, for the last child, the one on its left:
if the two together have fewer keys than `capacity`, they become one page and the
parent loses a key; otherwise they divide their keys anew.

A tree whose root lost a key is `lost`: its parent has yet to look at it.  A tree
whose root has as many keys as before is `kept`, and nothing above it changes.
`underflows` lists the pages that were settled.
-/
import SimpleDatabase.Theory.Growth

namespace SimpleDatabase.Theory

set_option autoImplicit false
set_option linter.unusedSectionVars false

/-- A page with too few keys, when it was settled: its height and number of keys, the
neighbour's number of keys, and whether the page is its parent's last child. -/
structure Underflow where
  height : Nat
  keys : Nat
  neighbor : Nat
  last : Bool
  deriving DecidableEq

/-- What is left of a tree: its root has lost a key, or it has as many as before. -/
inductive Shrunk (K V : Type) (h : Nat) where
  | lost (s : PageTree K V h)
  | kept (s : PageTree K V h)

def Shrunk.tree {K V : Type} {h : Nat} : Shrunk K V h → PageTree K V h
  | .lost s => s
  | .kept s => s

/-- How many keys the root had. -/
def Shrunk.before {K V : Type} {h : Nat} : Shrunk K V h → Nat
  | .lost s => s.size + 1
  | .kept s => s.size

theorem Shrunk.size_le {K V : Type} {h : Nat} (s : Shrunk K V h) : s.tree.size ≤ s.before := by
  cases s with
  | lost s => exact Nat.le_succ _
  | kept s => exact Nat.le_refl _

/-- The tree, the books after pages were given back, and the pages that were settled. -/
structure Shrinkage (K V : Type) (h : Nat) where
  shrunk : Shrunk K V h
  alloc : Alloc
  underflows : List Underflow

namespace PageTree

variable {K V : Type} {h : Nat}

/-- A leaf without its first record with the key. -/
def eraseRecord [DecidableEq K] (k : K) (s : PageTree K V 0) : PageTree K V 0 :=
  leaf s.pg (s.recs.eraseIdx (s.recs.findIdx fun r => r.1 = k))

section Shrink

variable [LinearOrder K] [Inhabited K] (few capacity : Nat → Nat)

/-- Make two neighbours one page, or let the left one keep `keep` of their keys. -/
def settle (pg : Nat) (pre : List (PageTree K V h × K)) (l : PageTree K V h) (sep : K)
    (r : PageTree K V h) (post : List (K × PageTree K V h)) (keep : Nat) (a : Alloc)
    (underflows : List Underflow) : Shrinkage K V (h + 1) :=
  if l.size + r.size < capacity h then
    ⟨.lost (branch pg (Node.plug pre (join l sep r) post)), a.give r.pg, underflows⟩
  else
    let halves := (join l sep r).cut keep r.pg
    ⟨.kept (branch pg (Node.plug pre halves.1 ((halves.2.1, halves.2.2) :: post))), a, underflows⟩

/-- Settle a child with the neighbour on its right, or on its left for the last one. -/
def settleChild (pg : Nat) (pre : List (PageTree K V h × K)) (c : PageTree K V h)
    (post : List (K × PageTree K V h)) (a : Alloc) (underflows : List Underflow) :
    Shrinkage K V (h + 1) :=
  match post with
  | (sep, r) :: post =>
      settle capacity pg pre c sep r post ((c.size + r.size) / 2) a
        (underflows ++ [⟨h, c.size, r.size, false⟩])
  | [] =>
      match pre.getLast? with
      | some (l, sep) =>
          settle capacity pg pre.dropLast l sep c [] (l.size + c.size - (l.size + c.size) / 2) a
            (underflows ++ [⟨h, c.size, l.size, true⟩])
      | none => ⟨.kept (branch pg (Node.plug pre c post)), a, underflows⟩

/-- Take a record out. -/
def shrink (k : K) : {h : Nat} → PageTree K V h → Alloc → Shrinkage K V h
  | 0, s, a => ⟨.lost (eraseRecord k s), a, []⟩
  | h + 1, s, a =>
      let f := s.root.focus k
      let below := shrink k f.2.1 a
      match below.shrunk with
      | .kept c => ⟨.kept (branch s.pg (Node.plug f.1 c f.2.2)), below.alloc, below.underflows⟩
      | .lost c =>
          if few h < c.size then
            ⟨.kept (branch s.pg (Node.plug f.1 c f.2.2)), below.alloc, below.underflows⟩
          else
            settleChild capacity s.pg f.1 c f.2.2 below.alloc below.underflows

variable {few capacity}

/-! ## Settling two neighbours -/

theorem settle_one (pg : Nat) (pre : List (PageTree K V h × K)) {l : PageTree K V h} (sep : K)
    {r : PageTree K V h} (post : List (K × PageTree K V h))
    (small : l.size + r.size < capacity h) (keep : Nat) (a : Alloc) (underflows : List Underflow) :
    settle capacity pg pre l sep r post keep a underflows =
      ⟨.lost (branch pg (Node.plug pre (join l sep r) post)), a.give r.pg, underflows⟩ := by
  rw [settle, if_pos small]

/-- Two neighbours that divide their keys anew are the same sequence, cut elsewhere. -/
theorem settle_two (pg : Nat) (pre : List (PageTree K V h × K)) {l : PageTree K V h} {sep : K}
    {r : PageTree K V h} (post : List (K × PageTree K V h))
    (large : capacity h ≤ l.size + r.size) {keep : Nat} (inside : keep < (join l sep r).size)
    (a : Alloc) (underflows : List Underflow) :
    ∃ l' m r', join l sep r = join l' m r' ∧ l'.pg = l.pg ∧ r'.pg = r.pg ∧ l'.size = keep ∧
      (h = 0 → m ∈ r'.keys.head?) ∧
      settle capacity pg pre l sep r post keep a underflows =
        ⟨.kept (branch pg (Node.plug pre l' ((m, r') :: post))), a, underflows⟩ := by
  obtain ⟨l', m, r', cut, joined, left, right, width, first⟩ := cut_spec r.pg inside
  refine ⟨l', m, r', joined, left.trans (join_pg _ _ _), right, width, first, ?_⟩
  simp only [settle, if_neg (not_lt.mpr large), cut]

/-- How many keys the left one of two neighbours keeps. -/
def Kept (l r : PageTree K V h) (keep : Nat) : Prop :=
  keep = (l.size + r.size) / 2 ∨ keep = l.size + r.size - (l.size + r.size) / 2

theorem Kept.inside {l r : PageTree K V h} {keep : Nat} (kept : Kept l r keep) (sep : K)
    (two : 2 ≤ l.size + r.size) : keep < (join l sep r).size := by
  rw [size_join]
  rcases kept with rfl | rfl <;> omega

/-- A child and its neighbour: the one on its right, or on its left for the last child. -/
inductive Beside {C : Type} : List (C × K) → C → List (K × C) →
    List (C × K) → C → K → C → List (K × C) → Prop
  | right (pre : List (C × K)) (c : C) (sep : K) (r : C) (post : List (K × C)) :
      Beside pre c ((sep, r) :: post) pre c sep r post
  | left (pre : List (C × K)) (l : C) (sep : K) (c : C) :
      Beside (pre ++ [(l, sep)]) c [] pre l sep c []

namespace Beside

variable {C : Type} {pre pre' : List (C × K)} {c l r : C} {sep : K} {post post' : List (K × C)}

theorem plug (beside : Beside pre c post pre' l sep r post') :
    Node.plug pre c post = Node.plug pre' l ((sep, r) :: post') := by
  cases beside with
  | right => rfl
  | left => exact (Node.plug_shift _ _ _ _ _).symm

theorem length (beside : Beside pre c post pre' l sep r post') :
    pre.length + post.length = pre'.length + post'.length + 1 := by
  cases beside with
  | right => simp; omega
  | left => simp

/-- What holds of all children but one holds of its neighbour and of the others. -/
theorem others {P : C → Prop} (beside : Beside pre c post pre' l sep r post')
    (before : ∀ e ∈ pre, P e.1) (after : ∀ e ∈ post, P e.2) :
    (∀ e ∈ pre', P e.1) ∧ (∀ e ∈ post', P e.2) ∧ (l = c ∧ P r ∨ P l ∧ r = c) := by
  cases beside with
  | right =>
      exact ⟨before, fun e member => after e (List.mem_cons_of_mem _ member),
        .inl ⟨rfl, after _ List.mem_cons_self⟩⟩
  | left =>
      exact ⟨fun e member => before e (List.mem_append_left _ member), by simp,
        .inr ⟨before _ (List.mem_append_right _ List.mem_cons_self), rfl⟩⟩

end Beside

theorem settleChild_last (pg : Nat) (pre : List (PageTree K V h × K)) (l : PageTree K V h) (sep : K)
    (c : PageTree K V h) (a : Alloc) (underflows : List Underflow) :
    settleChild capacity pg (pre ++ [(l, sep)]) c [] a underflows =
      settle capacity pg pre l sep c [] (l.size + c.size - (l.size + c.size) / 2) a
        (underflows ++ [⟨h, c.size, l.size, true⟩]) := by
  simp [settleChild]

/-- **What `settleChild` does** is settle the child with its neighbour. -/
theorem settleChild_induction {pg : Nat} {pre : List (PageTree K V h × K)} {c : PageTree K V h}
    {post : List (K × PageTree K V h)} (siblings : 1 ≤ pre.length + post.length) (a : Alloc)
    (underflows : List Underflow) {motive : Shrinkage K V (h + 1) → Prop}
    (step : ∀ pre' l sep r post' keep u, Beside pre c post pre' l sep r post' → Kept l r keep →
      motive (settle capacity pg pre' l sep r post' keep a (underflows ++ [u]))) :
    motive (settleChild capacity pg pre c post a underflows) := by
  cases post with
  | cons r post => exact step _ _ _ _ _ _ _ (.right pre c r.1 r.2 post) (.inl rfl)
  | nil =>
      rcases List.eq_nil_or_concat pre with rfl | ⟨pre', ⟨l, sep⟩, same⟩
      · simp at siblings
      · rw [List.concat_eq_append] at same
        subst same
        rw [settleChild_last]
        exact step _ _ _ _ _ _ _ (.left pre' l sep c) (.inr rfl)

section Settle

variable {pg : Nat} {pre : List (PageTree K V h × K)} {l : PageTree K V h} {sep : K}
  {r : PageTree K V h} {post : List (K × PageTree K V h)} {keep : Nat} {a : Alloc}
  {u : List Underflow}

theorem settle_pg : (settle capacity pg pre l sep r post keep a u).shrunk.tree.pg = pg := by
  rw [settle]
  split <;> rfl

variable (pg pre sep post a u) in
/-- The neighbours, as one tree or two: the rest of the node is as it was. -/
theorem settle_tree (two : 2 ≤ capacity h) (kept : Kept l r keep) :
    (l.size + r.size < capacity h ∧ settle capacity pg pre l sep r post keep a u =
      ⟨.lost (branch pg (Node.splice pre ⟨join l sep r, []⟩ post)), a.give r.pg, u⟩) ∨
    ∃ l' m r', capacity h ≤ l.size + r.size ∧ join l sep r = join l' m r' ∧ l'.size = keep ∧
      (h = 0 → m ∈ r'.keys.head?) ∧ settle capacity pg pre l sep r post keep a u =
        ⟨.kept (branch pg (Node.splice pre ⟨l', [(m, r')]⟩ post)), a, u⟩ := by
  by_cases small : l.size + r.size < capacity h
  · exact .inl ⟨small, settle_one pg pre sep post small keep a u⟩
  · have large := not_lt.mp small
    obtain ⟨l', m, r', joined, -, -, width, first, run⟩ :=
      settle_two pg pre post large (kept.inside sep (by omega)) a u
    exact .inr ⟨l', m, r', large, joined, width, first, run⟩

theorem settle_firstLeaf (two : 2 ≤ capacity h) (kept : Kept l r keep) :
    (settle capacity pg pre l sep r post keep a u).shrunk.tree.firstLeaf =
      (branch pg (Node.plug pre l ((sep, r) :: post))).firstLeaf := by
  rcases settle_tree pg pre sep post a u two kept with
    ⟨-, run⟩ | ⟨l', m, r', -, joined, -, -, run⟩
  · rw [run]
    exact firstLeaf_splice pg pre post ⟨l, [(sep, r)]⟩ ⟨join l sep r, []⟩ (firstLeaf_join l sep r)
  · have same := firstLeaf_join l sep r
    rw [joined, firstLeaf_join] at same
    rw [run]
    exact firstLeaf_splice pg pre post ⟨l, [(sep, r)]⟩ ⟨l', [(m, r')]⟩ same

theorem settle_records (two : 2 ≤ capacity h) (kept : Kept l r keep) :
    (settle capacity pg pre l sep r post keep a u).shrunk.tree.records =
      (branch pg (Node.plug pre l ((sep, r) :: post))).records := by
  have before : (branch pg (Node.plug pre l ((sep, r) :: post))).records =
      pre.flatMap (fun e => e.1.records) ++
        ((join l sep r).records ++ post.flatMap fun r => r.2.records) := by
    rw [← Node.splice_two, records_succ, root_branch, flatMap_splice, records_join]
    simp
  rw [before]
  rcases settle_tree pg pre sep post a u two kept with
    ⟨-, run⟩ | ⟨l', m, r', -, joined, -, -, run⟩
  · rw [run, Shrunk.tree, records_succ, root_branch, flatMap_splice]
    simp
  · rw [run, joined, records_join, Shrunk.tree, records_succ, root_branch, flatMap_splice]
    simp

theorem settle_size (two : 2 ≤ capacity h) (kept : Kept l r keep) :
    (settle capacity pg pre l sep r post keep a u).shrunk.before = pre.length + post.length + 1 := by
  rcases settle_tree pg pre sep post a u two kept with ⟨-, run⟩ | ⟨l', m, r', -, -, -, -, run⟩
  · rw [run]
    exact congrArg Nat.succ (Node.size_splice pre ⟨join l sep r, []⟩ post)
  · rw [run]
    refine (Node.size_splice pre ⟨l', [(m, r')]⟩ post).trans ?_
    show pre.length + 1 + post.length = _
    omega

/-- Settling leaves pages filled: one page of both is not too full, and two pages that
divided their keys have enough each. -/
theorem settle_fill {cap : Nat → Nat} (kept : Kept l r keep) (pos : 1 ≤ few h)
    (enough : few h + 1 ≤ capacity h / 2) (room : capacity h ≤ cap h)
    (before : ∀ e ∈ pre, Fill (fun h => few h + 1) cap e.1)
    (left : FillBelow (fun h => few h + 1) cap l) (right : FillBelow (fun h => few h + 1) cap r)
    (after : ∀ e ∈ post, Fill (fun h => few h + 1) cap e.2)
    (one : few h + 1 ≤ l.size ∨ few h + 1 ≤ r.size) (fits : l.size ≤ cap h ∧ r.size ≤ cap h) :
    FillBelow (fun h => few h + 1) cap
      (settle capacity pg pre l sep r post keep a u).shrunk.tree := by
  have total := size_join l sep r
  have below := (fillBelow_join _ _ l sep r).mpr ⟨left, right⟩
  have two : 2 ≤ capacity h := by omega
  rcases settle_tree pg pre sep post a u two kept with
    ⟨small, run⟩ | ⟨l', m, r', large, joined, width, -, run⟩
  · rw [run, Shrunk.tree, fillBelow_splice]
    refine ⟨before, fun c member => ?_, after⟩
    obtain rfl : c = join l sep r := by simpa using member
    exact Fill.of_root below (by split at total <;> omega) (by split at total <;> omega)
  · have parts := size_join l' m r'
    rw [joined] at total below
    rw [fillBelow_join] at below
    rw [run, Shrunk.tree, fillBelow_splice]
    refine ⟨before, fun c member => ?_, after⟩
    have either : c = l' ∨ c = r' := by simpa using member
    have same : l'.size + r'.size = l.size + r.size := by omega
    have halves : capacity h / 2 ≤ l'.size ∧ capacity h / 2 ≤ r'.size ∧ l'.size ≤ cap h ∧
        r'.size ≤ cap h := by
      rcases kept with rfl | rfl <;> omega
    rcases either with rfl | rfl
    · exact Fill.of_root below.1 (by omega) halves.2.2.1
    · exact Fill.of_root below.2 (by omega) halves.2.2.2

/-- Settling keeps search order. -/
theorem settle_within (two : 2 ≤ capacity h) (kept : Kept l r keep) {lo : WithBot K} {hi : WithTop K}
    (within : Within lo hi (branch pg (Node.plug pre l ((sep, r) :: post))))
    (sorted : LeavesSorted (branch pg (Node.plug pre l ((sep, r) :: post))))
    (left : Stocked l) (right : Stocked r) :
    Within lo hi (settle capacity pg pre l sep r post keep a u).shrunk.tree ∧
      LeavesSorted (settle capacity pg pre l sep r post keep a u).shrunk.tree := by
  obtain ⟨x, y, below, withinLeft, withinRight, above⟩ := (within_plug_two pg pre l sep r post).mp within
  rw [← Node.splice_two, leavesSorted_splice] at sorted
  have joined := withinLeft.join withinRight left right
  have ordered : LeavesSorted (join l sep r) := by
    apply leavesSorted_join (sorted.2.1 l (by simp)) (sorted.2.1 r (by simp))
    intro _ x hx y hy
    have low := (withinLeft.keys left x hx).2
    have high := (withinRight.keys right y hy).1
    exact (WithTop.coe_lt_coe.mp low).trans_le (WithBot.coe_le_coe.mp high)
  rcases settle_tree pg pre sep post a u two kept with
    ⟨-, run⟩ | ⟨l', m, r', -, same, -, first, run⟩
  · rw [run, Shrunk.tree]
    refine ⟨(within_plug pg pre _ post).mpr ⟨x, y, below, joined, above⟩, ?_⟩
    rw [leavesSorted_splice]
    refine ⟨sorted.1, fun c member => ?_, sorted.2.2⟩
    obtain rfl : c = join l sep r := by simpa using member
    exact ordered
  · rw [same] at joined ordered
    obtain ⟨low, high⟩ := Within.of_join joined ordered first
    obtain ⟨sortedLow, sortedHigh⟩ := LeavesSorted.of_join ordered
    rw [run, Shrunk.tree]
    refine ⟨(within_plug_two pg pre l' m r' post).mpr ⟨x, y, below, low, high, above⟩, ?_⟩
    rw [leavesSorted_splice]
    refine ⟨sorted.1, fun c member => ?_, sorted.2.2⟩
    have either : c = l' ∨ c = r' := by simpa using member
    rcases either with rfl | rfl
    · exact sortedLow
    · exact sortedHigh

end Settle

/-! ## Deleting a record -/

section Leaf

variable {k : K} {v : V}

theorem eraseRecord_size {s : PageTree K V 0} (held : k ∈ s.keys) :
    (eraseRecord k s).size + 1 = s.size := by
  obtain ⟨v, record⟩ := (mem_keys_iff s k).mp held
  rw [records_zero] at record
  have inside : s.recs.findIdx (fun r => r.1 = k) < s.recs.length :=
    List.findIdx_lt_length_of_exists ⟨_, record, by simp⟩
  show (s.recs.eraseIdx _).length + 1 = s.recs.length
  rw [List.length_eraseIdx_of_lt inside]
  omega

theorem eraseRecord_records {s : PageTree K V 0}
    (found : (s.recs.find? fun r => r.1 = k) = some (k, v)) :
    s.records.Perm ((k, v) :: (eraseRecord k s).records) := by
  rw [List.find?_eq_getElem?_findIdx] at found
  obtain ⟨inside, same⟩ := List.getElem?_eq_some_iff.mp found
  rw [records_zero, records_zero, ← same]
  exact (List.getElem_cons_eraseIdx_perm inside).symm

theorem eraseRecord_keys_sublist (s : PageTree K V 0) : (eraseRecord k s).keys.Sublist s.keys := by
  simp only [keys, records_zero]
  exact (List.eraseIdx_sublist _ _).map Prod.fst

theorem eraseRecord_leavesSorted {s : PageTree K V 0} (sorted : LeavesSorted s) :
    LeavesSorted (eraseRecord k s) := by
  intro l member
  rw [leaves_zero, List.mem_singleton] at member
  subst member
  exact (sorted s (by simp [leaves_zero])).sublist (eraseRecord_keys_sublist s)

end Leaf

/-! ## Deleting from a tree -/

variable {k : K}

theorem shrink_kept {s : PageTree K V (h + 1)} {a : Alloc} {c : PageTree K V h}
    (below : (shrink few capacity k (s.root.focus k).2.1 a).shrunk = .kept c) :
    shrink few capacity k s a =
      ⟨.kept (branch s.pg (Node.plug (s.root.focus k).1 c (s.root.focus k).2.2)),
        (shrink few capacity k (s.root.focus k).2.1 a).alloc,
        (shrink few capacity k (s.root.focus k).2.1 a).underflows⟩ := by
  rw [shrink]
  simp only [below]

theorem shrink_enough {s : PageTree K V (h + 1)} {a : Alloc} {c : PageTree K V h}
    (below : (shrink few capacity k (s.root.focus k).2.1 a).shrunk = .lost c) (enough : few h < c.size) :
    shrink few capacity k s a =
      ⟨.kept (branch s.pg (Node.plug (s.root.focus k).1 c (s.root.focus k).2.2)),
        (shrink few capacity k (s.root.focus k).2.1 a).alloc,
        (shrink few capacity k (s.root.focus k).2.1 a).underflows⟩ := by
  rw [shrink]
  simp only [below, if_pos enough]

theorem shrink_settled {s : PageTree K V (h + 1)} {a : Alloc} {c : PageTree K V h}
    (below : (shrink few capacity k (s.root.focus k).2.1 a).shrunk = .lost c) (small : c.size ≤ few h) :
    shrink few capacity k s a =
      settleChild capacity s.pg (s.root.focus k).1 c (s.root.focus k).2.2
        (shrink few capacity k (s.root.focus k).2.1 a).alloc
        (shrink few capacity k (s.root.focus k).2.1 a).underflows := by
  rw [shrink]
  simp only [below, if_neg (not_lt.mpr small)]

/-- A child of a root with a key has a neighbour. -/
theorem size_focus (k : K) (s : PageTree K V (h + 1)) :
    s.size = (s.root.focus k).1.length + (s.root.focus k).2.2.length := by
  conv_lhs => rw [← branch_focus k s]
  exact Node.size_plug _ _ _

/-- What a deletion below the root comes to: the root keeps its keys, or two of its
children are settled. -/
theorem shrink_cases {s : PageTree K V (h + 1)} (pos : 1 ≤ s.size) (a : Alloc)
    {motive : Shrinkage K V (h + 1) → Prop}
    (keep : ∀ c, (shrink few capacity k (s.root.focus k).2.1 a).shrunk = .kept c ∨
        (shrink few capacity k (s.root.focus k).2.1 a).shrunk = .lost c ∧ few h < c.size →
      motive ⟨.kept (branch s.pg (Node.splice (s.root.focus k).1 ⟨c, []⟩ (s.root.focus k).2.2)),
        (shrink few capacity k (s.root.focus k).2.1 a).alloc,
        (shrink few capacity k (s.root.focus k).2.1 a).underflows⟩)
    (settled : ∀ c pre l sep r post keep u,
      (shrink few capacity k (s.root.focus k).2.1 a).shrunk = .lost c → c.size ≤ few h →
      Beside (s.root.focus k).1 c (s.root.focus k).2.2 pre l sep r post → Kept l r keep →
      motive (settle capacity s.pg pre l sep r post keep
        (shrink few capacity k (s.root.focus k).2.1 a).alloc
        ((shrink few capacity k (s.root.focus k).2.1 a).underflows ++ [u]))) :
    motive (shrink few capacity k s a) := by
  cases below : (shrink few capacity k (s.root.focus k).2.1 a).shrunk with
  | kept c =>
      rw [shrink_kept below]
      exact keep c (.inl below)
  | lost c =>
      by_cases enough : few h < c.size
      · rw [shrink_enough below enough]
        exact keep c (.inr ⟨below, enough⟩)
      · have small := not_lt.mp enough
        rw [shrink_settled below small]
        exact settleChild_induction (size_focus k s ▸ pos) _ _ fun pre l sep r post keep u beside kept =>
          settled c pre l sep r post keep u below small beside kept

theorem settle_underflows (pg : Nat) (pre : List (PageTree K V h × K)) (l : PageTree K V h) (sep : K)
    (r : PageTree K V h) (post : List (K × PageTree K V h)) (keep : Nat) (a : Alloc)
    (u : List Underflow) : (settle capacity pg pre l sep r post keep a u).underflows = u := by
  rw [settle]
  split <;> rfl

/-- Deletion keeps the root's page. -/
theorem shrink_pg {s : PageTree K V h} (keyed : Keyed s) (a : Alloc) :
    (shrink few capacity k s a).shrunk.tree.pg = s.pg := by
  cases h with
  | zero => rfl
  | succ h =>
      refine shrink_cases (motive := fun x => x.shrunk.tree.pg = s.pg) keyed.root a (fun c _ => rfl) ?_
      intro c pre l sep r post keep u _ _ _ _
      exact settle_pg

theorem shrink_firstLeaf (two : ∀ h, 2 ≤ capacity h) {s : PageTree K V h} (keyed : Keyed s) (a : Alloc) :
    (shrink few capacity k s a).shrunk.tree.firstLeaf = s.firstLeaf := by
  induction h generalizing a with
  | zero => rfl
  | succ h ih =>
      have first := ih (keyed.child (s.root.focus_mem k)) a
      have replaced : ∀ c : PageTree K V h,
          c.firstLeaf = (shrink few capacity k (s.root.focus k).2.1 a).shrunk.tree.firstLeaf →
          (branch s.pg (Node.splice (s.root.focus k).1 ⟨c, []⟩ (s.root.focus k).2.2)).firstLeaf =
            s.firstLeaf := by
        intro c same
        exact (firstLeaf_splice s.pg _ _ ⟨(s.root.focus k).2.1, []⟩ ⟨c, []⟩ (same.trans first)).trans
          (congrArg firstLeaf (branch_focus k s))
      refine shrink_cases (motive := fun x => x.shrunk.tree.firstLeaf = s.firstLeaf) keyed.root a
        (fun c below => ?_) ?_
      · refine replaced c ?_
        rcases below with below | ⟨below, -⟩ <;> rw [below] <;> rfl
      · intro c pre l sep r post keep u below _ beside kept
        rw [settle_firstLeaf (two h) kept, ← beside.plug]
        exact replaced c (by rw [below]; rfl)

variable (few) in
/-- **Deletion takes out the record, and no other record comes or goes.** -/
theorem shrink_records (two : ∀ h, 2 ≤ capacity h) {s : PageTree K V h} (keyed : Keyed s) (a : Alloc)
    {v : V} (found : ((s.leafFor k).recs.find? fun r => r.1 = k) = some (k, v)) :
    s.records.Perm ((k, v) :: (shrink few capacity k s a).shrunk.tree.records) := by
  induction h generalizing a with
  | zero => exact eraseRecord_records found
  | succ h ih =>
      have inner := ih (keyed.child (s.root.focus_mem k)) a found
      have replaced : ∀ c : PageTree K V h,
          c = (shrink few capacity k (s.root.focus k).2.1 a).shrunk.tree →
          s.records.Perm ((k, v) ::
            (branch s.pg (Node.splice (s.root.focus k).1 ⟨c, []⟩ (s.root.focus k).2.2)).records) := by
        rintro c rfl
        have whole := congrArg records (branch_focus k s)
        rw [← whole, records_succ, root_branch, flatMap_splice, records_succ, root_branch,
          flatMap_splice]
        simp only [Node.children_mk, List.map_nil, List.flatMap_cons, List.flatMap_nil, List.append_nil]
        refine (List.Perm.append_left _ (inner.append_right _)).trans ?_
        simp
      refine shrink_cases (motive := fun x => s.records.Perm ((k, v) :: x.shrunk.tree.records))
        keyed.root a (fun c below => ?_) ?_
      · refine replaced c ?_
        rcases below with below | ⟨below, -⟩ <;> rw [below] <;> rfl
      · intro c pre l sep r post keep u below _ beside kept
        rw [settle_records (two h) kept, ← beside.plug]
        exact replaced c (by rw [below]; rfl)

variable (few) in
/-- A root that is `lost` has lost one key, and one that is `kept` none. -/
theorem shrink_size (two : ∀ h, 2 ≤ capacity h) {s : PageTree K V h} (pos : 1 ≤ s.size)
    (held : k ∈ (s.leafFor k).keys) (a : Alloc) :
    (shrink few capacity k s a).shrunk.before = s.size := by
  cases h with
  | zero => exact eraseRecord_size held
  | succ h =>
      refine shrink_cases (motive := fun x => x.shrunk.before = s.size) pos a (fun c _ => ?_) ?_
      · exact size_splice_focus k s ⟨c, []⟩
      · intro c pre l sep r post keep u _ _ beside kept
        rw [settle_size (two h) kept, size_focus k s]
        exact beside.length.symm

/-! ## When the root loses a key -/

/-- How many keys the neighbour has that a child would be settled with. -/
def neighborSize (pre : List (PageTree K V h × K)) (post : List (K × PageTree K V h)) : Nat :=
  match post with
  | (_, r) :: _ => r.size
  | [] => (pre.getLast?).elim 0 fun e => e.1.size

variable (few capacity) in
/-- Taking out a record takes a key from the root: at a leaf it does, and above where it
takes one from the child, which has then too few and too few with its neighbour. -/
def Thins (k : K) : {h : Nat} → PageTree K V h → Prop
  | 0, _ => True
  | h + 1, s =>
      Thins k (s.root.focus k).2.1 ∧ (s.root.focus k).2.1.size ≤ few h + 1 ∧
        (s.root.focus k).2.1.size - 1 + neighborSize (s.root.focus k).1 (s.root.focus k).2.2 <
          capacity h

theorem settle_lost_iff (pg : Nat) (pre : List (PageTree K V h × K)) (l : PageTree K V h) (sep : K)
    (r : PageTree K V h) (post : List (K × PageTree K V h)) (keep : Nat) (a : Alloc)
    (u : List Underflow) :
    (∃ s, (settle capacity pg pre l sep r post keep a u).shrunk = .lost s) ↔
      l.size + r.size < capacity h := by
  rw [settle]
  split
  · rename_i small
    exact ⟨fun _ => small, fun _ => ⟨_, rfl⟩⟩
  · rename_i large
    exact ⟨fun ⟨_, lost⟩ => (nomatch lost), fun small => absurd small large⟩

theorem settleChild_lost_iff (pg : Nat) {pre : List (PageTree K V h × K)} (c : PageTree K V h)
    {post : List (K × PageTree K V h)} (siblings : 1 ≤ pre.length + post.length) (a : Alloc)
    (u : List Underflow) :
    (∃ s, (settleChild capacity pg pre c post a u).shrunk = .lost s) ↔
      c.size + neighborSize pre post < capacity h := by
  cases post with
  | cons r post => exact settle_lost_iff _ _ _ _ _ _ _ _ _
  | nil =>
      rcases List.eq_nil_or_concat pre with rfl | ⟨pre, ⟨l, sep⟩, same⟩
      · simp at siblings
      · rw [List.concat_eq_append] at same
        subst same
        rw [settleChild_last, settle_lost_iff, Nat.add_comm]
        simp [neighborSize]

/-- **`Thins` tells beforehand whether the root loses a key.** -/
theorem shrink_lost_iff (two : ∀ h, 2 ≤ capacity h) {s : PageTree K V h} (keyed : Keyed s)
    (held : k ∈ (s.leafFor k).keys) (a : Alloc) :
    (∃ s', (shrink few capacity k s a).shrunk = .lost s') ↔ Thins few capacity k s := by
  induction h generalizing a with
  | zero => exact ⟨fun _ => trivial, fun _ => ⟨_, rfl⟩⟩
  | succ h ih =>
      have child := keyed.child (s.root.focus_mem k)
      have inner := ih child held a
      have size := shrink_size few two child.pos held a
      rw [Thins, ← inner]
      cases below : (shrink few capacity k (s.root.focus k).2.1 a).shrunk with
      | kept c =>
          rw [shrink_kept below]
          simp
      | lost c =>
          rw [below] at size
          have size : c.size + 1 = (s.root.focus k).2.1.size := size
          rw [← size, Nat.add_sub_cancel]
          by_cases enough : few h < c.size
          · rw [shrink_enough below enough]
            simp
            omega
          · have small := not_lt.mp enough
            rw [shrink_settled below small, settleChild_lost_iff s.pg c (size_focus k s ▸ keyed.root)]
            simp
            omega

section Invariants

variable {cap : Nat → Nat} (pos : ∀ h, 1 ≤ few h) (enough : ∀ h, few h + 1 ≤ capacity h / 2)
include pos enough

/-- **How full the pages are is kept.** -/
theorem shrink_fill (room : ∀ h, capacity h ≤ cap h) {s : PageTree K V h}
    (below : FillBelow (fun h => few h + 1) cap s) (root : 1 ≤ s.size)
    (held : k ∈ (s.leafFor k).keys) (a : Alloc) :
    FillBelow (fun h => few h + 1) cap (shrink few capacity k s a).shrunk.tree := by
  induction h generalizing a with
  | zero => trivial
  | succ h ih =>
      have child := s.root.focus_mem k
      have two : ∀ h, 2 ≤ capacity h := fun h => by
        have := enough h
        have := pos h
        omega
      have filled := (below _ child).root
      have some_ : 1 ≤ (s.root.focus k).2.1.size := (Nat.le_add_left 1 _).trans filled.1
      have inner := ih (below _ child).below some_ held a
      have size := shrink_size few two some_ held a
      have around := below
      rw [← branch_focus k s, fillBelow_splice] at around
      refine shrink_cases (motive := fun x => FillBelow (fun h => few h + 1) cap x.shrunk.tree) root a
        (fun c below => ?_) ?_
      · rw [Shrunk.tree, fillBelow_splice]
        refine ⟨around.1, fun d member => ?_, around.2.2⟩
        obtain rfl : d = c := by simpa using member
        rcases below with below | ⟨below, left⟩
        · rw [below] at inner size
          have size : d.size = (s.root.focus k).2.1.size := size
          exact Fill.of_root inner (by omega) (by omega)
        · rw [below] at inner size
          have size : d.size + 1 = (s.root.focus k).2.1.size := size
          exact Fill.of_root inner left (by omega)
      · intro c pre l sep r post keep u below small beside kept
        rw [below] at inner size
        have size : c.size + 1 = (s.root.focus k).2.1.size := size
        obtain ⟨before, after, either⟩ := beside.others around.1 around.2.2
        rcases either with ⟨rfl, right⟩ | ⟨left, rfl⟩
        · exact settle_fill kept (pos h) (enough h) (room h) before inner right.below after
            (.inr right.root.1) ⟨by omega, right.root.2⟩
        · exact settle_fill kept (pos h) (enough h) (room h) before left.below inner after
            (.inl left.root.1) ⟨left.root.2, by omega⟩

/-- **Deletion keeps search order**, and each leaf sorted. -/
theorem shrink_within (room : ∀ h, capacity h ≤ cap h) {s : PageTree K V h} {low : WithBot K}
    {high : WithTop K} (within : Within low high s) (sorted : LeavesSorted s)
    (below : FillBelow (fun h => few h + 1) cap s) (root : 1 ≤ s.size)
    (held : k ∈ (s.leafFor k).keys) (a : Alloc) :
    Within low high (shrink few capacity k s a).shrunk.tree ∧
      LeavesSorted (shrink few capacity k s a).shrunk.tree := by
  induction h generalizing a low high with
  | zero =>
      exact ⟨fun x member => within x ((eraseRecord_keys_sublist s).subset member),
        eraseRecord_leavesSorted sorted⟩
  | succ h ih =>
      have child := s.root.focus_mem k
      have two : ∀ h, 2 ≤ capacity h := fun h => by
        have := enough h
        have := pos h
        omega
      have filled := (below _ child).root
      have some_ : 1 ≤ (s.root.focus k).2.1.size := (Nat.le_add_left 1 _).trans filled.1
      have around := within
      rw [← branch_focus k s] at around
      obtain ⟨x, y, before, here, after⟩ := (within_plug _ _ _ _).mp around
      obtain ⟨inner, leaves⟩ := ih here (sorted.child child) (below _ child).below some_ held a
      have ordered := sorted
      rw [← branch_focus k s, leavesSorted_splice] at ordered
      have replaced : ∀ c : PageTree K V h, Within x y c → LeavesSorted c →
          Within low high (branch s.pg (Node.splice (s.root.focus k).1 ⟨c, []⟩ (s.root.focus k).2.2)) ∧
            LeavesSorted (branch s.pg (Node.splice (s.root.focus k).1 ⟨c, []⟩ (s.root.focus k).2.2)) := by
        intro c within sorted
        refine ⟨(within_plug _ _ _ _).mpr ⟨x, y, before, within, after⟩, ?_⟩
        rw [leavesSorted_splice]
        refine ⟨ordered.1, fun d member => ?_, ordered.2.2⟩
        obtain rfl : d = c := by simpa using member
        exact sorted
      refine shrink_cases (motive := fun x => Within low high x.shrunk.tree ∧
        LeavesSorted x.shrunk.tree) root a (fun c below => ?_) ?_
      · rcases below with below | ⟨below, -⟩ <;> rw [below] at inner leaves <;>
          exact replaced c inner leaves
      · intro c pre l sep r post keep u shrunk small beside kept
        have fill := shrink_fill pos enough room (below _ child).below some_ held a
        have size := shrink_size few two some_ held a
        rw [shrunk] at inner leaves fill size
        have size : c.size + 1 = (s.root.focus k).2.1.size := size
        have stocked : Stocked c := stocked_of_fill fill (Nat.le_add_left 1 _) (by
          have := pos h
          omega)
        have others := below
        rw [← branch_focus k s, fillBelow_splice] at others
        have full : ∀ d : PageTree K V h, Fill (fun h => few h + 1) cap d → Stocked d := fun d fill =>
          fill.stocked (Nat.le_add_left 1 _)
        obtain ⟨within, sorted⟩ := replaced c inner leaves
        have same : Node.splice (s.root.focus k).1 ⟨c, []⟩ (s.root.focus k).2.2 =
            Node.plug pre l ((sep, r) :: post) := beside.plug
        rw [same] at within sorted
        obtain ⟨-, -, either⟩ := beside.others (P := Stocked) (fun e member => full _ (others.1 e member))
          (fun e member => full _ (others.2.2 e member))
        rcases either with ⟨rfl, right⟩ | ⟨left, rfl⟩
        · exact settle_within (two h) kept within sorted stocked right
        · exact settle_within (two h) kept within sorted left stocked

end Invariants

end Shrink

end PageTree

end SimpleDatabase.Theory
