/- Theory.PageTree -- multiway search trees whose nodes have page numbers

`PageTree K V h` is a tree of height `h`: at height 0 a leaf of records, above
that an inner `Node` of trees one lower, each with the number of the page that
stores it.  All leaves of such a tree are at one depth by construction.

Read from left to right a tree is its `leaves`, its `records` are theirs, and
`pages` lists every page number in it.  `All P` says that `P` holds of every
node's parent, page and content; it is how a property of single pages is said of
a whole tree.  `join` and `cut` are the two moves of every B+ tree operation:
they do the same to the records at every height.
-/
import SimpleDatabase.Theory.Node
import Mathlib.Data.List.Perm.Basic
import Mathlib.Data.List.Flatten

namespace SimpleDatabase.Theory

set_option autoImplicit false

/-- A value and the number of the page it is stored in. -/
structure Paged (B : Type) where
  pg : Nat
  body : B

/-- What a page of height `h` holds: records at height 0, a node above. -/
def Body (K V : Type) : Nat → Type
  | 0 => List (K × V)
  | h + 1 => Node K (Paged (Body K V h))

/-- A search tree of height `h` over pages. -/
abbrev PageTree (K V : Type) (h : Nat) := Paged (Body K V h)

/-- The content of one page of a tree: a leaf's records, or a node of the page
numbers of its children. -/
inductive Content (K V : Type) where
  | leaf (recs : List (K × V))
  | node (n : Node K Nat)

/-- The number of keys of a page. -/
def Content.size {K V : Type} : Content K V → Nat
  | .leaf recs => recs.length
  | .node n => n.size

namespace PageTree

variable {K V : Type} {h : Nat}

/-- The leaf with the records `recs`, in page `pg`. -/
def leaf (pg : Nat) (recs : List (K × V)) : PageTree K V 0 := ⟨pg, recs⟩

/-- The tree with the root `n`, in page `pg`. -/
def branch (pg : Nat) (n : Node K (PageTree K V h)) : PageTree K V (h + 1) := ⟨pg, n⟩

/-- A leaf's records. -/
def recs (s : PageTree K V 0) : List (K × V) := s.body

/-- A tree's root node. -/
def root (s : PageTree K V (h + 1)) : Node K (PageTree K V h) := s.body

@[simp] theorem pg_leaf (pg : Nat) (l : List (K × V)) : (leaf pg l).pg = pg := rfl

@[simp] theorem recs_leaf (pg : Nat) (l : List (K × V)) : (leaf pg l).recs = l := rfl

@[simp] theorem pg_branch (pg : Nat) (n : Node K (PageTree K V h)) : (branch pg n).pg = pg := rfl

@[simp] theorem root_branch (pg : Nat) (n : Node K (PageTree K V h)) : (branch pg n).root = n := rfl

theorem eq_leaf (s : PageTree K V 0) : s = leaf s.pg s.recs := rfl

theorem eq_branch (s : PageTree K V (h + 1)) : s = branch s.pg s.root := rfl

/-- The number of keys in the root page. -/
def size : {h : Nat} → PageTree K V h → Nat
  | 0, s => s.recs.length
  | _ + 1, s => s.root.size

/-- The leaves, from left to right. -/
def leaves : {h : Nat} → PageTree K V h → List (PageTree K V 0)
  | 0, s => [s]
  | _ + 1, s => s.root.children.flatMap leaves

/-- The numbers of the leaf pages, from left to right. -/
def leafPages (s : PageTree K V h) : List Nat := s.leaves.map Paged.pg

/-- The page of the first leaf. -/
def firstLeaf : {h : Nat} → PageTree K V h → Nat
  | 0, s => s.pg
  | _ + 1, s => firstLeaf s.root.left

/-- The records, from left to right. -/
def records (s : PageTree K V h) : List (K × V) := s.leaves.flatMap recs

def keys (s : PageTree K V h) : List K := s.records.map Prod.fst

/-- The numbers of all pages. -/
def pages : {h : Nat} → PageTree K V h → List Nat
  | 0, s => [s.pg]
  | _ + 1, s => s.pg :: s.root.children.flatMap pages

def content : {h : Nat} → PageTree K V h → Content K V
  | 0, s => .leaf s.recs
  | _ + 1, s => .node (s.root.map Paged.pg)

/-- `P` holds of every page of the tree: of the page that lists it (`parent` for
the root), its number and its content. -/
def All (P : Nat → Nat → Content K V → Prop) : {h : Nat} → (parent : Nat) → PageTree K V h → Prop
  | 0, parent, s => P parent s.pg s.content
  | _ + 1, parent, s => P parent s.pg s.content ∧ ∀ c ∈ s.root.children, All P s.pg c

/-- The leaf a search for `k` ends in. -/
def leafFor [LinearOrder K] (k : K) : {h : Nat} → PageTree K V h → PageTree K V 0
  | 0, s => s
  | _ + 1, s => leafFor k (s.root.focus k).2.1

/-- Every page but the root holds between `lo` and `hi` keys; bounds are by height. -/
def Fill (lo hi : Nat → Nat) : {h : Nat} → PageTree K V h → Prop
  | 0, s => lo 0 ≤ s.size ∧ s.size ≤ hi 0
  | h + 1, s => (lo (h + 1) ≤ s.size ∧ s.size ≤ hi (h + 1)) ∧ ∀ c ∈ s.root.children, Fill lo hi c

/-- The pages below the root are filled between `lo` and `hi`. -/
def FillBelow (lo hi : Nat → Nat) : {h : Nat} → PageTree K V h → Prop
  | 0, _ => True
  | _ + 1, s => ∀ c ∈ s.root.children, Fill lo hi c

/-- Every page holds a key. -/
def Keyed (s : PageTree K V h) : Prop := All (fun _ _ c => 1 ≤ c.size) 0 s

/-! ## Reading a tree off its root -/

theorem leaves_zero (s : PageTree K V 0) : s.leaves = [s] := rfl

theorem leaves_succ (s : PageTree K V (h + 1)) : s.leaves = s.root.children.flatMap leaves := rfl

theorem leafPages_zero (s : PageTree K V 0) : s.leafPages = [s.pg] := rfl

theorem leafPages_succ (s : PageTree K V (h + 1)) :
    s.leafPages = s.root.children.flatMap leafPages := by
  simp [leafPages, leaves_succ, List.map_flatMap]; rfl

theorem records_zero (s : PageTree K V 0) : s.records = s.recs := by
  simp [records, leaves_zero]

theorem records_succ (s : PageTree K V (h + 1)) :
    s.records = s.root.children.flatMap records := by
  simp only [records, leaves_succ, List.flatMap_assoc]; rfl

theorem pages_succ (s : PageTree K V (h + 1)) :
    s.pages = s.pg :: s.root.children.flatMap pages := rfl

theorem pg_mem_pages (s : PageTree K V h) : s.pg ∈ s.pages := by
  cases h <;> simp [pages]

/-- The leaf pages are pages of the tree, in the order the tree lists them. -/
theorem leafPages_sublist (s : PageTree K V h) : s.leafPages.Sublist s.pages := by
  induction h with
  | zero => exact List.Sublist.refl _
  | succ h ih =>
      rw [leafPages_succ, pages_succ]
      exact List.Sublist.cons _ (List.Sublist.flatMap_right _ fun c _ => ih c)

theorem leafPages_subset (s : PageTree K V h) : s.leafPages ⊆ s.pages :=
  s.leafPages_sublist.subset

/-- A tree's first leaf is there. -/
theorem leaves_ne_nil (s : PageTree K V h) : s.leaves ≠ [] := by
  induction h with
  | zero => simp [leaves_zero]
  | succ h ih =>
      have := ih s.root.left
      simp [leaves_succ, Node.children, this]

/-- The leaf pages start with the first leaf's. -/
theorem leafPages_head (s : PageTree K V h) : ∃ rest, s.leafPages = s.firstLeaf :: rest := by
  induction h with
  | zero => exact ⟨[], rfl⟩
  | succ h ih =>
      obtain ⟨rest, first⟩ := ih s.root.left
      refine ⟨rest ++ (s.root.recs.map Prod.snd).flatMap leafPages, ?_⟩
      rw [leafPages_succ, Node.children, List.flatMap_cons, first]
      rfl

theorem leafFor_mem [LinearOrder K] (k : K) (s : PageTree K V h) : s.leafFor k ∈ s.leaves := by
  induction h with
  | zero => simp [leafFor, leaves_zero]
  | succ h ih =>
      rw [leaves_succ]
      exact List.mem_flatMap.mpr ⟨_, s.root.focus_mem k, ih _⟩

theorem mem_keys_iff (s : PageTree K V h) (k : K) : k ∈ s.keys ↔ ∃ v, (k, v) ∈ s.records := by
  simp [keys]

theorem mem_keys_succ (s : PageTree K V (h + 1)) (k : K) :
    k ∈ s.keys ↔ ∃ c ∈ s.root.children, k ∈ c.keys := by
  simp only [keys, records_succ, List.map_flatMap, List.mem_flatMap]

/-- The keys of a tree are those of its leaves. -/
theorem keys_eq_flatMap (s : PageTree K V h) : s.keys = s.leaves.flatMap keys := by
  rw [keys, records, List.map_flatMap]
  exact List.flatMap_congr fun l _ => by rw [keys, records_zero]

/-- A leaf's keys are keys of the tree. -/
theorem mem_keys_of_leaf {s : PageTree K V h} {l : PageTree K V 0} (member : l ∈ s.leaves) {k : K}
    (held : k ∈ l.keys) : k ∈ s.keys := by
  obtain ⟨v, record⟩ := (mem_keys_iff l k).mp held
  rw [records_zero] at record
  exact (mem_keys_iff s k).mpr ⟨v, List.mem_flatMap.mpr ⟨l, member, record⟩⟩

section Plug

variable (pg : Nat) (pre : List (PageTree K V h × K)) (c : PageTree K V h)
  (post : List (K × PageTree K V h))

theorem flatMap_plug {α C : Type} (f : C → List α) (pre : List (C × K)) (c : C)
    (post : List (K × C)) :
    (Node.plug pre c post).children.flatMap f =
      pre.flatMap (fun e => f e.1) ++ (f c ++ post.flatMap fun r => f r.2) := by
  simp [List.flatMap_map]

theorem flatMap_splice {α C : Type} (f : C → List α) (pre : List (C × K)) (n : Node K C)
    (post : List (K × C)) :
    (Node.splice pre n post).children.flatMap f =
      pre.flatMap (fun e => f e.1) ++ (n.children.flatMap f ++ post.flatMap fun r => f r.2) := by
  simp only [Node.children_splice, List.flatMap_append, List.flatMap_map]

theorem leaves_plug : (branch pg (Node.plug pre c post)).leaves =
    pre.flatMap (fun e => e.1.leaves) ++ (c.leaves ++ post.flatMap fun r => r.2.leaves) :=
  flatMap_plug leaves pre c post

theorem branch_focus [LinearOrder K] (k : K) (s : PageTree K V (h + 1)) :
    branch s.pg (Node.splice (s.root.focus k).1 ⟨(s.root.focus k).2.1, []⟩ (s.root.focus k).2.2) = s :=
  congrArg (branch s.pg) (Node.plug_focus k s.root)

/-- Putting other trees where the search goes. -/
theorem size_splice_focus [LinearOrder K] (k : K) (s : PageTree K V (h + 1))
    (n : Node K (PageTree K V h)) :
    (branch s.pg (Node.splice (s.root.focus k).1 n (s.root.focus k).2.2)).size = s.size + n.size := by
  have whole : s.size = (s.root.focus k).1.length + (s.root.focus k).2.2.length := by
    conv_lhs => rw [← branch_focus k s]
    exact Node.size_plug _ _ _
  have spliced : (branch s.pg (Node.splice (s.root.focus k).1 n (s.root.focus k).2.2)).size =
      (s.root.focus k).1.length + n.size + (s.root.focus k).2.2.length := Node.size_splice _ _ _
  omega

/-- Replacing some children by others that start at the same leaf. -/
theorem firstLeaf_splice (n n' : Node K (PageTree K V h))
    (same : n'.left.firstLeaf = n.left.firstLeaf) :
    (branch pg (Node.splice pre n' post)).firstLeaf = (branch pg (Node.splice pre n post)).firstLeaf := by
  cases pre with
  | nil => exact same
  | cons e pre => rfl

theorem fillBelow_splice (lo hi : Nat → Nat) (n : Node K (PageTree K V h)) :
    FillBelow lo hi (branch pg (Node.splice pre n post)) ↔
      (∀ e ∈ pre, Fill lo hi e.1) ∧ (∀ c ∈ n.children, Fill lo hi c) ∧ ∀ r ∈ post, Fill lo hi r.2 := by
  simp only [FillBelow, root_branch, Node.children_splice, List.mem_append, List.mem_map]
  constructor
  · intro below
    exact ⟨fun e member => below _ (.inl ⟨e, member, rfl⟩),
      fun c member => below _ (.inr (.inl member)),
      fun r member => below _ (.inr (.inr ⟨r, member, rfl⟩))⟩
  · rintro ⟨before, at_, after⟩ d (⟨e, member, rfl⟩ | member | ⟨r, member, rfl⟩)
    · exact before e member
    · exact at_ d member
    · exact after r member

end Plug

/-! ## Properties of every page -/

section All

variable {P Q : Nat → Nat → Content K V → Prop}

/-- A property carried over page by page. -/
theorem All.imp_pages {s : PageTree K V h} {parent : Nat}
    (imp : ∀ pg ∈ s.pages, ∀ par c, P par pg c → Q par pg c) (all : All P parent s) :
    All Q parent s := by
  induction h generalizing parent with
  | zero => exact imp s.pg (by simp [pages]) _ _ all
  | succ h ih =>
      refine ⟨imp s.pg (by simp [pages]) _ _ all.1, fun c child => ih (fun pg inside => ?_)
        (all.2 c child)⟩
      exact imp pg (List.mem_cons_of_mem _ (List.mem_flatMap.mpr ⟨c, child, inside⟩))

theorem All.imp {s : PageTree K V h} {parent : Nat} (imp : ∀ par pg c, P par pg c → Q par pg c)
    (all : All P parent s) : All Q parent s :=
  all.imp_pages fun pg _ par c => imp par pg c

/-- The parent matters to the root page alone. -/
theorem All.reparent {s : PageTree K V h} {parent parent' : Nat} (all : All P parent s)
    (here : P parent' s.pg s.content) : All P parent' s := by
  cases h with
  | zero => exact here
  | succ h => exact ⟨here, all.2⟩

theorem All.root {s : PageTree K V h} {parent : Nat} (all : All P parent s) :
    P parent s.pg s.content := by
  cases h with
  | zero => exact all
  | succ h => exact all.1

theorem All.child {s : PageTree K V (h + 1)} {parent : Nat} (all : All P parent s)
    {c : PageTree K V h} (child : c ∈ s.root.children) : All P s.pg c :=
  all.2 c child

theorem All.leaf {s : PageTree K V h} {parent : Nat} (all : All P parent s) :
    ∀ l ∈ s.leaves, ∃ par, P par l.pg (.leaf l.recs) := by
  induction h generalizing parent with
  | zero =>
      intro l member
      rw [leaves_zero, List.mem_singleton] at member
      subst member
      exact ⟨parent, all⟩
  | succ h ih =>
      intro l member
      obtain ⟨c, child, inside⟩ := List.mem_flatMap.mp member
      exact ih (all.2 c child) l inside

end All

theorem Keyed.child {s : PageTree K V (h + 1)} (keyed : Keyed s) {c : PageTree K V h}
    (child : c ∈ s.root.children) : Keyed c := by
  have below := All.child keyed child
  exact below.reparent below.root

theorem Keyed.root {s : PageTree K V (h + 1)} (keyed : Keyed s) : 1 ≤ s.root.size := by
  have here : 1 ≤ (s.root.map Paged.pg).size := All.root keyed
  rwa [Node.size_map] at here

theorem Keyed.pos {s : PageTree K V h} (keyed : Keyed s) : 1 ≤ s.size := by
  cases h with
  | zero => exact keyed
  | succ h => exact keyed.root

theorem Fill.root {lo hi : Nat → Nat} {s : PageTree K V h} (fill : Fill lo hi s) :
    lo h ≤ s.size ∧ s.size ≤ hi h := by
  cases h with
  | zero => exact fill
  | succ h => exact fill.1

theorem Fill.below {lo hi : Nat → Nat} {s : PageTree K V h} (fill : Fill lo hi s) :
    FillBelow lo hi s := by
  cases h with
  | zero => trivial
  | succ h => exact fill.2

theorem Fill.of_root {lo hi : Nat → Nat} {s : PageTree K V h} (below : FillBelow lo hi s)
    (low : lo h ≤ s.size) (high : s.size ≤ hi h) : Fill lo hi s := by
  cases h with
  | zero => exact ⟨low, high⟩
  | succ h => exact ⟨⟨low, high⟩, below⟩

theorem Fill.mono {lo lo' hi : Nat → Nat} {s : PageTree K V h} (weaker : ∀ h, lo' h ≤ lo h)
    (fill : Fill lo hi s) : Fill lo' hi s := by
  induction h with
  | zero => exact ⟨Nat.le_trans (weaker 0) fill.1, fill.2⟩
  | succ h ih =>
      exact ⟨⟨Nat.le_trans (weaker _) fill.1.1, fill.1.2⟩, fun c child => ih (fill.2 c child)⟩

/-- In a tree whose pages each hold a key, every leaf holds one. -/
theorem Fill.leaf {lo hi : Nat → Nat} {s : PageTree K V h} (fill : Fill lo hi s) :
    ∀ l ∈ s.leaves, lo 0 ≤ l.recs.length ∧ l.recs.length ≤ hi 0 := by
  induction h with
  | zero =>
      intro l member
      rw [leaves_zero, List.mem_singleton] at member
      subst member
      exact fill
  | succ h ih =>
      intro l member
      obtain ⟨c, child, inside⟩ := List.mem_flatMap.mp member
      exact ih (fill.2 c child) l inside

/-- Pages filled from one key up each hold a key. -/
theorem keyed_of_fill {lo hi : Nat → Nat} (pos : ∀ h, 1 ≤ lo h) {s : PageTree K V h}
    (below : FillBelow lo hi s) (root : 1 ≤ s.size) : Keyed s := by
  induction h with
  | zero => exact root
  | succ h ih =>
      have here : 1 ≤ s.root.size := root
      refine ⟨by simpa [content, Content.size] using here, ?_⟩
      intro c child
      have inner : All (fun _ _ c => 1 ≤ c.size) 0 c :=
        ih (below c child).below (Nat.le_trans (pos h) (below c child).root.1)
      exact inner.reparent (All.root inner)

/-! ## Joining and cutting at any height -/

/-- Two trees of one height and the separator between them, as one tree in the
first one's page.  Two leaves need no separator between them. -/
def join : {h : Nat} → PageTree K V h → K → PageTree K V h → PageTree K V h
  | 0, l, _, r => leaf l.pg (l.recs ++ r.recs)
  | _ + 1, l, k, r => branch l.pg (l.root.join k r.root)

/-- Cut the root at index `i`; the right half goes to page `pg`.  A leaf's
separator is a copy of the right half's first key. -/
def cut [Inhabited K] (i pg : Nat) : {h : Nat} → PageTree K V h → PageTree K V h × K × PageTree K V h
  | 0, s => (leaf s.pg (s.recs.take i), ((s.recs.drop i).head?.map Prod.fst).getD default,
      leaf pg (s.recs.drop i))
  | _ + 1, s => (branch s.pg (s.root.cut i).1, (s.root.cut i).2.1, branch pg (s.root.cut i).2.2)

@[simp] theorem join_pg (l : PageTree K V h) (k : K) (r : PageTree K V h) :
    (join l k r).pg = l.pg := by
  cases h <;> rfl

/-- A joined root has the keys of both, and above the leaves the separator. -/
theorem size_join (l : PageTree K V h) (k : K) (r : PageTree K V h) :
    (join l k r).size = l.size + r.size + if h = 0 then 0 else 1 := by
  cases h with
  | zero => simp [join, size]
  | succ h => simp [join, size]

theorem records_join (l : PageTree K V h) (k : K) (r : PageTree K V h) :
    (join l k r).records = l.records ++ r.records := by
  cases h with
  | zero => simp [join, records_zero]
  | succ h => simp [join, records_succ, List.flatMap_append]

theorem keys_join (l : PageTree K V h) (k : K) (r : PageTree K V h) :
    (join l k r).keys = l.keys ++ r.keys := by
  simp [keys, records_join]

theorem firstLeaf_join (l : PageTree K V h) (k : K) (r : PageTree K V h) :
    (join l k r).firstLeaf = l.firstLeaf := by
  cases h <;> rfl

/-- Joining gives the right page back. -/
theorem pages_join (l : PageTree K V h) (k : K) (r : PageTree K V h) :
    (r.pg :: (join l k r).pages).Perm (l.pages ++ r.pages) := by
  cases h with
  | zero => exact List.Perm.swap _ _ _
  | succ h =>
      simp only [join, pages_succ, pg_branch, root_branch, Node.children_join, List.flatMap_append]
      exact (List.Perm.swap _ _ _).trans (List.Perm.cons _ List.perm_middle.symm)

theorem leafPages_join (l : PageTree K V (h + 1)) (k : K) (r : PageTree K V (h + 1)) :
    (join l k r).leafPages = l.leafPages ++ r.leafPages := by
  simp [join, leafPages_succ, List.flatMap_append]

theorem fillBelow_join (lo hi : Nat → Nat) (l : PageTree K V h) (k : K) (r : PageTree K V h) :
    FillBelow lo hi (join l k r) ↔ FillBelow lo hi l ∧ FillBelow lo hi r := by
  cases h with
  | zero => simp [FillBelow]
  | succ h =>
      simp only [FillBelow, join, root_branch, Node.children_join, List.mem_append]
      exact ⟨fun below => ⟨fun c child => below c (.inl child), fun c child => below c (.inr child)⟩,
        fun both c child => child.elim (both.1 c) (both.2 c)⟩

/-- Every root with an index `i` below its size is the join of what `cut i`
gives, and the left half keeps `i` keys. -/
theorem cut_spec [Inhabited K] {s : PageTree K V h} {i : Nat} (pg : Nat) (inside : i < s.size) :
    ∃ l k r, s.cut i pg = (l, k, r) ∧ s = join l k r ∧ l.pg = s.pg ∧ r.pg = pg ∧ l.size = i ∧
      (h = 0 → k ∈ r.keys.head?) := by
  cases h with
  | zero =>
      have inside : i < s.recs.length := inside
      have split := (List.take_append_drop i s.recs).symm
      obtain ⟨r, rest, first⟩ : ∃ r rest, s.recs.drop i = r :: rest := by
        cases next : s.recs.drop i with
        | nil => exact absurd (List.drop_eq_nil_iff.mp next) (by omega)
        | cons r rest => exact ⟨r, rest, rfl⟩
      refine ⟨leaf s.pg (s.recs.take i), r.1, leaf pg (s.recs.drop i), ?_, ?_, rfl, rfl, ?_,
        fun _ => ?_⟩
      · simp [cut, first]
      · exact congrArg (leaf s.pg) split
      · simp [size, Nat.le_of_lt inside]
      · simp [keys, records_zero, first]
  | succ h =>
      obtain ⟨l, k, r, same, width, -⟩ := Node.exists_join (n := s.root) inside
      refine ⟨branch s.pg l, k, branch pg r, ?_, ?_, rfl, rfl, width, fun zero => nomatch zero⟩
      · simp only [cut, same, ← width, Node.cut_join]
      · exact congrArg (branch s.pg) same

end PageTree

end SimpleDatabase.Theory
