/- Theory.Node -- the inner node of a multiway search tree

A `Node K C` is a leftmost child followed by records `(separator, child)`: an
alternating sequence of children and separators that starts and ends with a
child.  The operations a B+ tree performs on it are operations on that sequence
and none of them looks at the children: put a node together from two halves and
a separator (`join`), cut one in two around a record (`cut`), insert or erase a
record, and point at one child (`plug pre c post`, found for a key by `focus`).

A node is determined by its children and its separators (`ext_of`), and each
operation says what it does to these two lists.  `map` changes the children and
commutes with everything, so what is proved of a tree's nodes holds of the pages
that store them.
-/
import Mathlib.Data.List.Basic
import Mathlib.Order.Lattice

namespace SimpleDatabase.Theory

set_option autoImplicit false

/-- An inner node: its leftmost child, then records of a separator and a child. -/
structure Node (K C : Type) where
  left : C
  recs : List (K × C)

namespace Node

variable {K C D : Type}

/-- The number of separators. -/
def size (n : Node K C) : Nat := n.recs.length

def children (n : Node K C) : List C := n.left :: n.recs.map Prod.snd

def seps (n : Node K C) : List K := n.recs.map Prod.fst

/-- The node read from left to right: child, separator, child, ..., child. -/
def interleaved (n : Node K C) : List (C ⊕ K) :=
  .inl n.left :: n.recs.flatMap fun r => [.inr r.1, .inl r.2]

def map (f : C → D) (n : Node K C) : Node K D := ⟨f n.left, n.recs.map fun r => (r.1, f r.2)⟩

@[simp] theorem size_map (f : C → D) (n : Node K C) : (n.map f).size = n.size := by
  simp [size, map]

@[simp] theorem children_map (f : C → D) (n : Node K C) :
    (n.map f).children = n.children.map f := by
  simp [children, map]

@[simp] theorem seps_map (f : C → D) (n : Node K C) : (n.map f).seps = n.seps := by
  simp [seps, map]

@[simp] theorem children_length (n : Node K C) : n.children.length = n.size + 1 := by
  simp [children, size]

@[simp] theorem seps_length (n : Node K C) : n.seps.length = n.size := by
  simp [seps, size]

@[simp] theorem children_mk (c : C) (recs : List (K × C)) :
    (⟨c, recs⟩ : Node K C).children = c :: recs.map Prod.snd := rfl

@[simp] theorem seps_mk (c : C) (recs : List (K × C)) :
    (⟨c, recs⟩ : Node K C).seps = recs.map Prod.fst := rfl

theorem left_mem (n : Node K C) : n.left ∈ n.children := by simp [children]

/-- A node is its children and its separators. -/
theorem ext_of {m n : Node K C} (children_ : m.children = n.children) (seps_ : m.seps = n.seps) :
    m = n := by
  obtain ⟨l, rs⟩ := m
  obtain ⟨l', rs'⟩ := n
  simp only [children, List.cons.injEq] at children_
  have : rs = rs' :=
    (List.zip_of_prod seps_ children_.2).trans (List.zip_of_prod rfl rfl).symm
  rw [children_.1, this]

/-! ## Joining and cutting -/

/-- Two nodes and the separator between them, as one node. -/
def join (l : Node K C) (k : K) (r : Node K C) : Node K C :=
  ⟨l.left, l.recs ++ (k, r.left) :: r.recs⟩

@[simp] theorem size_join (l : Node K C) (k : K) (r : Node K C) :
    (join l k r).size = l.size + r.size + 1 := by
  simp [size, join]; omega

@[simp] theorem children_join (l : Node K C) (k : K) (r : Node K C) :
    (join l k r).children = l.children ++ r.children := by
  simp [children, join]

@[simp] theorem seps_join (l : Node K C) (k : K) (r : Node K C) :
    (join l k r).seps = l.seps ++ k :: r.seps := by
  simp [seps, join]

@[simp] theorem interleaved_join (l : Node K C) (k : K) (r : Node K C) :
    (join l k r).interleaved = l.interleaved ++ .inr k :: r.interleaved := by
  simp [interleaved, join]

/-- The alternating sequence determines the node. -/
theorem interleaved_injective {m n : Node K C} (same : m.interleaved = n.interleaved) : m = n := by
  obtain ⟨l, rs⟩ := m
  obtain ⟨l', rs'⟩ := n
  simp only [interleaved, List.cons.injEq, Sum.inl.injEq] at same
  obtain ⟨rfl, same⟩ := same
  congr 1
  induction rs generalizing rs' with
  | nil =>
      cases rs' with
      | nil => rfl
      | cons r rs' => simp at same
  | cons e rs ih =>
      cases rs' with
      | nil => simp at same
      | cons r rs' =>
          obtain ⟨k, c⟩ := e
          obtain ⟨k', c'⟩ := r
          simp only [List.flatMap_cons, List.cons_append, List.nil_append, List.cons.injEq,
            Sum.inr.injEq, Sum.inl.injEq] at same
          obtain ⟨rfl, rfl, same⟩ := same
          rw [ih rs' same]

theorem map_join (f : C → D) (l : Node K C) (k : K) (r : Node K C) :
    (join l k r).map f = join (l.map f) k (r.map f) := by
  simp [join, map]

theorem join_assoc (l : Node K C) (k : K) (m : Node K C) (k' : K) (r : Node K C) :
    join (join l k m) k' r = join l k (join m k' r) := by
  simp [join]

theorem join_left_cancel (l : Node K C) (k : K) {r r' : Node K C} (same : join l k r = join l k r') :
    r = r' := by
  simp only [join, Node.mk.injEq, List.append_cancel_left_eq, List.cons.injEq, Prod.mk.injEq,
    true_and] at same
  exact congrArg₂ Node.mk same.1 same.2

/-- One sequence cut at two places: the later cut has the earlier separator and
some records more on its left. -/
theorem join_later {l l' r r' : Node K C} {k k' : K} (same : join l k r = join l' k' r')
    (later : l.size < l'.size) :
    ∃ xs, l'.recs = l.recs ++ (k, r.left) :: xs ∧ r.recs = xs ++ (k', r'.left) :: r'.recs := by
  have recs : l.recs ++ (k, r.left) :: r.recs = l'.recs ++ (k', r'.left) :: r'.recs :=
    congrArg Node.recs same
  have later : l.recs.length < l'.recs.length := later
  rcases List.append_eq_append_iff.mp recs with ⟨ys, left, right⟩ | ⟨ys, left, -⟩
  · cases ys with
    | nil =>
        rw [left, List.append_nil] at later
        omega
    | cons y ys =>
        simp only [List.cons_append, List.cons.injEq] at right
        exact ⟨ys, right.1 ▸ left, right.2⟩
  · rw [left, List.length_append] at later
    omega

/-- ... so some children are before the later cut and after the earlier one. -/
theorem join_moved {l l' r r' : Node K C} {k k' : K} (same : join l k r = join l' k' r')
    (later : l.size < l'.size) :
    ∃ moved, l'.children = l.children ++ moved ∧ r.children = moved ++ r'.children := by
  obtain ⟨xs, left, right⟩ := join_later same later
  have first : l.left = l'.left := by simpa [join] using congrArg Node.left same
  exact ⟨r.left :: xs.map Prod.snd, by simp [children, left, first], by simp [children, right]⟩

/-- Cut a node at its record `i`: what is left of it, its separator, and the
node that starts with its child. -/
def cut [Inhabited K] (i : Nat) (n : Node K C) : Node K C × K × Node K C :=
  match n.recs.drop i with
  | [] => (n, default, n)
  | (k, c) :: rest => (⟨n.left, n.recs.take i⟩, k, ⟨c, rest⟩)

/-- Cutting undoes joining. -/
theorem cut_join [Inhabited K] (l : Node K C) (k : K) (r : Node K C) :
    (join l k r).cut l.size = (l, k, r) := by
  simp [cut, join, size]

/-- Every node with a record `i` is the join of what `cut i` gives. -/
theorem exists_join {n : Node K C} {i : Nat} (inside : i < n.size) :
    ∃ l k r, n = join l k r ∧ l.size = i ∧ n.recs[i]? = some (k, r.left) := by
  obtain ⟨left, recs⟩ := n
  have inside : i < recs.length := inside
  have split : recs = recs.take i ++ recs[i] :: recs.drop (i + 1) := by
    rw [List.getElem_cons_drop, List.take_append_drop]
  refine ⟨⟨left, recs.take i⟩, recs[i].1, ⟨recs[i].2, recs.drop (i + 1)⟩, ?_, ?_, ?_⟩
  · exact congrArg (Node.mk left) split
  · simp [size, Nat.le_of_lt inside]
  · exact List.getElem?_eq_getElem inside

/-- A node with a key, as its last child joined to the rest ... -/
theorem exists_last {n : Node K C} (some_ : 1 ≤ n.size) :
    ∃ l k c, n = join l k ⟨c, []⟩ ∧ l.size = n.size - 1 := by
  obtain ⟨l, k, r, joined, width, -⟩ := exists_join (n := n) (i := n.size - 1) (by omega)
  have total := size_join l k r
  have none_left : r.recs = [] := List.eq_nil_of_length_eq_zero (by
    show r.size = 0
    rw [← joined] at total
    omega)
  exact ⟨l, k, r.left, by rw [joined, ← none_left], width⟩

/-- ... and as the rest joined to its first child. -/
theorem exists_first {n : Node K C} (some_ : 1 ≤ n.size) : ∃ c k r, n = join ⟨c, []⟩ k r := by
  obtain ⟨l, k, r, joined, width, -⟩ := exists_join (n := n) (i := 0) some_
  have none_left : l.recs = [] := List.eq_nil_of_length_eq_zero width
  exact ⟨l.left, k, r, by rw [joined, ← none_left]⟩

/-- Nodes with the same image are the same, where children with the same image are. -/
theorem map_inj {f : C → D} {m n : Node K C} (same : m.map f = n.map f)
    (inj : ∀ c ∈ m.children, ∀ d ∈ n.children, f c = f d → c = d) : m = n := by
  refine ext_of ?_ (by simpa using congrArg seps same)
  have images : m.children.map f = n.children.map f := by simpa using congrArg children same
  generalize m.children = cs at images inj ⊢
  generalize n.children = ds at images inj ⊢
  induction cs generalizing ds with
  | nil => exact (List.map_eq_nil_iff.mp images.symm).symm
  | cons c cs ih =>
      cases ds with
      | nil => simp at images
      | cons d ds =>
          simp only [List.map_cons, List.cons.injEq] at images
          rw [inj c (by simp) d (by simp) images.1, ih ds images.2 fun c hc d hd =>
            inj c (List.mem_cons_of_mem _ hc) d (List.mem_cons_of_mem _ hd)]

/-! ## Pointing at a child -/

/-- The node whose child `c` has the children and separators `pre` before it
and the records `post` after it. -/
def plug : List (C × K) → C → List (K × C) → Node K C
  | [], c, post => ⟨c, post⟩
  | (d, s) :: pre, c, post => ⟨d, (s, (plug pre c post).left) :: (plug pre c post).recs⟩

@[simp] theorem plug_nil (c : C) (post : List (K × C)) : plug [] c post = ⟨c, post⟩ := rfl

theorem plug_cons (d : C) (s : K) (pre : List (C × K)) (c : C) (post : List (K × C)) :
    plug ((d, s) :: pre) c post = join ⟨d, []⟩ s (plug pre c post) := rfl

@[simp] theorem children_plug (pre : List (C × K)) (c : C) (post : List (K × C)) :
    (plug pre c post).children = pre.map Prod.fst ++ c :: post.map Prod.snd := by
  induction pre with
  | nil => rfl
  | cons e pre ih =>
      rw [plug_cons, children_join, ih]
      rfl

@[simp] theorem seps_plug (pre : List (C × K)) (c : C) (post : List (K × C)) :
    (plug pre c post).seps = pre.map Prod.snd ++ post.map Prod.fst := by
  induction pre with
  | nil => rfl
  | cons e pre ih =>
      rw [plug_cons, seps_join, ih]
      rfl

@[simp] theorem size_plug (pre : List (C × K)) (c : C) (post : List (K × C)) :
    (plug pre c post).size = pre.length + post.length := by
  rw [← seps_length]
  simp

theorem map_plug (f : C → D) (pre : List (C × K)) (c : C) (post : List (K × C)) :
    (plug pre c post).map f =
      plug (pre.map fun e => (f e.1, e.2)) (f c) (post.map fun r => (r.1, f r.2)) := by
  apply ext_of <;> simp [Function.comp_def]

/-- The child pointed at has its right neighbour in `post` ... -/
theorem plug_post (pre : List (C × K)) (c : C) (k : K) (d : C) (post : List (K × C)) :
    plug pre c ((k, d) :: post) = join (plug pre c []) k ⟨d, post⟩ := by
  apply ext_of <;> simp

/-- ... and its left neighbour at the end of `pre`. -/
theorem plug_pre (pre : List (C × K)) (d : C) (k : K) (c : C) (post : List (K × C)) :
    plug (pre ++ [(d, k)]) c post = join (plug pre d []) k ⟨c, post⟩ := by
  apply ext_of <;> simp

/-- Either neighbour may be the one pointed at. -/
theorem plug_shift (pre : List (C × K)) (c : C) (k : K) (d : C) (post : List (K × C)) :
    plug pre c ((k, d) :: post) = plug (pre ++ [(c, k)]) d post := by
  rw [plug_post, plug_pre]

/-- Every child of a node can be pointed at. -/
theorem exists_plug {n : Node K C} {c : C} (child : c ∈ n.children) :
    ∃ pre post, n = plug pre c post := by
  obtain ⟨left, recs⟩ := n
  induction recs generalizing left with
  | nil =>
      have : c = left := by simpa [children] using child
      exact ⟨[], [], by rw [this]; rfl⟩
  | cons r recs ih =>
      rcases List.mem_cons.mp child with here | later
      · exact ⟨[], r :: recs, by rw [here]; rfl⟩
      · obtain ⟨pre, post, same⟩ := ih r.2 later
        refine ⟨(left, r.1) :: pre, post, ?_⟩
        rw [plug_cons, ← same]
        rfl

/-- The node with the children and separators of `n` in the place of one child. -/
def splice (pre : List (C × K)) (n : Node K C) (post : List (K × C)) : Node K C :=
  plug pre n.left (n.recs ++ post)

@[simp] theorem splice_single (pre : List (C × K)) (c : C) (post : List (K × C)) :
    splice pre ⟨c, []⟩ post = plug pre c post := rfl

@[simp] theorem splice_two (pre : List (C × K)) (c : C) (k : K) (d : C) (post : List (K × C)) :
    splice pre ⟨c, [(k, d)]⟩ post = plug pre c ((k, d) :: post) := rfl

@[simp] theorem children_splice (pre : List (C × K)) (n : Node K C) (post : List (K × C)) :
    (splice pre n post).children = pre.map Prod.fst ++ (n.children ++ post.map Prod.snd) := by
  rw [splice, children_plug, List.map_append]
  rfl

@[simp] theorem size_splice (pre : List (C × K)) (n : Node K C) (post : List (K × C)) :
    (splice pre n post).size = pre.length + n.size + post.length := by
  rw [splice, size_plug, List.length_append, Nat.add_assoc]
  rfl

/-! ## Inserting and erasing a record -/

/-- The record `(k, c)` put at index `i`. -/
def insertAt (i : Nat) (k : K) (c : C) (n : Node K C) : Node K C :=
  ⟨n.left, n.recs.insertIdx i (k, c)⟩

/-- The record at index `i` taken out. -/
def eraseAt (i : Nat) (n : Node K C) : Node K C := ⟨n.left, n.recs.eraseIdx i⟩

theorem recs_plug_cons (d : C) (s : K) (pre : List (C × K)) (c : C) (post : List (K × C)) :
    (plug ((d, s) :: pre) c post).recs = (s, (plug pre c post).left) :: (plug pre c post).recs :=
  rfl

theorem left_plug_congr (pre : List (C × K)) (c : C) (post post' : List (K × C)) :
    (plug pre c post).left = (plug pre c post').left := by
  cases pre <;> rfl

/-- Inserting right after the child pointed at. -/
theorem insertAt_plug (pre : List (C × K)) (c : C) (post : List (K × C)) (k : K) (d : C) :
    (plug pre c post).insertAt pre.length k d = plug pre c ((k, d) :: post) := by
  induction pre with
  | nil => rfl
  | cons e pre ih =>
      have tail : (plug pre c post).recs.insertIdx pre.length (k, d) =
          (plug pre c ((k, d) :: post)).recs := congrArg Node.recs ih
      obtain ⟨x, s⟩ := e
      simp only [insertAt, recs_plug_cons, List.length_cons, List.insertIdx_succ_cons, tail,
        left_plug_congr pre c post ((k, d) :: post)]
      rfl

/-- Erasing the record right after the child pointed at. -/
theorem eraseAt_plug (pre : List (C × K)) (c : C) (k : K) (d : C) (post : List (K × C)) :
    (plug pre c ((k, d) :: post)).eraseAt pre.length = plug pre c post := by
  induction pre with
  | nil => rfl
  | cons e pre ih =>
      have tail : (plug pre c ((k, d) :: post)).recs.eraseIdx pre.length = (plug pre c post).recs :=
        congrArg Node.recs ih
      obtain ⟨x, s⟩ := e
      simp only [eraseAt, recs_plug_cons, List.length_cons, List.eraseIdx_cons_succ, tail,
        left_plug_congr pre c ((k, d) :: post) post]
      rfl

theorem recs_plug_getElem? (pre : List (C × K)) (c : C) (post : List (K × C)) (i : Nat) :
    (plug pre c post).recs[pre.length + i]? = post[i]? := by
  induction pre with
  | nil => simp
  | cons e pre ih =>
      rw [recs_plug_cons, List.length_cons, show pre.length + 1 + i = (pre.length + i) + 1 by omega,
        List.getElem?_cons_succ, ih]

/-- Changing the separator right after the child pointed at. -/
theorem recs_plug_set (pre : List (C × K)) (c : C) (k k' : K) (d : C) (post : List (K × C)) :
    (plug pre c ((k, d) :: post)).recs.set pre.length (k', d) =
      (plug pre c ((k', d) :: post)).recs := by
  induction pre with
  | nil => rfl
  | cons e pre ih =>
      rw [recs_plug_cons, recs_plug_cons, List.length_cons, List.set_cons_succ, ih,
        left_plug_congr pre c ((k, d) :: post) ((k', d) :: post)]

/-! ## Looking up a child or a separator -/

section Lookup

/-- In a list without an earlier copy, an element is found where it stands. -/
theorem findIdx_append_cons {α : Type} [DecidableEq α] {l : List α} {a : α} (new : a ∉ l)
    (l' : List α) : (l ++ a :: l').findIdx (fun b => b = a) = l.length := by
  have missed : l.findIdx (fun b => b = a) = l.length := by
    rw [List.findIdx_eq_length]
    intro b member
    simpa using fun same : b = a => new (same ▸ member)
  simp [List.findIdx_append, missed, List.findIdx_cons]

theorem children_findIdx [DecidableEq C] (n : Node K C) (c : C) :
    n.children.findIdx (fun d => d = c) =
      if n.left = c then 0 else n.recs.findIdx (fun r => r.2 = c) + 1 := by
  by_cases here : n.left = c
  · simp [children, List.findIdx_cons, here]
  · simp [children, List.findIdx_cons, here, List.findIdx_map, Function.comp_def]

/-- Among different children, the one pointed at is found at its index. -/
theorem children_findIdx_plug [DecidableEq C] {pre : List (C × K)} {c : C}
    {post : List (K × C)} (distinct : (plug pre c post).children.Nodup) :
    (plug pre c post).children.findIdx (fun d => d = c) = pre.length := by
  rw [children_plug] at distinct ⊢
  have new : c ∉ pre.map Prod.fst := fun member =>
    (List.nodup_append.mp distinct).2.2 c member c (by simp) rfl
  rw [findIdx_append_cons new]
  simp

/-- Among different separators, the one after a pointer is found at its index. -/
theorem recs_findIdx_plug [DecidableEq K] {pre : List (C × K)} {c : C} {k : K} {d : C}
    {post : List (K × C)} (distinct : (plug pre c ((k, d) :: post)).seps.Nodup) :
    (plug pre c ((k, d) :: post)).recs.findIdx (fun r => r.1 = k) = pre.length := by
  have same : ∀ n : Node K C, n.recs.findIdx (fun r => r.1 = k) =
      n.seps.findIdx (fun s => s = k) := fun n => by
    simp [seps, List.findIdx_map, Function.comp_def]
  rw [same]
  rw [seps_plug, List.map_cons] at distinct ⊢
  have new : k ∉ pre.map Prod.snd := fun member =>
    (List.nodup_append.mp distinct).2.2 k member k (by simp) rfl
  rw [findIdx_append_cons new]
  simp

end Lookup

/-! ## Finding the child for a key -/

section Focus

variable [LinearOrder K]

/-- The child a search for `k` descends into: the one after the last separator
before the first that is greater than `k`. -/
def focusFrom (k : K) : C → List (K × C) → List (C × K) × C × List (K × C)
  | c, [] => ([], c, [])
  | c, (s, d) :: rest =>
      if k < s then ([], c, (s, d) :: rest)
      else ((c, s) :: (focusFrom k d rest).1, (focusFrom k d rest).2)

def focus (k : K) (n : Node K C) : List (C × K) × C × List (K × C) := focusFrom k n.left n.recs

theorem plug_focusFrom (k : K) (c : C) (recs : List (K × C)) :
    plug (focusFrom k c recs).1 (focusFrom k c recs).2.1 (focusFrom k c recs).2.2 = ⟨c, recs⟩ := by
  induction recs generalizing c with
  | nil => rfl
  | cons r rest ih =>
      obtain ⟨s, d⟩ := r
      simp only [focusFrom]
      split
      · rfl
      · rw [plug_cons, ih]
        rfl

theorem plug_focus (k : K) (n : Node K C) :
    plug (n.focus k).1 (n.focus k).2.1 (n.focus k).2.2 = n :=
  plug_focusFrom k n.left n.recs

theorem focusFrom_map (f : C → D) (k : K) (c : C) (recs : List (K × C)) :
    focusFrom k (f c) (recs.map fun r => (r.1, f r.2)) =
      ((focusFrom k c recs).1.map (fun e => (f e.1, e.2)), f (focusFrom k c recs).2.1,
        (focusFrom k c recs).2.2.map fun r => (r.1, f r.2)) := by
  induction recs generalizing c with
  | nil => rfl
  | cons r rest ih =>
      simp only [List.map_cons, focusFrom]
      split
      · rfl
      · rw [ih]
        rfl

theorem focus_map (f : C → D) (k : K) (n : Node K C) :
    (n.map f).focus k =
      ((n.focus k).1.map (fun e => (f e.1, e.2)), f (n.focus k).2.1,
        (n.focus k).2.2.map fun r => (r.1, f r.2)) :=
  focusFrom_map f k n.left n.recs

/-- The search ends at the child whose index is that of the first separator
greater than the key. -/
theorem focus_child (k : K) (n : Node K C) :
    n.children[n.recs.findIdx fun r => k < r.1]? = some (n.focus k).2.1 := by
  obtain ⟨left, recs⟩ := n
  simp only [focus]
  induction recs generalizing left with
  | nil => rfl
  | cons r rest ih =>
      simp only [children_mk] at ih
      by_cases stop : k < r.1
      · simp [List.findIdx_cons, stop, focusFrom]
      · simpa [List.findIdx_cons, stop, focusFrom] using ih r.2

theorem focus_mem (k : K) (n : Node K C) : (n.focus k).2.1 ∈ n.children := by
  have parts := children_plug (n.focus k).1 (n.focus k).2.1 (n.focus k).2.2
  rw [plug_focus] at parts
  simp [parts]

/-- Every separator the search passed is at most the key ... -/
theorem focus_before (k : K) (n : Node K C) : ∀ e ∈ (n.focus k).1, e.2 ≤ k := by
  obtain ⟨left, recs⟩ := n
  simp only [focus]
  induction recs generalizing left with
  | nil => simp [focusFrom]
  | cons r rest ih =>
      intro e member
      simp only [focusFrom] at member
      split at member
      · simp at member
      · rename_i passed
        rcases List.mem_cons.mp member with rfl | later
        · exact not_lt.mp passed
        · exact ih r.2 e later

/-- ... and the one it stopped at is greater. -/
theorem focus_after (k : K) (n : Node K C) : ∀ r ∈ (n.focus k).2.2.head?, k < r.1 := by
  obtain ⟨left, recs⟩ := n
  simp only [focus]
  induction recs generalizing left with
  | nil => simp [focusFrom]
  | cons r rest ih =>
      simp only [focusFrom]
      split
      · simpa
      · exact ih r.2

/-- The search stops at a child whose separators fence the key in. -/
theorem focus_plug (k : K) (pre : List (C × K)) (c : C) (post : List (K × C))
    (before : ∀ e ∈ pre, e.2 ≤ k) (after : ∀ r ∈ post.head?, k < r.1) :
    (plug pre c post).focus k = (pre, c, post) := by
  induction pre with
  | nil =>
      cases post with
      | nil => rfl
      | cons r post =>
          have : k < r.1 := after r (by simp)
          simp [focus, focusFrom, this]
  | cons e pre ih =>
      have passed : ¬ k < e.2 := not_lt.mpr (before e (by simp))
      have rest := ih fun e member => before e (by simp [member])
      simp only [focus] at rest
      simp [focus, plug, focusFrom, passed, rest]

end Focus

end Node

end SimpleDatabase.Theory
