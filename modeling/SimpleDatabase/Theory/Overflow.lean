/- Theory.Overflow -- an overfull page, settled from the bottom up

`Overflows L path s T`: with `s` in the hole the tree becomes `T`.  If the root page of
`s` has a key too many it is cut in two, its right half goes to another page and the
separator between them into the page above, which may have a key too many in turn; the
two halves of the root get a page above them.  Any page may serve as the new one.

Whatever the pages, no record moves to another place (`Overflows.records`) and the tree
is valid again (`Overflows.valid`), if one key too many is all that was wrong with it.
-/
import SimpleDatabase.Theory.Path
import SimpleDatabase.Theory.Growth

namespace SimpleDatabase.Theory

open PageTree

set_option autoImplicit false

variable {K V : Type}

/-- `s` cut in two at the least size its left half may have. -/
structure Cut (L : Limits) {h : Nat} (s l : PageTree K V h) (k : K) (r : PageTree K V h) : Prop where
  joined : s = join l k r
  left : l.size = L.lo h
  first : h = 0 → k ∈ r.keys.head?

/-- The halves of a page with one key too many are pages as they should be. -/
theorem Cut.kids [LinearOrder K] {L : Limits} {h : Nat} {s l r : PageTree K V h} {k : K}
    {a : WithBot K} {b : WithTop K} (cut : Cut L s l k r) (ordered : Ordered L a b s)
    (size : s.size = L.hi h + 1) : Kid L a k l ∧ Kid L k b r := by
  have pos := L.pos h
  have le := L.lo_le h
  have total := size_join l k r
  rw [← cut.joined, cut.left, size] at total
  rw [cut.joined] at ordered
  obtain ⟨left, right⟩ := ordered.of_join (by rw [cut.left]; exact pos) cut.first
  refine ⟨⟨left, cut.left.ge, cut.left.trans_le le⟩, right, ?_, ?_⟩
  · cases h with
    | zero =>
        have := L.leaf
        rw [if_pos rfl] at total
        omega
    | succ h =>
        have := L.inner h
        rw [if_neg (Nat.succ_ne_zero h)] at total
        omega
  · split at total <;> omega

inductive Overflows (L : Limits) : {h : Nat} → Path K V h → PageTree K V h → (Σ h, PageTree K V h) → Prop
  | fits {h : Nat} (path : Path K V h) {s : PageTree K V h} : s.size ≤ L.hi h →
      Overflows L path s (path.plug s)
  | root {h : Nat} {s l r : PageTree K V h} {k : K} (pg : Nat) : L.hi h < s.size → Cut L s l k r →
      Overflows L .top s ⟨h + 1, branch pg ⟨l, [(k, r)]⟩⟩
  | split {h : Nat} {s l r : PageTree K V h} {k : K} {pg : Nat} {pre : List (PageTree K V h × K)}
      {post : List (K × PageTree K V h)} {up : Path K V (h + 1)} {T : Σ h, PageTree K V h} :
      L.hi h < s.size → Cut L s l k r →
      Overflows L up (branch pg (Node.plug pre l ((k, r) :: post))) T →
      Overflows L (.under pg pre post up) s T

/-- What `l` and `r`, in the place of one page, make of the tree. -/
def Posts (L : Limits) {h : Nat} (path : Path K V h) (l : PageTree K V h) (k : K) (r : PageTree K V h)
    (T : Σ h, PageTree K V h) : Prop :=
  match path with
  | .top => ∃ pg, T = ⟨h + 1, branch pg ⟨l, [(k, r)]⟩⟩
  | .under pg pre post up => Overflows L up (branch pg (Node.plug pre l ((k, r) :: post))) T

namespace Overflows

theorem of_posts {L : Limits} {h : Nat} {path : Path K V h} {s l r : PageTree K V h} {k : K}
    {T : Σ h, PageTree K V h} (full : L.hi h < s.size) (cut : Cut L s l k r) (posts : Posts L path l k r T) :
    Overflows L path s T := by
  cases path with
  | top =>
      obtain ⟨pg, rfl⟩ := posts
      exact .root pg full cut
  | under pg pre post up => exact .split full cut posts

variable {L : Limits} {h : Nat} {path : Path K V h} {s : PageTree K V h} {T : Σ h, PageTree K V h}

theorem records (overflows : Overflows L path s T) :
    T.2.records = path.before ++ (s.records ++ path.after) := by
  induction overflows with
  | fits path _ => exact path.plug_records _
  | root pg _ cut =>
      rw [cut.joined, records_join]
      simp [records_succ, Path.before, Path.after]
  | split _ cut _ ih =>
      rw [ih, cut.joined, records_join, records_succ, root_branch, flatMap_plug]
      simp only [Path.before, Path.after, List.flatMap_cons, List.append_assoc]

/-! ## Validity -/

variable [LinearOrder K] {a : WithBot K} {b : WithTop K}

/-- **One key too many is settled.** -/
theorem valid (overflows : Overflows L path s T) (good : path.Good L a b)
    (ordered : Ordered L a b s) (enough : path.floor L ≤ s.size) (size : s.size ≤ L.hi h + 1) :
    Valid L T.2 := by
  induction overflows generalizing a b with
  | fits path fits => exact Path.plug_valid good ordered enough fits
  | @root h s l r k pg full cut =>
      obtain ⟨rfl, rfl⟩ := good
      obtain ⟨left, right⟩ := cut.kids ordered (by omega)
      refine ⟨⟨left, right⟩, Nat.le_refl 1, ?_⟩
      have := L.pos (h + 1)
      have := L.lo_le (h + 1)
      show 1 ≤ L.hi (h + 1)
      omega
  | @split h s l r k pg pre post up T full cut above ih =>
      obtain ⟨left, right⟩ := cut.kids ordered (by omega)
      obtain ⟨a', b', before, behind, good, low, high⟩ := good
      have size : (branch pg (Node.plug pre l ((k, r) :: post))).size = pre.length + (post.length + 1) :=
        Node.size_plug _ _ _
      refine ih good ?_ (by omega) (by omega)
      refine (ordered_plug _ _ _ _).mpr ⟨a, k, before, left, rfl, ?_⟩
      exact (Node.fenced_iff_above r post).mpr ⟨b, right, behind⟩

/-- **Insertion**: what the leaf a search ends in makes of the tree with one record more. -/
theorem insert {s : PageTree K V h} (valid : Valid L s) {k : K} (new : k ∉ s.keys) {v : V}
    (overflows : Overflows L (Path.walk k s .top).1 (insertRecord k v (s.leafFor k)) T) :
    Valid L T.2 ∧ T.2.records.Perm ((k, v) :: s.records) := by
  have : Inhabited K := ⟨k⟩
  obtain ⟨a, b, good, ordered, enough, fits, between⟩ := valid.walk k
  have new : k ∉ (s.leafFor k).keys := fun held => new (mem_keys_of_leaf (s.leafFor_mem k) held)
  have size : (insertRecord k v (s.leafFor k)).size = (s.leafFor k).size + 1 := insertRecord_size _
  have ordered : Ordered L a b (insertRecord k v (s.leafFor k)) := by
    obtain ⟨apart, sorted, inside⟩ := ordered
    have sorted : LeavesSorted (s.leafFor k) := fun l member => List.mem_singleton.mp member ▸ sorted
    refine ⟨apart, insertRecord_leavesSorted sorted new _ (List.mem_singleton_self _), fun x member => ?_⟩
    rcases (mem_insertRecord_keys _ x).mp member with rfl | old
    · exact between
    · exact inside x old
  refine ⟨overflows.valid good ordered (by omega) (by omega), ?_⟩
  rw [overflows.records, Path.walk_records k s]
  refine (List.Perm.append_left _ ((insertRecord_records _).append_right _)).trans ?_
  rw [List.cons_append]
  exact List.perm_middle

end Overflows

end SimpleDatabase.Theory
