/- Theory.Path -- a tree with a hole, from the hole up

An operation on a B+ tree finds a leaf and then works its way up.  `Path K V h` is what
it leaves behind: for a hole of height `h`, the page above it with the children before
and after the hole, then the page above that, up to the root.  `plug` fills the hole;
`walk` takes a tree apart along the path a search takes, and `plug_walk` says that
nothing is lost.

`Good L a b path` is what is to be known of the rest of a tree for whatever is put into
the hole to make it whole: it has to lie in `[a, b)` and be filled (`plug_valid`).
-/
import SimpleDatabase.Theory.BPlusTree

namespace SimpleDatabase.Theory

set_option autoImplicit false

/-- What is above and beside a hole of height `h`. -/
inductive Path (K V : Type) : Nat → Type
  | top {h : Nat} : Path K V h
  | under {h : Nat} (pg : Nat) (pre : List (PageTree K V h × K)) (post : List (K × PageTree K V h))
      (up : Path K V (h + 1)) : Path K V h

namespace Path

open PageTree

variable {K V : Type} {h : Nat}

def plug : {h : Nat} → Path K V h → PageTree K V h → Σ h, PageTree K V h
  | _, .top, s => ⟨_, s⟩
  | _, .under pg pre post up, s => up.plug (branch pg (Node.plug pre s post))

/-- The page above the hole, 0 if there is none. -/
def parent : {h : Nat} → Path K V h → Nat
  | _, .top => 0
  | _, .under pg _ _ _ => pg

/-- The first leaf page behind the hole, 0 if there is none. -/
def next : {h : Nat} → Path K V h → Nat
  | _, .top => 0
  | _, .under _ _ post up => (post.map fun r => r.2.firstLeaf).headD up.next

/-- The root's page, if the page in the hole is `pg`. -/
def rootPage : {h : Nat} → Path K V h → Nat → Nat
  | _, .top, pg => pg
  | _, .under pg _ _ up, _ => up.rootPage pg

/-- The records before the hole, ... -/
def before : {h : Nat} → Path K V h → List (K × V)
  | _, .top => []
  | _, .under _ pre _ up => up.before ++ pre.flatMap fun e => e.1.records

/-- ... and the ones behind it. -/
def after : {h : Nat} → Path K V h → List (K × V)
  | _, .top => []
  | _, .under _ _ post up => (post.flatMap fun r => r.2.records) ++ up.after

theorem plug_pg (path : Path K V h) (s : PageTree K V h) : (path.plug s).2.pg = path.rootPage s.pg := by
  induction path with
  | top => rfl
  | under pg pre post up ih => exact ih _

theorem plug_records (path : Path K V h) (s : PageTree K V h) :
    (path.plug s).2.records = path.before ++ (s.records ++ path.after) := by
  induction path with
  | top => simp [plug, before, after]
  | under pg pre post up ih =>
      rw [plug, ih, records_succ, root_branch, flatMap_plug]
      simp only [before, after, List.append_assoc]

/-! ## Taking a tree apart -/

section Walk

variable [LinearOrder K]

/-- The path of a search for `k`, and the leaf it ends in. -/
def walk (k : K) : {h : Nat} → PageTree K V h → Path K V h → Path K V 0 × PageTree K V 0
  | 0, s, path => (path, s)
  | _ + 1, s, path =>
      walk k (s.root.focus k).2.1 (.under s.pg (s.root.focus k).1 (s.root.focus k).2.2 path)

theorem walk_leaf (k : K) (s : PageTree K V h) (path : Path K V h) :
    (walk k s path).2 = s.leafFor k := by
  induction h with
  | zero => rfl
  | succ h ih => exact ih _ _

theorem plug_walk (k : K) (s : PageTree K V h) (path : Path K V h) :
    (walk k s path).1.plug (walk k s path).2 = path.plug s := by
  induction h with
  | zero => rfl
  | succ h ih =>
      have whole : branch s.pg (Node.plug (s.root.focus k).1 (s.root.focus k).2.1 (s.root.focus k).2.2) = s :=
        branch_focus k s
      rw [walk, ih, plug, whole]

end Walk

end Path

/-! ## What the rest of a tree has to be -/

theorem Node.Below.imp {K C : Type} [LinearOrder K] {P Q : WithBot K → WithTop K → C → Prop}
    (weaker : ∀ a b c, P a b c → Q a b c) {pre : List (C × K)} {lo a : WithBot K}
    (below : Node.Below P lo pre a) : Node.Below Q lo pre a := by
  induction pre generalizing lo with
  | nil => exact below
  | cons e pre ih => exact ⟨weaker _ _ _ below.1, ih below.2⟩

theorem Node.Above.imp {K C : Type} [LinearOrder K] {P Q : WithBot K → WithTop K → C → Prop}
    (weaker : ∀ a b c, P a b c → Q a b c) {post : List (K × C)} {b hi : WithTop K}
    (above : Node.Above P b post hi) : Node.Above Q b post hi := by
  cases post with
  | nil => exact above
  | cons r post => exact ⟨above.1, Node.Fenced.imp (fun _ _ _ _ inside => weaker _ _ _ inside) above.2⟩

namespace Path

open PageTree

variable {K V : Type} {h : Nat}

section Good

variable (L : Limits)

/-- The least number of keys in the hole. -/
def floor : {h : Nat} → Path K V h → Nat
  | _, .top => 1
  | h, .under _ _ _ _ => L.lo h

variable [LinearOrder K]

/-- A tree in `[a, b)` makes the tree whole. -/
def Good : {h : Nat} → WithBot K → WithTop K → Path K V h → Prop
  | _, a, b, .top => a = ⊥ ∧ b = ⊤
  | h, a, b, .under _ pre post up =>
      ∃ a' b', Node.Below (Kid L) a' pre a ∧ Node.Above (Kid L) b post b' ∧ up.Good a' b' ∧
        up.floor L ≤ pre.length + post.length ∧ pre.length + post.length ≤ L.hi (h + 1)

variable {L} {a : WithBot K} {b : WithTop K}

/-- **Filling the hole.** -/
theorem plug_valid {path : Path K V h} (good : path.Good L a b) {s : PageTree K V h}
    (ordered : Ordered L a b s) (enough : path.floor L ≤ s.size) (fits : s.size ≤ L.hi h) :
    Valid L (path.plug s).2 := by
  induction path generalizing a b with
  | top =>
      obtain ⟨rfl, rfl⟩ := good
      exact ⟨ordered, enough, fits⟩
  | under pg pre post up ih =>
      obtain ⟨a', b', before, behind, good, low, high⟩ := good
      have size : (branch pg (Node.plug pre s post)).size = pre.length + post.length :=
        Node.size_plug _ _ _
      refine ih good ?_ (by omega) (by omega)
      exact (ordered_plug _ _ _ _).mpr ⟨a, b, before, ⟨ordered, enough, fits⟩, behind⟩

/-- The separators beside the hole are different. -/
theorem seps_nodup {pg : Nat} {pre : List (PageTree K V h × K)} {post : List (K × PageTree K V h)}
    {up : Path K V (h + 1)} (good : (Path.under pg pre post up).Good L a b) (apart : Apart a b)
    (s : PageTree K V h) : (Node.plug pre s post).seps.Nodup := by
  obtain ⟨a', b', before, behind, -⟩ := good
  have kids : ∀ a b (c : PageTree K V h), Kid L a b c → Apart a b := fun _ _ _ kid => Kid.apart kid
  have fenced := (Node.fenced_plug (P := fun a b (_ : PageTree K V h) => Apart a b) pre s post).mpr
    ⟨a, b, before.imp kids, apart, behind.imp kids⟩
  exact (fenced_seps (fun _ _ _ apart => apart) fenced).1.imp fun less => ne_of_lt less

/-- **Opening one**: on the path of a search, the key is in the interval of every hole. -/
theorem walk_good {path : Path K V h} (good : path.Good L a b) {s : PageTree K V h}
    (ordered : Ordered L a b s) (enough : path.floor L ≤ s.size) (fits : s.size ≤ L.hi h) {k : K}
    (between : Between a b k) :
    ∃ a' b', (walk k s path).1.Good L a' b' ∧ Ordered L a' b' (walk k s path).2 ∧
      (walk k s path).1.floor L ≤ (walk k s path).2.size ∧ (walk k s path).2.size ≤ L.hi 0 ∧
      Between a' b' k := by
  induction h generalizing a b with
  | zero => exact ⟨a, b, good, ordered, enough, fits, between⟩
  | succ h ih =>
      have whole := ordered
      rw [eq_branch s, ← Node.plug_focus k s.root, ordered_plug] at whole
      obtain ⟨a', b', before, kid, behind⟩ := whole
      have size : s.size = (s.root.focus k).1.length + (s.root.focus k).2.2.length := by
        conv_lhs => rw [eq_branch s, ← Node.plug_focus k s.root]
        exact Node.size_plug _ _ _
      have inside : Between a' b' k :=
        ⟨before.bound between.1 (s.root.focus_before k), behind.bound between.2 (s.root.focus_after k)⟩
      apply ih (a := a') (b := b') ?_ kid.1 ?_ kid.2.2 inside
      · exact ⟨a, b, before, behind, good, size ▸ enough, size ▸ fits⟩
      · exact kid.2.1

end Good

/-- The path of a search through a whole tree. -/
theorem walk_records [LinearOrder K] (k : K) (s : PageTree K V h) :
    s.records = (walk k s .top).1.before ++ ((s.leafFor k).records ++ (walk k s .top).1.after) := by
  have whole := plug_records (walk k s .top).1 (walk k s .top).2
  rwa [plug_walk, walk_leaf] at whole

theorem walk_rootPage [LinearOrder K] (k : K) (s : PageTree K V h) :
    (walk k s .top).1.rootPage (s.leafFor k).pg = s.pg := by
  rw [← walk_leaf k s .top, ← plug_pg, plug_walk]
  rfl

end Path

theorem PageTree.Valid.walk {K V : Type} [LinearOrder K] {L : Limits} {h : Nat} {s : PageTree K V h}
    (valid : PageTree.Valid L s) (k : K) :
    ∃ a b, (Path.walk k s .top).1.Good L a b ∧ PageTree.Ordered L a b (s.leafFor k) ∧
      (Path.walk k s .top).1.floor L ≤ (s.leafFor k).size ∧ (s.leafFor k).size ≤ L.hi 0 ∧ Between a b k := by
  have top : (Path.top : Path K V h).Good L ⊥ ⊤ := ⟨rfl, rfl⟩
  rw [← Path.walk_leaf k s .top]
  exact Path.walk_good top valid.ordered valid.pos valid.fits ⟨bot_le, WithTop.coe_lt_top k⟩

end SimpleDatabase.Theory
