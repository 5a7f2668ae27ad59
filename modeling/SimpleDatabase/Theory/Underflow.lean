/- Theory.Underflow -- a page with a key too few, settled from the bottom up

`Underflows L path s T`: with `s` in the hole the tree becomes `T`, or nothing is left
of it.  If the root page of `s` has a key too few it is merged with the page before it,
or the one behind it if it is the first; where the two do not fit into one page, they
share out their records anew, one moving over.  A merge takes a key from the page above,
which may have too few in turn; a root without keys gives way to its only child.

Sharing is stated as cutting the merged page at another place: that is what both halves
have in common with the ones before (`Share`).
-/
import SimpleDatabase.Theory.Path
import SimpleDatabase.Theory.Shrink

namespace SimpleDatabase.Theory

open PageTree

set_option autoImplicit false

variable {K V : Type}

/-- The neighbours `l` and `r` share anew what they have: `l'` holds `left` keys of it. -/
structure Share {h : Nat} (l : PageTree K V h) (k : K) (r : PageTree K V h) (left : Nat)
    (l' : PageTree K V h) (k' : K) (r' : PageTree K V h) : Prop where
  joined : join l k r = join l' k' r'
  size : l'.size = left
  first : h = 0 → k' ∈ r'.keys.head?

inductive Underflows (L : Limits) :
    {h : Nat} → Path K V h → PageTree K V h → Option (Σ h, PageTree K V h) → Prop
  | root {h : Nat} {s : PageTree K V h} : 1 ≤ s.size → Underflows L .top s (some ⟨h, s⟩)
  | none {s : PageTree K V 0} : s.size = 0 → Underflows L .top s none
  | promote {h : Nat} (pg : Nat) (s : PageTree K V h) :
      Underflows L .top (branch pg ⟨s, []⟩) (some ⟨h, s⟩)
  | enough {h : Nat} {s : PageTree K V h} (pg : Nat) (pre : List (PageTree K V h × K))
      (post : List (K × PageTree K V h)) (up : Path K V (h + 1)) : L.lo h ≤ s.size →
      Underflows L (.under pg pre post up) s (some ((Path.under pg pre post up).plug s))
  | mergeLeft {h : Nat} {l s : PageTree K V h} {k : K} {pg : Nat} {pre : List (PageTree K V h × K)}
      {post : List (K × PageTree K V h)} {up : Path K V (h + 1)} {T : Option (Σ h, PageTree K V h)} :
      s.size < L.lo h → (join l k s).size ≤ L.hi h →
      Underflows L up (branch pg (Node.plug pre (join l k s) post)) T →
      Underflows L (.under pg (pre ++ [(l, k)]) post up) s T
  | mergeRight {h : Nat} {s r : PageTree K V h} {k : K} {pg : Nat} {post : List (K × PageTree K V h)}
      {up : Path K V (h + 1)} {T : Option (Σ h, PageTree K V h)} :
      s.size < L.lo h → (join s k r).size ≤ L.hi h →
      Underflows L up (branch pg (Node.plug [] (join s k r) post)) T →
      Underflows L (.under pg [] ((k, r) :: post) up) s T
  | shareLeft {h : Nat} {l s l' s' : PageTree K V h} {k k' : K} (pg : Nat)
      (pre : List (PageTree K V h × K)) (post : List (K × PageTree K V h)) (up : Path K V (h + 1)) :
      s.size < L.lo h → L.hi h < (join l k s).size → Share l k s (l.size - 1) l' k' s' →
      Underflows L (.under pg (pre ++ [(l, k)]) post up) s
        (some (up.plug (branch pg (Node.plug pre l' ((k', s') :: post)))))
  | shareRight {h : Nat} {s r s' r' : PageTree K V h} {k k' : K} (pg : Nat)
      (post : List (K × PageTree K V h)) (up : Path K V (h + 1)) :
      s.size < L.lo h → L.hi h < (join s k r).size → Share s k r (s.size + 1) s' k' r' →
      Underflows L (.under pg [] ((k, r) :: post) up) s
        (some (up.plug (branch pg (Node.plug [] s' ((k', r') :: post)))))

/-- The records of a tree, if there is one. -/
def recordsOf : Option (Σ h, PageTree K V h) → List (K × V)
  | none => []
  | some T => T.2.records

namespace Underflows

variable {L : Limits} {h : Nat} {path : Path K V h} {s : PageTree K V h}
  {T : Option (Σ h, PageTree K V h)}

theorem records_two (pg : Nat) (pre : List (PageTree K V h × K)) (l : PageTree K V h) (k : K)
    (r : PageTree K V h) (post : List (K × PageTree K V h)) :
    (branch pg (Node.plug pre l ((k, r) :: post))).records =
      pre.flatMap (fun e => e.1.records) ++ ((join l k r).records ++ post.flatMap fun e => e.2.records) := by
  rw [records_succ, root_branch, flatMap_plug, records_join, List.flatMap_cons, List.append_assoc]

theorem records (underflows : Underflows L path s T) :
    recordsOf T = path.before ++ (s.records ++ path.after) := by
  induction underflows with
  | root _ => simp [recordsOf, Path.before, Path.after]
  | @none s empty =>
      have empty : s.recs.length = 0 := empty
      simp [recordsOf, Path.before, Path.after, records_zero, List.eq_nil_of_length_eq_zero empty]
  | promote pg s => simp [recordsOf, Path.before, Path.after, records_succ]
  | enough pg pre post up _ => exact Path.plug_records _ _
  | mergeLeft _ _ _ ih =>
      rw [ih, records_succ, root_branch, flatMap_plug, records_join]
      simp [Path.before, Path.after]
  | mergeRight _ _ _ ih =>
      rw [ih, records_succ, root_branch, flatMap_plug, records_join]
      simp [Path.before, Path.after]
  | shareLeft pg pre post up _ _ share =>
      rw [recordsOf, Path.plug_records, records_two, ← share.joined, records_join]
      simp [Path.before, Path.after]
  | shareRight pg post up _ _ share =>
      rw [recordsOf, Path.plug_records, records_two, ← share.joined, records_join]
      simp [Path.before, Path.after]

end Underflows

/-! ## Validity -/

section Order

variable {L : Limits} {h : Nat} {a : WithBot K} {b : WithTop K} {l r l' r' : PageTree K V h} {k k' : K}
  {left : Nat}

/-- The last child before a pointer. -/
theorem Node.below_concat {C : Type} {P : WithBot K → WithTop K → C → Prop} {lo : WithBot K}
    (pre : List (C × K)) (d : C) (k : K) :
    Node.Below P lo (pre ++ [(d, k)]) a ↔ ∃ m, Node.Below P lo pre m ∧ P m k d ∧ a = k := by
  induction pre generalizing lo with
  | nil => simp [Node.Below]
  | cons e pre ih =>
      obtain ⟨d', s⟩ := e
      simp only [List.cons_append, Node.Below, ih]
      constructor
      · rintro ⟨here, m, rest, last⟩
        exact ⟨m, ⟨here, rest⟩, last⟩
      · rintro ⟨m, ⟨here, rest⟩, last⟩
        exact ⟨here, m, rest, last⟩

/-- The keys of both are as many as before. -/
theorem Share.total (share : Share l k r left l' k' r') : left + r'.size = l.size + r.size := by
  have total := size_join l k r
  rw [share.joined, size_join, share.size] at total
  omega

/-- A page that does not fit into one with another has a key to spare. -/
theorem spare {s d : PageTree K V h} (short : L.lo h = s.size + 1)
    (exceeds : L.hi h < s.size + d.size + if h = 0 then 0 else 1) : L.lo h + 1 ≤ d.size := by
  cases h with
  | zero =>
      have := L.leaf
      rw [if_pos rfl] at exceeds
      omega
  | succ h =>
      have := L.inner h
      rw [if_neg (Nat.succ_ne_zero h)] at exceeds
      omega

variable [LinearOrder K]

/-- Two neighbours in order, under a node. -/
theorem PageTree.ordered_two {pg : Nat} {pre : List (PageTree K V h × K)}
    {post : List (K × PageTree K V h)} {a' : WithBot K} {b' : WithTop K}
    (before : Node.Below (Kid L) a' pre a) (left : Kid L a k l) (right : Kid L k b r)
    (behind : Node.Above (Kid L) b post b') :
    Ordered L a' b' (branch pg (Node.plug pre l ((k, r) :: post))) :=
  (ordered_plug _ _ _ _).mpr
    ⟨a, k, before, left, rfl, (Node.fenced_iff_above r post).mpr ⟨b, right, behind⟩⟩

/-- Pages that have shared are as they should be. -/
theorem Share.kids (share : Share l k r left l' k' r') (ordered : Ordered L a b (join l k r))
    (low : L.lo h ≤ left) (high : left ≤ L.hi h) (low' : L.lo h + left ≤ l.size + r.size)
    (high' : l.size + r.size ≤ L.hi h + left) : Kid L a k' l' ∧ Kid L k' b r' := by
  have pos := L.pos h
  have total := share.total
  have size := share.size
  rw [share.joined] at ordered
  obtain ⟨first, second⟩ := ordered.of_join (by omega) share.first
  exact ⟨⟨first, by omega, by omega⟩, second, by omega, by omega⟩

/-- After a merge with the page before, the page above has lost a key at most, ... -/
theorem Path.good_mergeLeft {pg : Nat} {pre : List (PageTree K V h × K)} {post : List (K × PageTree K V h)}
    {up : Path K V (h + 1)} {s : PageTree K V h} (good : (Path.under pg (pre ++ [(l, k)]) post up).Good L a b)
    (ordered : Ordered L a b s) (merged : (join l k s).size ≤ L.hi h) :
    ∃ a' b', up.Good L a' b' ∧ Ordered L a' b' (branch pg (Node.plug pre (join l k s) post)) ∧
      up.floor L ≤ (branch pg (Node.plug pre (join l k s) post)).size + 1 ∧
      (branch pg (Node.plug pre (join l k s) post)).size ≤ L.hi (h + 1) := by
  obtain ⟨a', b', before, behind, good, low, high⟩ := good
  obtain ⟨m, earlier, left, rfl⟩ := (Node.below_concat _ _ _).mp before
  have size : (branch pg (Node.plug pre (join l k s) post)).size = pre.length + post.length :=
    Node.size_plug _ _ _
  have width := size_join l k s
  have enough := left.2.1
  rw [List.length_append, List.length_singleton] at low high
  refine ⟨a', b', good, ?_, by omega, by omega⟩
  exact (ordered_plug _ _ _ _).mpr ⟨m, b, earlier, ⟨left.1.join ordered, by omega, merged⟩, behind⟩

/-- ... and so it has after one with the page behind. -/
theorem Path.good_mergeRight {pg : Nat} {post : List (K × PageTree K V h)} {up : Path K V (h + 1)}
    {s : PageTree K V h} (good : (Path.under pg [] ((k, r) :: post) up).Good L a b) (ordered : Ordered L a b s)
    (merged : (join s k r).size ≤ L.hi h) :
    ∃ a' b', up.Good L a' b' ∧ Ordered L a' b' (branch pg (Node.plug [] (join s k r) post)) ∧
      up.floor L ≤ (branch pg (Node.plug [] (join s k r) post)).size + 1 ∧
      (branch pg (Node.plug [] (join s k r) post)).size ≤ L.hi (h + 1) := by
  obtain ⟨a', b', before, behind, good, low, high⟩ := good
  obtain ⟨rfl, fenced⟩ := behind
  obtain ⟨m, right, behind⟩ := (Node.fenced_iff_above r post).mp fenced
  have size : (branch pg (Node.plug [] (join s k r) post)).size = 0 + post.length := Node.size_plug _ _ _
  have width := size_join s k r
  have enough := right.2.1
  rw [List.length_nil, List.length_cons] at low high
  refine ⟨a', b', good, ?_, by omega, by omega⟩
  exact (ordered_plug _ _ _ _).mpr ⟨a, m, before, ⟨ordered.join right.1, by omega, merged⟩, behind⟩

/-- **One key too few is settled.** -/
theorem Underflows.valid {path : Path K V h} {s : PageTree K V h} {T : Option (Σ h, PageTree K V h)}
    (underflows : Underflows L path s T) (good : path.Good L a b) (ordered : Ordered L a b s)
    (short : path.floor L ≤ s.size + 1) (fits : s.size ≤ L.hi h) : ∀ t ∈ T, Valid L t.2 := by
  induction underflows generalizing a b with
  | root some_ =>
      rintro _ ⟨⟩
      obtain ⟨rfl, rfl⟩ := good
      exact ⟨ordered, some_, fits⟩
  | none _ => simp
  | @promote h pg s =>
      rintro _ ⟨⟩
      obtain ⟨rfl, rfl⟩ := good
      have kid : Kid L ⊥ ⊤ s := ordered
      exact ⟨kid.1, (L.pos h).trans kid.2.1, kid.2.2⟩
  | enough pg pre post up enough =>
      rintro _ ⟨⟩
      exact Path.plug_valid good ordered enough fits
  | @mergeLeft h l s k pg pre post up T few merged above ih =>
      obtain ⟨a', b', good, ordered, short, fits⟩ := Path.good_mergeLeft good ordered merged
      exact ih good ordered short fits
  | @mergeRight h s r k pg post up T few merged above ih =>
      obtain ⟨a', b', good, ordered, short, fits⟩ := Path.good_mergeRight good ordered merged
      exact ih good ordered short fits
  | @shareLeft h l s l' s' k k' pg pre post up few exceeds share =>
      rintro _ ⟨⟩
      obtain ⟨a', b', before, behind, good, low, high⟩ := good
      obtain ⟨m, earlier, left, rfl⟩ := (Node.below_concat _ _ _).mp before
      have short : L.lo h = s.size + 1 := by
        have : L.lo h ≤ s.size + 1 := short
        omega
      rw [size_join] at exceeds
      have := spare short (d := l) (by omega)
      have := left.2.2
      obtain ⟨first, second⟩ := share.kids (left.1.join ordered) (by omega) (by omega) (by omega) (by omega)
      have size : (branch pg (Node.plug pre l' ((k', s') :: post))).size = pre.length + (post.length + 1) :=
        Node.size_plug _ _ _
      rw [List.length_append, List.length_singleton] at low high
      exact Path.plug_valid good (ordered_two earlier first second behind) (by omega) (by omega)
  | @shareRight h s r s' r' k k' pg post up few exceeds share =>
      rintro _ ⟨⟩
      obtain ⟨a', b', before, behind, good, low, high⟩ := good
      obtain ⟨rfl, fenced⟩ := behind
      obtain ⟨m, right, behind⟩ := (Node.fenced_iff_above r post).mp fenced
      have short : L.lo h = s.size + 1 := by
        have : L.lo h ≤ s.size + 1 := short
        omega
      rw [size_join] at exceeds
      have := spare short exceeds
      have := right.2.2
      obtain ⟨first, second⟩ := share.kids (ordered.join right.1) (by omega) (by omega) (by omega) (by omega)
      have size : (branch pg (Node.plug [] s' ((k', r') :: post))).size = 0 + (post.length + 1) :=
        Node.size_plug _ _ _
      rw [List.length_nil, List.length_cons] at low high
      exact Path.plug_valid good (ordered_two before first second behind) (by omega) (by omega)

/-- The leaf a search ends in, with the record taken out: what the cascade starts from. -/
theorem PageTree.Valid.lost {s : PageTree K V h} (valid : Valid L s) {k : K} {v : V}
    (found : ((s.leafFor k).recs.find? fun r => r.1 = k) = some (k, v)) :
    ∃ a b, (Path.walk k s .top).1.Good L a b ∧ Ordered L a b (eraseRecord k (s.leafFor k)) ∧
      (Path.walk k s .top).1.floor L ≤ (eraseRecord k (s.leafFor k)).size + 1 ∧
      (eraseRecord k (s.leafFor k)).size ≤ L.hi 0 := by
  have : Inhabited K := ⟨k⟩
  obtain ⟨a, b, good, ordered, enough, fits, -⟩ := valid.walk k
  have key : k ∈ (s.leafFor k).keys := by
    rw [keys, records_zero]
    exact List.mem_map.mpr ⟨_, List.mem_of_find?_eq_some found, rfl⟩
  have size := eraseRecord_size key
  have sublist := eraseRecord_keys_sublist (k := k) (s.leafFor k)
  obtain ⟨apart, sorted, between⟩ := ordered
  refine ⟨a, b, good, ⟨apart, sorted.sublist sublist, fun x member => ?_⟩, by omega, by omega⟩
  exact between x (sublist.subset member)

/-- **Deletion**: what that leaf makes of the tree. -/
theorem Underflows.delete {s : PageTree K V h} (valid : Valid L s) {k : K} {v : V}
    (found : ((s.leafFor k).recs.find? fun r => r.1 = k) = some (k, v)) {T : Option (Σ h, PageTree K V h)}
    (underflows : Underflows L (Path.walk k s .top).1 (eraseRecord k (s.leafFor k)) T) :
    (∀ t ∈ T, Valid L t.2) ∧ s.records.Perm ((k, v) :: recordsOf T) := by
  have : Inhabited K := ⟨k⟩
  obtain ⟨a, b, good, ordered, short, fits⟩ := valid.lost found
  refine ⟨underflows.valid good ordered short fits, ?_⟩
  rw [underflows.records, Path.walk_records k s]
  refine (List.Perm.append_left _ ((eraseRecord_records found).append_right _)).trans ?_
  rw [List.cons_append]
  exact List.perm_middle

end Order

end SimpleDatabase.Theory
