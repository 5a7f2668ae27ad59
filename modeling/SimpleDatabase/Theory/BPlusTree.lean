/- Theory.BPlusTree -- B+ trees with any limits on their pages

`Limits` are the least and the greatest number of keys of a page, by its height; they
are such that an overfull page can be cut in two, and that two neighbours of which one
has a key too few can be merged or can share.

`Ordered L a b s` is one induction for all that an operation keeps below the root of
`s`: fill, search order within the interval `[a, b)`, sorted leaves.  The interval is
never empty (`Apart`), also where a leaf has just lost its only key, so separators
increase whatever the leaves hold.  `Valid` adds the limits of a root.
-/
import SimpleDatabase.Theory.SearchOrder

namespace SimpleDatabase.Theory

set_option autoImplicit false

/-- The least and the greatest number of keys of a page that is not the root. -/
structure Limits where
  lo : Nat → Nat
  hi : Nat → Nat
  pos : ∀ h, 1 ≤ lo h
  leaf : 2 * lo 0 ≤ hi 0 + 1
  inner : ∀ h, 2 * lo (h + 1) ≤ hi (h + 1)

theorem Limits.lo_le (L : Limits) (h : Nat) : L.lo h ≤ L.hi h := by
  have pos := L.pos h
  cases h with
  | zero =>
      have := L.leaf
      omega
  | succ h =>
      have := L.inner h
      omega

variable {K V : Type} [LinearOrder K]

/-- The interval `[a, b)` is not empty. -/
def Apart (a : WithBot K) (b : WithTop K) : Prop := ∀ k : K, (k : WithBot K) ≤ a → (k : WithTop K) < b

theorem Between.apart {a : WithBot K} {b : WithTop K} {k : K} (between : Between a b k) : Apart a b := by
  intro x le
  exact (WithTop.coe_le_coe.mpr (WithBot.coe_le_coe.mp (le.trans between.1))).trans_lt between.2

theorem Apart.trans {a : WithBot K} {k : K} {b : WithTop K} (left : Apart a k) (right : Apart k b) :
    Apart a b := by
  intro x le
  exact (left x le).trans (right k le_rfl)

theorem Apart.lt {k : K} {b : WithTop K} (apart : Apart k b) : (k : WithTop K) < b := apart k le_rfl

namespace PageTree

variable {h : Nat} {L : Limits}

/-- Below the root, everything is as it should be; the keys lie in `[a, b)`. -/
def Ordered (L : Limits) : {h : Nat} → WithBot K → WithTop K → PageTree K V h → Prop
  | 0, a, b, s => Apart a b ∧ s.keys.Pairwise (· < ·) ∧ ∀ k ∈ s.keys, Between a b k
  | h + 1, a, b, s =>
      Node.Fenced (fun a b c => Ordered L a b c ∧ L.lo h ≤ c.size ∧ c.size ≤ L.hi h)
        a s.root.left s.root.recs b

/-- A page below the root, with all under it. -/
def Kid (L : Limits) (a : WithBot K) (b : WithTop K) (s : PageTree K V h) : Prop :=
  Ordered L a b s ∧ L.lo h ≤ s.size ∧ s.size ≤ L.hi h

/-- A whole tree. -/
structure Valid (L : Limits) (s : PageTree K V h) : Prop where
  ordered : Ordered L ⊥ ⊤ s
  pos : 1 ≤ s.size
  fits : s.size ≤ L.hi h

variable {a : WithBot K} {b : WithTop K}

theorem ordered_succ (s : PageTree K V (h + 1)) :
    Ordered L a b s ↔ Node.Fenced (Kid L) a s.root.left s.root.recs b := Iff.rfl

/-- A tree around one child. -/
theorem ordered_plug (pg : Nat) (pre : List (PageTree K V h × K)) (c : PageTree K V h)
    (post : List (K × PageTree K V h)) :
    Ordered L a b (branch pg (Node.plug pre c post)) ↔
      ∃ a' b', Node.Below (Kid L) a pre a' ∧ Kid L a' b' c ∧ Node.Above (Kid L) b' post b := by
  rw [ordered_succ]
  exact Node.fenced_plug pre c post

/-! ## Intervals -/

theorem fenced_apart {C : Type} {P : WithBot K → WithTop K → C → Prop}
    (each : ∀ a b c, P a b c → Apart a b) {c : C} {recs : List (K × C)}
    (fenced : Node.Fenced P a c recs b) : Apart a b := by
  induction recs generalizing a c with
  | nil => exact each _ _ _ fenced
  | cons r recs ih =>
      obtain ⟨here, rest⟩ := fenced
      exact (each _ _ _ here).trans (ih rest)

theorem Ordered.apart {s : PageTree K V h} (ordered : Ordered L a b s) : Apart a b := by
  induction h generalizing a b with
  | zero => exact ordered.1
  | succ h ih => exact fenced_apart (fun _ _ _ kid => ih kid.1) ordered

theorem Kid.apart {s : PageTree K V h} (kid : Kid L a b s) : Apart a b := kid.1.apart

/-- Where every child has an interval of its own, the separators increase. -/
theorem fenced_seps {C : Type} {P : WithBot K → WithTop K → C → Prop}
    (each : ∀ a b c, P a b c → Apart a b) {c : C} {recs : List (K × C)}
    (fenced : Node.Fenced P a c recs b) :
    (recs.map Prod.fst).Pairwise (· < ·) ∧ ∀ k ∈ recs.map Prod.fst, a < k := by
  induction recs generalizing a c with
  | nil => simp
  | cons r recs ih =>
      obtain ⟨k, d⟩ := r
      obtain ⟨here, rest⟩ := fenced
      obtain ⟨sorted, above⟩ := ih rest
      have first : a < k := by
        cases a with
        | bot => exact WithBot.bot_lt_coe k
        | coe x => exact WithBot.coe_lt_coe.mpr (WithTop.coe_lt_coe.mp (each _ _ _ here).lt)
      refine ⟨List.pairwise_cons.mpr ⟨fun x member => ?_, sorted⟩, fun x member => ?_⟩
      · exact WithBot.coe_lt_coe.mp (above x member)
      · rcases List.mem_cons.mp member with rfl | later
        · exact first
        · exact first.trans (above x later)

/-! ## What an ordered tree is -/

theorem Ordered.within {s : PageTree K V h} (ordered : Ordered L a b s) : Within a b s := by
  induction h generalizing a b with
  | zero => exact ordered.2.2
  | succ h ih => exact Node.Fenced.imp (fun _ _ _ _ kid => ih kid.1) ordered

theorem Ordered.child {s : PageTree K V (h + 1)} (ordered : Ordered L a b s) {c : PageTree K V h}
    (child : c ∈ s.root.children) : ∃ a' b', Kid L a' b' c := by
  obtain ⟨pre, post, same⟩ := Node.exists_plug child
  rw [eq_branch s, same, ordered_plug] at ordered
  obtain ⟨a', b', -, kid, -⟩ := ordered
  exact ⟨a', b', kid⟩

theorem Ordered.fillBelow {s : PageTree K V h} (ordered : Ordered L a b s) :
    FillBelow L.lo L.hi s := by
  induction h generalizing a b with
  | zero => trivial
  | succ h ih =>
      intro c child
      obtain ⟨a', b', kid⟩ := ordered.child child
      exact Fill.of_root (ih kid.1) kid.2.1 kid.2.2

theorem Ordered.leavesSorted {s : PageTree K V h} (ordered : Ordered L a b s) : LeavesSorted s := by
  induction h generalizing a b with
  | zero =>
      intro l member
      rw [leaves_zero, List.mem_singleton] at member
      exact member ▸ ordered.2.1
  | succ h ih =>
      intro l member
      obtain ⟨c, child, inside⟩ := List.mem_flatMap.mp member
      obtain ⟨a', b', kid⟩ := ordered.child child
      exact ih kid.1 l inside

theorem Valid.keyed {s : PageTree K V h} (valid : Valid L s) : Keyed s :=
  keyed_of_fill L.pos valid.ordered.fillBelow valid.pos

theorem Valid.stocked {s : PageTree K V h} (valid : Valid L s) : Stocked s := valid.keyed.stocked

theorem Valid.keys_sorted {s : PageTree K V h} (valid : Valid L s) : s.keys.Pairwise (· < ·) :=
  valid.ordered.within.keys_sorted valid.stocked valid.ordered.leavesSorted

/-- **The leaf a search ends in is the only one that may hold the key.** -/
theorem Valid.find?_leafFor {s : PageTree K V h} (valid : Valid L s) (k : K) :
    ((s.leafFor k).recs.find? fun r => r.1 = k) = s.records.find? fun r => r.1 = k := by
  obtain ⟨pre, post, leaves, smaller, greater⟩ := leaves_around valid.ordered.within valid.stocked k
  have before : (pre.flatMap recs).find? (fun r => r.1 = k) = none := by
    rw [List.find?_eq_none]
    intro r member
    obtain ⟨l, leaf, inside⟩ := List.mem_flatMap.mp member
    have key : r.1 ∈ l.keys := by
      rw [keys, records_zero]
      exact List.mem_map_of_mem inside
    simpa using (smaller l leaf r.1 key).ne
  have behind : (post.flatMap recs).find? (fun r => r.1 = k) = none := by
    rw [List.find?_eq_none]
    intro r member
    obtain ⟨l, leaf, inside⟩ := List.mem_flatMap.mp member
    have key : r.1 ∈ l.keys := by
      rw [keys, records_zero]
      exact List.mem_map_of_mem inside
    simpa using (greater l leaf r.1 key).ne'
  rw [records, leaves, List.flatMap_append, List.flatMap_cons, List.find?_append, List.find?_append, before,
    behind, Option.none_or, Option.or_none]

/-- The smallest tree. -/
theorem valid_single (L : Limits) (pg : Nat) (k : K) (v : V) : Valid L (leaf pg [(k, v)]) where
  ordered := by
    have inside : Between ⊥ ⊤ k := ⟨bot_le, WithTop.coe_lt_top k⟩
    exact ⟨inside.apart, by simp [keys, records_zero], by simpa [keys, records_zero] using inside⟩
  pos := Nat.le_refl 1
  fits := (L.pos 0).trans (L.lo_le 0)

/-! ## Joining and cutting -/

theorem Ordered.join {l r : PageTree K V h} {k : K} (left : Ordered L a k l) (right : Ordered L k b r) :
    Ordered L a b (join l k r) := by
  cases h with
  | zero =>
      obtain ⟨apart, sorted, inside⟩ := left
      obtain ⟨apart', sorted', inside'⟩ := right
      have start : ∀ x : K, Between k b x → a ≤ x := by
        intro x between
        cases a with
        | bot => exact bot_le
        | coe y =>
            have low := WithTop.coe_lt_coe.mp apart.lt
            exact WithBot.coe_le_coe.mpr (low.le.trans (WithBot.coe_le_coe.mp between.1))
      refine ⟨apart.trans apart', ?_, ?_⟩
      · rw [keys_join, List.pairwise_append]
        refine ⟨sorted, sorted', fun x hx y hy => ?_⟩
        exact (WithTop.coe_lt_coe.mp (inside x hx).2).trans_le (WithBot.coe_le_coe.mp (inside' y hy).1)
      · intro x member
        rw [keys_join, List.mem_append] at member
        rcases member with first | second
        · exact ⟨(inside x first).1, (inside x first).2.trans apart'.lt⟩
        · exact ⟨start x (inside' x second), (inside' x second).2⟩
  | succ h =>
      rw [ordered_succ] at left right ⊢
      simp only [PageTree.join, root_branch, Node.fenced_join]
      exact ⟨left, right⟩

theorem Ordered.of_join {l r : PageTree K V h} {k : K} (ordered : Ordered L a b (PageTree.join l k r))
    (some_ : 1 ≤ l.size) (first : h = 0 → k ∈ r.keys.head?) :
    Ordered L a k l ∧ Ordered L k b r := by
  cases h with
  | zero =>
      obtain ⟨-, sorted, inside⟩ := ordered
      have head := first rfl
      obtain ⟨rest, split⟩ : ∃ rest, r.keys = k :: rest := by
        cases same : r.keys with
        | nil => simp [same] at head
        | cons z rest =>
            rw [same, List.head?_cons, Option.mem_some_iff] at head
            exact ⟨rest, by rw [head]⟩
      rw [keys_join] at sorted inside
      rw [List.pairwise_append] at sorted
      have left : ∀ x ∈ l.keys, Between a k x := fun x member =>
        ⟨(inside x (List.mem_append_left _ member)).1,
          WithTop.coe_lt_coe.mpr (sorted.2.2 x member k (by simp [split]))⟩
      have right : ∀ y ∈ r.keys, Between k b y := by
        intro y member
        refine ⟨?_, (inside y (List.mem_append_right _ member)).2⟩
        have behind := sorted.2.1
        rw [split] at member behind
        rcases List.mem_cons.mp member with rfl | later
        · exact le_rfl
        · exact WithBot.coe_le_coe.mpr ((List.pairwise_cons.mp behind).1 y later).le
      obtain ⟨x, member⟩ : ∃ x, x ∈ l.keys := by
        have some_ : 0 < l.recs.length := some_
        have some_ : 0 < l.keys.length := by simpa [keys, records_zero] using some_
        exact List.exists_mem_of_length_pos some_
      exact ⟨⟨(left x member).apart, sorted.1, left⟩,
        ⟨(right k (by simp [split])).apart, sorted.2.1, right⟩⟩
  | succ h =>
      rw [ordered_succ] at ordered ⊢
      simpa only [ordered_succ, PageTree.join, root_branch, Node.fenced_join] using ordered

end PageTree

end SimpleDatabase.Theory
