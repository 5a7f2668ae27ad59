/- Theory.SearchOrder -- search order, as separators say it and as intervals carry it

`SearchOrdered` is the definition a reader expects: in every node the separators
increase, and each one is greater than the keys under the child before it and at
most the keys under the child after it.

It is a statement about whole subtrees, and no induction goes through it as it
stands.  `Within lo hi` is the form that does: every subtree is assigned the
interval its fences leave it, and a leaf's keys lie in its interval.  Where every
leaf holds a key the two agree (`within_iff`), so an operation is shown to keep
the order by handing each subtree an interval.  `within_plug` reads off the
interval of one child and puts any replacement over that interval back.
-/
import SimpleDatabase.Theory.PageTree
import Mathlib.Order.WithBot

namespace SimpleDatabase.Theory

set_option autoImplicit false
set_option linter.unusedSectionVars false

variable {K V C : Type} [LinearOrder K]

/-- The key lies in `[lo, hi)`, either end of which may be missing. -/
def Between (lo : WithBot K) (hi : WithTop K) (k : K) : Prop := lo ≤ k ∧ (k : WithTop K) < hi

namespace Node

/-- Each separator is greater than the keys of the child before it and at most
the keys of the child after it. -/
def Adjacent (ks : C → List K) : C → List (K × C) → Prop
  | _, [] => True
  | c, (s, d) :: rest => (∀ k ∈ ks c, k < s) ∧ (∀ k ∈ ks d, s ≤ k) ∧ Adjacent ks d rest

/-- Every child satisfies `P` over the interval its fences leave it. -/
def Fenced (P : WithBot K → WithTop K → C → Prop) :
    WithBot K → C → List (K × C) → WithTop K → Prop
  | lo, c, [], hi => P lo hi c
  | lo, c, (s, d) :: rest, hi => P lo s c ∧ Fenced P s d rest hi

/-- The children before a pointer, whose interval then starts at `a`. -/
def Below (P : WithBot K → WithTop K → C → Prop) :
    WithBot K → List (C × K) → WithBot K → Prop
  | lo, [], a => a = lo
  | lo, (d, s) :: pre, a => P lo s d ∧ Below P s pre a

/-- The children after a pointer, whose interval ends at `b`. -/
def Above (P : WithBot K → WithTop K → C → Prop) (b : WithTop K) :
    List (K × C) → WithTop K → Prop
  | [], hi => b = hi
  | (s, d) :: post, hi => b = s ∧ Fenced P s d post hi

section Fenced

variable {P Q : WithBot K → WithTop K → C → Prop} {lo : WithBot K} {hi : WithTop K}

theorem fenced_iff_above (c : C) (post : List (K × C)) :
    Fenced P lo c post hi ↔ ∃ b, P lo b c ∧ Above P b post hi := by
  cases post with
  | nil => simp [Fenced, Above]
  | cons r post => simp [Fenced, Above]

/-- A node around one child: the children before it, its interval, the children
after it. -/
theorem fenced_plug (pre : List (C × K)) (c : C) (post : List (K × C)) :
    Fenced P lo (plug pre c post).left (plug pre c post).recs hi ↔
      ∃ a b, Below P lo pre a ∧ P a b c ∧ Above P b post hi := by
  induction pre generalizing lo with
  | nil => simp [Below, fenced_iff_above]
  | cons e pre ih =>
      obtain ⟨d, s⟩ := e
      rw [recs_plug_cons]
      simp only [Below, Fenced, ih]
      constructor
      · rintro ⟨here, a, b, below, rest⟩
        exact ⟨a, b, ⟨here, below⟩, rest⟩
      · rintro ⟨a, b, ⟨here, below⟩, rest⟩
        exact ⟨here, a, b, below, rest⟩

theorem above_append (n : Node K C) (post : List (K × C)) :
    (∃ b, P lo b n.left ∧ Above P b (n.recs ++ post) hi) ↔
      ∃ b, Fenced P lo n.left n.recs b ∧ Above P b post hi := by
  obtain ⟨left, recs⟩ := n
  simp only
  induction recs generalizing lo left with
  | nil => rfl
  | cons r recs ih =>
      obtain ⟨s, d⟩ := r
      constructor
      · rintro ⟨_, here, rfl, rest⟩
        obtain ⟨b, inner, above⟩ := (ih d).mp ((fenced_iff_above d _).mp rest)
        exact ⟨b, ⟨here, inner⟩, above⟩
      · rintro ⟨b, ⟨here, inner⟩, above⟩
        exact ⟨_, here, rfl, (fenced_iff_above d _).mpr ((ih d).mpr ⟨b, inner, above⟩)⟩

/-- A node around some of its children. -/
theorem fenced_splice (pre : List (C × K)) (n : Node K C) (post : List (K × C)) :
    Fenced P lo (splice pre n post).left (splice pre n post).recs hi ↔
      ∃ a b, Below P lo pre a ∧ Fenced P a n.left n.recs b ∧ Above P b post hi := by
  rw [splice, fenced_plug]
  constructor
  · rintro ⟨a, b, below, here, above⟩
    obtain ⟨b, inner, above⟩ := (above_append n post).mp ⟨b, here, above⟩
    exact ⟨a, b, below, inner, above⟩
  · rintro ⟨a, b, below, inner, above⟩
    obtain ⟨b, here, above⟩ := (above_append n post).mpr ⟨b, inner, above⟩
    exact ⟨a, b, below, here, above⟩

theorem fenced_join (l : Node K C) (k : K) (r : Node K C) :
    Fenced P lo (join l k r).left (join l k r).recs hi ↔
      Fenced P lo l.left l.recs k ∧ Fenced P k r.left r.recs hi := by
  obtain ⟨left, recs⟩ := l
  simp only [join]
  induction recs generalizing lo left with
  | nil => simp [Fenced]
  | cons e recs ih =>
      simp only [List.cons_append, Fenced, ih, and_assoc]

theorem Fenced.imp {c : C} {recs : List (K × C)}
    (imp : ∀ lo hi, ∀ d ∈ c :: recs.map Prod.snd, P lo hi d → Q lo hi d)
    (fenced : Fenced P lo c recs hi) : Fenced Q lo c recs hi := by
  induction recs generalizing lo c with
  | nil => exact imp _ _ _ (by simp) fenced
  | cons e recs ih =>
      exact ⟨imp _ _ _ (by simp) fenced.1,
        ih (fun lo hi d member => imp lo hi d (by simp at member ⊢; tauto)) fenced.2⟩

/-- The fences before a pointer do not decrease. -/
theorem Below.le {pre : List (C × K)} {a : WithBot K}
    (increasing : ∀ lo (s : K), ∀ e ∈ pre, P lo s e.1 → lo ≤ s) (below : Below P lo pre a) :
    lo ≤ a ∧ ∀ e ∈ pre, (e.2 : WithBot K) ≤ a := by
  induction pre generalizing lo with
  | nil => exact ⟨le_of_eq (Eq.symm below), by simp⟩
  | cons e pre ih =>
      obtain ⟨here, rest⟩ := below
      obtain ⟨start, steps⟩ := ih (fun lo s e member => increasing lo s e (by simp [member])) rest
      refine ⟨(increasing _ _ e (by simp) here).trans start, ?_⟩
      intro e' member
      rcases List.mem_cons.mp member with rfl | later
      · exact start
      · exact steps e' later

/-- A pointer's interval contains every key a search sends there. -/
theorem Below.bound {pre : List (C × K)} {a : WithBot K} {k : K} (below : Below P lo pre a)
    (start : lo ≤ k) (passed : ∀ e ∈ pre, e.2 ≤ k) : a ≤ k := by
  induction pre generalizing lo with
  | nil => exact below ▸ start
  | cons e pre ih =>
      exact ih below.2 (WithBot.coe_le_coe.mpr (passed e (by simp)))
        fun e' member => passed e' (by simp [member])

/-- Every child before a pointer lies below the separator after it. -/
theorem Below.mem {pre : List (C × K)} {a : WithBot K} (below : Below P lo pre a) :
    ∀ e ∈ pre, ∃ lo', P lo' e.2 e.1 := by
  induction pre generalizing lo with
  | nil => simp
  | cons e pre ih =>
      obtain ⟨here, rest⟩ := below
      intro e' member
      rcases List.mem_cons.mp member with rfl | later
      · exact ⟨lo, here⟩
      · exact ih rest e' later

theorem Above.bound {post : List (K × C)} {b : WithTop K} {k : K} (above : Above P b post hi)
    (stop : (k : WithTop K) < hi) (ahead : ∀ r ∈ post.head?, k < r.1) : (k : WithTop K) < b := by
  cases post with
  | nil => exact above ▸ stop
  | cons r post => exact above.1 ▸ WithTop.coe_lt_coe.mpr (ahead r (by simp))

end Fenced

end Node

namespace PageTree

variable {h : Nat}

/-- In every node the separators increase, and each separates the keys of the
children next to it. -/
def SearchOrdered : {h : Nat} → PageTree K V h → Prop
  | 0, _ => True
  | _ + 1, s => s.root.seps.Pairwise (· < ·) ∧
      Node.Adjacent keys s.root.left s.root.recs ∧ ∀ c ∈ s.root.children, SearchOrdered c

/-- Every subtree lies in the interval its fences leave it. -/
def Within : {h : Nat} → WithBot K → WithTop K → PageTree K V h → Prop
  | 0, lo, hi, s => ∀ k ∈ s.keys, Between lo hi k
  | _ + 1, lo, hi, s => Node.Fenced Within lo s.root.left s.root.recs hi

/-- Every leaf holds a record. -/
def Stocked (s : PageTree K V h) : Prop := ∀ l ∈ s.leaves, l.recs ≠ []

/-- In every leaf the keys increase. -/
def LeavesSorted (s : PageTree K V h) : Prop := ∀ l ∈ s.leaves, l.keys.Pairwise (· < ·)

theorem Stocked.child {s : PageTree K V (h + 1)} (stocked : Stocked s) {c : PageTree K V h}
    (child : c ∈ s.root.children) : Stocked c :=
  fun l member => stocked l (List.mem_flatMap.mpr ⟨c, child, member⟩)

theorem Fill.stocked {lo hi : Nat → Nat} {s : PageTree K V h} (fill : Fill lo hi s)
    (pos : 1 ≤ lo 0) : Stocked s := fun l member empty => by
  have := (fill.leaf l member).1
  simp [empty] at this
  omega

theorem Keyed.stocked {s : PageTree K V h} (keyed : Keyed s) : Stocked s := fun l member => by
  obtain ⟨_, held⟩ := All.leaf keyed l member
  exact List.ne_nil_of_length_pos held

theorem Stocked.exists_key {s : PageTree K V h} (stocked : Stocked s) : ∃ k, k ∈ s.keys := by
  obtain ⟨l, member⟩ := List.exists_mem_of_ne_nil _ s.leaves_ne_nil
  obtain ⟨r, inside⟩ := List.exists_mem_of_ne_nil _ (stocked l member)
  exact ⟨r.1, List.mem_map_of_mem (List.mem_flatMap.mpr ⟨l, member, inside⟩)⟩

theorem LeavesSorted.child {s : PageTree K V (h + 1)} (sorted : LeavesSorted s)
    {c : PageTree K V h} (child : c ∈ s.root.children) : LeavesSorted c :=
  fun l member => sorted l (List.mem_flatMap.mpr ⟨c, child, member⟩)

theorem leavesSorted_splice (pg : Nat) (pre : List (PageTree K V h × K))
    (n : Node K (PageTree K V h)) (post : List (K × PageTree K V h)) :
    LeavesSorted (branch pg (Node.splice pre n post)) ↔
      (∀ e ∈ pre, LeavesSorted e.1) ∧ (∀ c ∈ n.children, LeavesSorted c) ∧
        ∀ r ∈ post, LeavesSorted r.2 := by
  simp only [LeavesSorted, leaves_succ, root_branch, flatMap_splice, List.mem_append,
    List.mem_flatMap]
  constructor
  · intro sorted
    exact ⟨fun e member l inside => sorted l (.inl ⟨e, member, inside⟩),
      fun c member l inside => sorted l (.inr (.inl ⟨c, member, inside⟩)),
      fun r member l inside => sorted l (.inr (.inr ⟨r, member, inside⟩))⟩
  · rintro ⟨before, at_, after⟩ l (⟨e, member, inside⟩ | ⟨c, member, inside⟩ | ⟨r, member, inside⟩)
    · exact before e member l inside
    · exact at_ c member l inside
    · exact after r member l inside

section Node

variable {ks : C → List K}

/-- Past a fence, all keys are at least it. -/
theorem adjacent_above {lo : K} {c : C} {recs : List (K × C)}
    (increasing : (lo :: recs.map Prod.fst).Pairwise (· < ·)) (first : ∀ k ∈ ks c, lo ≤ k)
    (adjacent : Node.Adjacent ks c recs) :
    ∀ d ∈ c :: recs.map Prod.snd, ∀ k ∈ ks d, lo ≤ k := by
  induction recs generalizing c lo with
  | nil => simpa using first
  | cons e recs ih =>
      obtain ⟨s, d⟩ := e
      have up : lo < s := (List.pairwise_cons.mp increasing).1 s (by simp)
      intro x member k inside
      rcases List.mem_cons.mp member with rfl | later
      · exact first k inside
      · exact up.le.trans (ih (List.pairwise_cons.mp increasing).2 adjacent.2.1 adjacent.2.2
          x later k inside)

/-- Adjacent separators fence the children in, one by one. -/
theorem fenced_of_adjacent {lo : WithBot K} {hi : WithTop K} {c : C} {recs : List (K × C)}
    (increasing : (recs.map Prod.fst).Pairwise (· < ·)) (adjacent : Node.Adjacent ks c recs)
    (inside : ∀ d ∈ c :: recs.map Prod.snd, ∀ k ∈ ks d, Between lo hi k) :
    Node.Fenced (fun lo hi d => ∀ k ∈ ks d, Between lo hi k) lo c recs hi := by
  induction recs generalizing lo c with
  | nil => exact inside c (by simp)
  | cons e recs ih =>
      obtain ⟨s, d⟩ := e
      refine ⟨fun k member => ⟨(inside c (by simp) k member).1,
        WithTop.coe_lt_coe.mpr (adjacent.1 k member)⟩, ?_⟩
      apply ih (List.pairwise_cons.mp increasing).2 adjacent.2.2
      intro x member k inside'
      exact ⟨WithBot.coe_le_coe.mpr (adjacent_above increasing adjacent.2.1 adjacent.2.2
        x member k inside'), (inside x (by simp at member ⊢; tauto) k inside').2⟩

/-- Fences that each child has a key between are increasing, and separate. -/
theorem adjacent_of_fenced {lo : WithBot K} {hi : WithTop K} {c : C} {recs : List (K × C)}
    (nonempty : ∀ d ∈ c :: recs.map Prod.snd, ∃ k, k ∈ ks d)
    (fenced : Node.Fenced (fun lo hi d => ∀ k ∈ ks d, Between lo hi k) lo c recs hi) :
    (recs.map Prod.fst).Pairwise (· < ·) ∧ Node.Adjacent ks c recs ∧
      (∀ s ∈ recs.map Prod.fst, lo < s ∧ (s : WithTop K) < hi) ∧
      ∀ d ∈ c :: recs.map Prod.snd, ∀ k ∈ ks d, Between lo hi k := by
  induction recs generalizing lo c with
  | nil =>
      refine ⟨by simp, trivial, by simp, ?_⟩
      intro d member
      rw [List.map_nil, List.mem_singleton] at member
      exact member ▸ fenced
  | cons e recs ih =>
      obtain ⟨s, d⟩ := e
      obtain ⟨here, rest⟩ := fenced
      obtain ⟨increasing, adjacent, bounds, inside⟩ :=
        ih (fun x member => nonempty x (by simp at member ⊢; tauto)) rest
      obtain ⟨x, hx⟩ := nonempty c (by simp)
      obtain ⟨y, hy⟩ := nonempty d (by simp)
      have first : ∀ k ∈ ks d, s ≤ k := fun k member =>
        WithBot.coe_le_coe.mp (inside d (by simp) k member).1
      have above : lo < s := (here x hx).1.trans_lt
        (WithBot.coe_lt_coe.mpr (WithTop.coe_lt_coe.mp (here x hx).2))
      have below : (s : WithTop K) < hi :=
        (WithTop.coe_le_coe.mpr (first y hy)).trans_lt (inside d (by simp) y hy).2
      refine ⟨List.pairwise_cons.mpr ⟨fun t member => ?_, increasing⟩,
        ⟨fun k member => WithTop.coe_lt_coe.mp (here k member).2, first, adjacent⟩, ?_, ?_⟩
      · exact WithBot.coe_lt_coe.mp (bounds t member).1
      · intro t member
        rcases List.mem_cons.mp member with rfl | later
        · exact ⟨above, below⟩
        · exact ⟨above.trans (bounds t later).1, (bounds t later).2⟩
      · intro z member k hk
        rcases List.mem_cons.mp member with rfl | later
        · exact ⟨(here k hk).1, (here k hk).2.trans below⟩
        · exact ⟨above.le.trans (inside z later k hk).1, (inside z later k hk).2⟩

end Node

/-- **The two forms of search order agree** on a tree whose leaves hold records. -/
theorem within_iff {s : PageTree K V h} (stocked : Stocked s) (lo : WithBot K) (hi : WithTop K) :
    Within lo hi s ↔ SearchOrdered s ∧ ∀ k ∈ s.keys, Between lo hi k := by
  induction h generalizing lo hi with
  | zero => simp [Within, SearchOrdered]
  | succ h ih =>
      have child : ∀ d ∈ s.root.left :: s.root.recs.map Prod.snd, Stocked d := fun d member =>
        stocked.child member
      simp only [Within, SearchOrdered]
      constructor
      · intro fenced
        have inner : Node.Fenced (fun lo hi d => ∀ k ∈ keys d, Between lo hi k) lo s.root.left
            s.root.recs hi := fenced.imp fun lo hi d member w => ((ih (child d member) lo hi).mp w).2
        obtain ⟨increasing, adjacent, -, inside⟩ :=
          adjacent_of_fenced (fun d member => (child d member).exists_key) inner
        have ordered : ∀ d ∈ s.root.children, SearchOrdered d := by
          intro d member
          obtain ⟨pre, post, same⟩ := Node.exists_plug member
          rw [same, Node.fenced_plug] at fenced
          obtain ⟨a, b, -, w, -⟩ := fenced
          exact ((ih (child d member) a b).mp w).1
        refine ⟨⟨increasing, adjacent, ordered⟩, ?_⟩
        intro k member
        obtain ⟨d, at_, inside'⟩ := (mem_keys_succ s k).mp member
        exact inside d at_ k inside'
      · rintro ⟨⟨increasing, adjacent, ordered⟩, inside⟩
        refine (fenced_of_adjacent increasing adjacent fun d member k inside' =>
          inside k ((mem_keys_succ s k).mpr ⟨d, member, inside'⟩)).imp fun lo hi d member w => ?_
        exact (ih (child d member) lo hi).mpr ⟨ordered d member, w⟩

theorem Within.keys {s : PageTree K V h} {lo : WithBot K} {hi : WithTop K}
    (within : Within lo hi s) (stocked : Stocked s) : ∀ k ∈ s.keys, Between lo hi k :=
  ((within_iff stocked lo hi).mp within).2

/-- A tree keeps its order over any interval that holds its keys. -/
theorem Within.rebound {s : PageTree K V h} {lo lo' : WithBot K} {hi hi' : WithTop K}
    (within : Within lo hi s) (stocked : Stocked s) (inside : ∀ k ∈ s.keys, Between lo' hi' k) :
    Within lo' hi' s :=
  (within_iff stocked lo' hi').mpr ⟨((within_iff stocked lo hi).mp within).1, inside⟩

theorem Within.lt {s : PageTree K V h} {lo : WithBot K} {k : K} (within : Within lo k s)
    (stocked : Stocked s) : lo < k := by
  obtain ⟨x, member⟩ := stocked.exists_key
  have := within.keys stocked x member
  exact this.1.trans_lt (WithBot.coe_lt_coe.mpr (WithTop.coe_lt_coe.mp this.2))

theorem searchOrdered_iff {s : PageTree K V h} (stocked : Stocked s) :
    SearchOrdered s ↔ Within ⊥ ⊤ s := by
  rw [within_iff stocked]
  exact ⟨fun ordered => ⟨ordered, fun k _ => ⟨bot_le, WithTop.coe_lt_top k⟩⟩, And.left⟩

/-- A tree around one child. -/
theorem within_plug {lo : WithBot K} {hi : WithTop K} (pg : Nat)
    (pre : List (PageTree K V h × K)) (c : PageTree K V h) (post : List (K × PageTree K V h)) :
    Within lo hi (branch pg (Node.plug pre c post)) ↔
      ∃ a b, Node.Below Within lo pre a ∧ Within a b c ∧ Node.Above Within b post hi := by
  simp only [Within, root_branch]
  exact Node.fenced_plug pre c post

/-- A tree around two neighbours. -/
theorem within_plug_two {lo : WithBot K} {hi : WithTop K} (pg : Nat)
    (pre : List (PageTree K V h × K)) (c : PageTree K V h) (k : K) (d : PageTree K V h)
    (post : List (K × PageTree K V h)) :
    Within lo hi (branch pg (Node.plug pre c ((k, d) :: post))) ↔
      ∃ a b, Node.Below Within lo pre a ∧ Within a k c ∧ Within k b d ∧
        Node.Above Within b post hi := by
  rw [within_plug]
  constructor
  · rintro ⟨a, _, below, wc, rfl, fenced⟩
    obtain ⟨b, wd, above⟩ := (Node.fenced_iff_above d post).mp fenced
    exact ⟨a, b, below, wc, wd, above⟩
  · rintro ⟨a, b, below, wc, wd, above⟩
    exact ⟨a, k, below, wc, rfl, (Node.fenced_iff_above d post).mpr ⟨b, wd, above⟩⟩

/-- **Routing.**  The leaf that holds a key is the leaf the search for it ends in. -/
theorem leafFor_of_mem {s : PageTree K V h} {lo : WithBot K} {hi : WithTop K}
    (within : Within lo hi s) (stocked : Stocked s) {l : PageTree K V 0} (member : l ∈ s.leaves)
    {k : K} (held : k ∈ l.keys) : s.leafFor k = l := by
  induction h generalizing lo hi with
  | zero =>
      rw [leaves_zero, List.mem_singleton] at member
      exact member.symm
  | succ h ih =>
      obtain ⟨c, child, inside⟩ := List.mem_flatMap.mp member
      obtain ⟨pre, post, same⟩ := Node.exists_plug child
      have around := within
      rw [eq_branch s, same, within_plug] at around
      obtain ⟨a, b, below, wc, above⟩ := around
      have at_ := wc.keys (stocked.child child) k (mem_keys_of_leaf inside held)
      have stop : s.root.focus k = (pre, c, post) := by
        rw [same]
        apply Node.focus_plug
        · intro e before
          have increasing := (Node.Below.le (fun lo s e member w => (Within.lt w
            (stocked.child (by rw [same]; simp; exact .inl ⟨_, member⟩))).le) below).2
          exact WithBot.coe_le_coe.mp ((increasing e before).trans at_.1)
        · intro r first
          cases post with
          | nil => simp at first
          | cons r' post =>
              simp only [List.head?_cons, Option.mem_some_iff] at first
              subst first
              exact WithTop.coe_lt_coe.mp (above.1 ▸ at_.2)
      rw [leafFor, stop]
      exact ih wc (stocked.child child) inside

/-- The leaf a search ends in stands between the leaves with smaller keys and those with greater
ones, whether it holds the key or not. -/
theorem leaves_around {s : PageTree K V h} {lo : WithBot K} {hi : WithTop K}
    (within : Within lo hi s) (stocked : Stocked s) (k : K) :
    ∃ pre post, s.leaves = pre ++ s.leafFor k :: post ∧ (∀ l ∈ pre, ∀ x ∈ l.keys, x < k) ∧
      ∀ l ∈ post, ∀ x ∈ l.keys, k < x := by
  induction h generalizing lo hi with
  | zero => exact ⟨[], [], rfl, by simp, by simp⟩
  | succ h ih =>
      have before := s.root.focus_before k
      have after := s.root.focus_after k
      have whole := Node.plug_focus k s.root
      rw [leafFor]
      generalize (s.root.focus k).1 = pre at before whole
      generalize (s.root.focus k).2.1 = c at whole ⊢
      generalize (s.root.focus k).2.2 = post at after whole
      have child : ∀ d ∈ pre.map Prod.fst ++ c :: post.map Prod.snd, Stocked d := fun d member =>
        stocked.child (by rw [← whole, Node.children_plug]; exact member)
      rw [eq_branch s, ← whole, within_plug] at within
      obtain ⟨a, b, below, wc, above⟩ := within
      obtain ⟨ls, rs, split, smaller, greater⟩ := ih wc (child c (by simp))
      refine ⟨pre.flatMap (fun e => e.1.leaves) ++ ls, rs ++ post.flatMap fun r => r.2.leaves, ?_, ?_, ?_⟩
      · rw [eq_branch s, ← whole, leaves_plug, split]
        simp
      · intro l member x held
        rcases List.mem_append.mp member with first | last
        · obtain ⟨e, place, inside⟩ := List.mem_flatMap.mp first
          obtain ⟨lo', we⟩ := below.mem e place
          have high := (we.keys (child e.1 (by simp; exact .inl ⟨_, place⟩)) x
            (mem_keys_of_leaf inside held)).2
          exact (WithTop.coe_lt_coe.mp high).trans_le (before e place)
        · exact smaller l last x held
      · intro l member x held
        rcases List.mem_append.mp member with first | last
        · exact greater l first x held
        · obtain ⟨r, place, inside⟩ := List.mem_flatMap.mp last
          cases post with
          | nil => simp at place
          | cons e post =>
              -- the children after the pointer, as a tree of their own
              have rest : Within e.1 hi (branch 0 ⟨e.2, post⟩) := above.2
              have filled : Stocked (branch 0 ⟨e.2, post⟩) := fun l' member' => by
                obtain ⟨d, under, inside'⟩ := List.mem_flatMap.mp member'
                refine child d ?_ l' inside'
                simp [Node.children] at under ⊢
                tauto
              have under : r.2 ∈ (e :: post).map Prod.snd := List.mem_map_of_mem place
              have low := (rest.keys filled x
                (mem_keys_of_leaf (List.mem_flatMap.mpr ⟨r.2, under, inside⟩) held)).1
              exact (after e (by simp)).trans_le (WithBot.coe_le_coe.mp low)

/-! ## The records of an ordered tree -/

/-- Read from left to right, the keys of an ordered tree increase. -/
theorem Within.keys_sorted {s : PageTree K V h} {lo : WithBot K} {hi : WithTop K}
    (within : Within lo hi s) (stocked : Stocked s) (sorted : LeavesSorted s) :
    s.keys.Pairwise (· < ·) := by
  induction h generalizing lo hi with
  | zero => exact sorted s (by simp [leaves_zero])
  | succ h ih =>
      rw [PageTree.keys, records_succ, List.map_flatMap]
      have child : ∀ d ∈ s.root.left :: s.root.recs.map Prod.snd,
          Stocked d ∧ LeavesSorted d := fun d member => ⟨stocked.child member, sorted.child member⟩
      simp only [Within] at within
      simp only [Node.children]
      generalize s.root.left = c at within child ⊢
      generalize s.root.recs = recs at within child ⊢
      induction recs generalizing lo c with
      | nil =>
          simp only [List.map_nil, List.flatMap_cons, List.flatMap_nil, List.append_nil]
          exact ih within (child c (by simp)).1 (child c (by simp)).2
      | cons e recs ihr =>
          obtain ⟨k, d⟩ := e
          obtain ⟨here, rest⟩ := within
          rw [List.flatMap_cons, List.pairwise_append]
          refine ⟨ih here (child c (by simp)).1 (child c (by simp)).2,
            ihr d rest (fun x member => child x (by simp at member ⊢; tauto)), ?_⟩
          -- the fence between: keys of `c` are below it, all later keys at or above it
          intro x hx y hy
          have low := (here.keys (child c (by simp)).1 x hx).2
          have inner : Node.Fenced (fun lo hi d => ∀ k ∈ PageTree.keys d, Between lo hi k) k d
              recs hi :=
            rest.imp fun lo hi d member w => w.keys (child d (by simp at member ⊢; tauto)).1
          obtain ⟨-, -, -, inside⟩ := adjacent_of_fenced
            (fun x member => (child x (by simp at member ⊢; tauto)).1.exists_key) inner
          obtain ⟨z, member, hy⟩ := List.mem_flatMap.mp hy
          exact (WithTop.coe_lt_coe.mp low).trans_le (WithBot.coe_le_coe.mp (inside z member y hy).1)

/-! ## Joining and cutting ordered trees -/

/-- Neighbours join over both their intervals. -/
theorem Within.join {l r : PageTree K V h} {k : K} {lo : WithBot K} {hi : WithTop K}
    (left : Within lo k l) (right : Within k hi r) (stockedLeft : Stocked l)
    (stockedRight : Stocked r) : Within lo hi (join l k r) := by
  cases h with
  | zero =>
      intro x member
      rw [keys_join, List.mem_append] at member
      obtain ⟨y, hy⟩ := stockedRight.exists_key
      have := right.keys stockedRight y hy
      rcases member with member | member
      · have inside := left.keys stockedLeft x member
        refine ⟨inside.1, inside.2.trans_le ?_⟩
        exact (WithTop.coe_le_coe.mpr (WithBot.coe_le_coe.mp this.1)).trans this.2.le
      · have inside := right.keys stockedRight x member
        exact ⟨(left.lt stockedLeft).le.trans inside.1, inside.2⟩
  | succ h =>
      simp only [Within, PageTree.join, root_branch, Node.fenced_join]
      exact ⟨left, right⟩

theorem leavesSorted_join {l r : PageTree K V h} {k : K} (left : LeavesSorted l)
    (right : LeavesSorted r) (between : h = 0 → ∀ x ∈ l.keys, ∀ y ∈ r.keys, x < y) :
    LeavesSorted (PageTree.join l k r) := by
  cases h with
  | zero =>
      intro x member
      rw [leaves_zero, List.mem_singleton] at member
      rw [member, keys_join, List.pairwise_append]
      exact ⟨left l (by simp [leaves_zero]), right r (by simp [leaves_zero]), between rfl⟩
  | succ h =>
      intro x member
      simp only [PageTree.join, leaves_succ, root_branch, Node.children_join,
        List.flatMap_append, List.mem_append] at member
      exact member.elim (left x) (right x)

/-- The halves of a cut lie on their sides of the separator. -/
theorem Within.of_join {l r : PageTree K V h} {k : K} {lo : WithBot K} {hi : WithTop K}
    (within : Within lo hi (PageTree.join l k r)) (sorted : LeavesSorted (PageTree.join l k r))
    (first : h = 0 → k ∈ r.keys.head?) : Within lo k l ∧ Within k hi r := by
  cases h with
  | zero =>
      have ordered := sorted _ (by rw [leaves_zero]; exact List.mem_singleton_self _)
      rw [keys_join, List.pairwise_append] at ordered
      have head := first rfl
      have member : k ∈ r.keys := List.mem_of_mem_head? head
      refine ⟨fun x hx => ⟨(within x (by simp [keys_join, hx])).1, ?_⟩,
        fun y hy => ⟨?_, (within y (by simp [keys_join, hy])).2⟩⟩
      · exact WithTop.coe_lt_coe.mpr (ordered.2.2 x hx k member)
      · obtain ⟨rest, split⟩ : ∃ rest, r.keys = k :: rest := by
          cases same : r.keys with
          | nil => simp [same] at head
          | cons z rest =>
              rw [same, List.head?_cons, Option.mem_some_iff] at head
              exact ⟨rest, by rw [head]⟩
        rw [split] at hy ordered
        rcases List.mem_cons.mp hy with rfl | later
        · exact le_rfl
        · exact WithBot.coe_le_coe.mpr ((List.pairwise_cons.mp ordered.2.1).1 y later).le
  | succ h =>
      simpa only [Within, PageTree.join, root_branch, Node.fenced_join] using within

theorem LeavesSorted.of_join {l r : PageTree K V h} {k : K}
    (sorted : LeavesSorted (PageTree.join l k r)) : LeavesSorted l ∧ LeavesSorted r := by
  cases h with
  | zero =>
      have ordered := sorted _ (by rw [leaves_zero]; exact List.mem_singleton_self _)
      rw [keys_join, List.pairwise_append] at ordered
      refine ⟨fun x member => ?_, fun x member => ?_⟩ <;>
        rw [leaves_zero, List.mem_singleton] at member <;> subst member
      · exact ordered.1
      · exact ordered.2.1
  | succ h =>
      simp only [LeavesSorted, PageTree.join, leaves_succ, root_branch, Node.children_join,
        List.flatMap_append, List.mem_append] at sorted
      exact ⟨fun x member => sorted x (.inl member), fun x member => sorted x (.inr member)⟩

end PageTree

end SimpleDatabase.Theory
