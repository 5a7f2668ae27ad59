/- Theory.MergeJoin -- which keys a merge of two cursors joins

Two cursors move through increasing keys; behind its last key a cursor stands at the
marker, provided the step there is defined.  A round moves the left cursor up to the
right one's key, then the right cursor up to the left one's, and joins the two keys
they stand at; then the right cursor moves on by one.

Nothing in a round compares the two cursors again, so the right one may have
overshot.  `Merge` is what the rounds do, and `Matched` says of the two sets of keys
when the rounds join exactly the common ones, each with itself
(`merge_natural_iff`).
-/
import Mathlib.Data.List.TakeWhile
import Mathlib.Order.Bounds.Basic

namespace SimpleDatabase.Theory

set_option autoImplicit false

variable {K : Type} [LinearOrder K]

/-! ## Moving a cursor up -/

/-- The keys from the first one on that is not below `b`. -/
def atLeast (b : K) (ks : List K) : List K := ks.dropWhile (· < b)

section AtLeast

variable {ks as : List K} {a b : K}

theorem mem_atLeast (sorted : ks.Pairwise (· < ·)) (k : K) :
    k ∈ atLeast b ks ↔ k ∈ ks ∧ b ≤ k := by
  induction ks with
  | nil => simp [atLeast]
  | cons x xs ih =>
      obtain ⟨above, sorted⟩ := List.pairwise_cons.mp sorted
      unfold atLeast
      by_cases low : x < b
      · rw [List.dropWhile_cons_of_pos (by simpa using low)]
        refine (ih sorted).trans ⟨fun ⟨member, le⟩ => ⟨List.mem_cons_of_mem x member, le⟩, ?_⟩
        rintro ⟨member, le⟩
        rcases List.mem_cons.mp member with rfl | later
        · exact absurd low (not_lt.mpr le)
        · exact ⟨later, le⟩
      · rw [List.dropWhile_cons_of_neg (by simpa using low)]
        refine ⟨fun member => ⟨member, ?_⟩, And.left⟩
        rcases List.mem_cons.mp member with rfl | later
        · exact not_lt.mp low
        · exact (not_lt.mp low).trans (above k later).le

theorem atLeast_length (b : K) (ks : List K) : (atLeast b ks).length ≤ ks.length :=
  (List.dropWhile_sublist _).length_le

theorem stop_sorted (sorted : ks.Pairwise (· < ·)) (stop : atLeast b ks = a :: as) :
    (a :: as).Pairwise (· < ·) :=
  stop ▸ sorted.sublist (List.dropWhile_sublist _)

/-- None is left where every key is below. -/
theorem atLeast_eq_nil_iff : atLeast b ks = [] ↔ ∀ k ∈ ks, k < b := by
  simp only [atLeast, List.dropWhile_eq_nil_iff, decide_eq_true_eq]

/-- The cursor stops at the least key that is not below. -/
theorem atLeast_least (sorted : ks.Pairwise (· < ·)) (stop : atLeast b ks = a :: as) :
    IsLeast {k | k ∈ ks ∧ b ≤ k} a := by
  have rest := List.pairwise_cons.mp (stop_sorted sorted stop)
  refine ⟨(mem_atLeast sorted a).mp (stop ▸ List.mem_cons_self), ?_⟩
  intro k inside
  have member : k ∈ a :: as := stop ▸ (mem_atLeast sorted k).mpr inside
  rcases List.mem_cons.mp member with rfl | later
  · exact le_rfl
  · exact (rest.1 k later).le

/-- The keys behind the one it stops at are the greater ones. -/
theorem mem_behind (sorted : ks.Pairwise (· < ·)) (stop : atLeast b ks = a :: as) (k : K) :
    k ∈ as ↔ k ∈ ks ∧ a < k := by
  have rest := List.pairwise_cons.mp (stop_sorted sorted stop)
  have least := atLeast_least sorted stop
  constructor
  · intro member
    have inside := (mem_atLeast sorted k).mp (stop ▸ List.mem_cons_of_mem a member)
    exact ⟨inside.1, rest.1 k member⟩
  · rintro ⟨member, above⟩
    have inside : k ∈ a :: as := stop ▸ (mem_atLeast sorted k).mpr ⟨member, least.1.2.trans above.le⟩
    exact (List.mem_cons.mp inside).resolve_left above.ne'

/-- The first of increasing keys is the least. -/
theorem isLeast_head {b : K} {bs : List K} (sorted : (b :: bs).Pairwise (· < ·)) :
    IsLeast {k | k ∈ b :: bs} b := by
  refine ⟨List.mem_cons_self, ?_⟩
  intro k member
  rcases List.mem_cons.mp member with rfl | later
  · exact le_rfl
  · exact ((List.pairwise_cons.mp sorted).1 k later).le

end AtLeast

/-! ## The rounds -/

/-- The pairs that the rounds join, from the keys still ahead of each cursor.  `ends` says of a
cursor whether the step behind its last key is defined. -/
inductive Merge (marker : K) (ends₁ ends₂ : Bool) : List K → List K → List (K × K) → Prop
  /-- The left cursor runs out first. -/
  | left {ks ls : List K} :
      atLeast (ls.headD marker) ks = [] → ends₁ = true → ends₂ = true →
      Merge marker ends₁ ends₂ ks ls []
  /-- The right cursor runs out first. -/
  | right {ks ls : List K} {a : K} {as : List K} :
      atLeast (ls.headD marker) ks = a :: as → atLeast a ls = [] → ends₂ = true →
      Merge marker ends₁ ends₂ ks ls []
  /-- Two keys are joined. -/
  | join {ks ls : List K} {a b : K} {as bs : List K} {pairs : List (K × K)} :
      atLeast (ls.headD marker) ks = a :: as → atLeast a ls = b :: bs → bs ≠ [] ∨ ends₂ = true →
      Merge marker ends₁ ends₂ (a :: as) bs pairs →
      Merge marker ends₁ ends₂ ks ls ((a, b) :: pairs)

namespace Merge

variable {marker : K} {ends₁ ends₂ : Bool} {ks ls : List K} {pairs : List (K × K)}

theorem left_iff (stop : atLeast (ls.headD marker) ks = []) :
    Merge marker ends₁ ends₂ ks ls pairs ↔ pairs = [] ∧ ends₁ = true ∧ ends₂ = true := by
  constructor
  · intro merge
    cases merge with
    | left _ steps₁ steps₂ => exact ⟨rfl, steps₁, steps₂⟩
    | right found => cases stop.symm.trans found
    | join found => cases stop.symm.trans found
  · rintro ⟨rfl, steps₁, steps₂⟩
    exact .left stop steps₁ steps₂

theorem right_iff {a : K} {as : List K} (stop : atLeast (ls.headD marker) ks = a :: as)
    (stop' : atLeast a ls = []) :
    Merge marker ends₁ ends₂ ks ls pairs ↔ pairs = [] ∧ ends₂ = true := by
  constructor
  · intro merge
    cases merge with
    | left found => cases stop.symm.trans found
    | right _ _ steps => exact ⟨rfl, steps⟩
    | join found found' =>
        cases stop.symm.trans found
        cases stop'.symm.trans found'
  · rintro ⟨rfl, steps⟩
    exact .right stop stop' steps

theorem join_iff {a b : K} {as bs : List K} (stop : atLeast (ls.headD marker) ks = a :: as)
    (stop' : atLeast a ls = b :: bs) :
    Merge marker ends₁ ends₂ ks ls pairs ↔ (bs ≠ [] ∨ ends₂ = true) ∧
      ∃ rest, Merge marker ends₁ ends₂ (a :: as) bs rest ∧ pairs = (a, b) :: rest := by
  constructor
  · intro merge
    cases merge with
    | left found => cases stop.symm.trans found
    | right found found' =>
        cases stop.symm.trans found
        cases stop'.symm.trans found'
    | join found found' more rest =>
        cases stop.symm.trans found
        cases stop'.symm.trans found'
        exact ⟨more, _, rest, rfl⟩
  · rintro ⟨more, rest, merge, rfl⟩
    exact .join stop stop' more merge

/-- The left keys joined are keys ahead of the left cursor, not below the right one's. -/
theorem mem_left (merge : Merge marker ends₁ ends₂ ks ls pairs) (sorted : ks.Pairwise (· < ·)) :
    ∀ p ∈ pairs, p.1 ∈ ks ∧ ls.headD marker ≤ p.1 := by
  induction merge with
  | left | right => simp
  | join stop _ _ _ ih =>
      have least := atLeast_least sorted stop
      intro p member
      rcases List.mem_cons.mp member with rfl | later
      · exact least.1
      · have inside := (ih (stop_sorted sorted stop) p later).1
        rw [← stop] at inside
        exact (mem_atLeast sorted p.1).mp inside

/-- A key joined later is greater. -/
theorem later {a b : K} {as bs : List K} (merge : Merge marker ends₁ ends₂ (a :: as) bs pairs)
    (sorted : ks.Pairwise (· < ·)) (sorted' : ls.Pairwise (· < ·))
    (below : ∀ k ∈ ks, k < marker) {y : K} (stop : atLeast y ks = a :: as)
    (stop' : atLeast a ls = b :: bs) : ∀ p ∈ pairs, a < p.1 := by
  intro p member
  obtain ⟨inside, le⟩ := merge.mem_left (stop_sorted sorted stop) p member
  cases bs with
  | nil =>
      have high : p.1 < marker := below p.1 ((mem_atLeast sorted p.1).mp (stop ▸ inside)).1
      exact absurd high (not_lt.mpr le)
  | cons c cs =>
      have le : c ≤ p.1 := le
      have passed : b < c := ((mem_behind sorted' stop' c).mp List.mem_cons_self).2
      exact ((atLeast_least sorted' stop').1.2.trans_lt passed).trans_le le

/-- The left keys joined increase. -/
theorem ascending (merge : Merge marker ends₁ ends₂ ks ls pairs) (sorted : ks.Pairwise (· < ·))
    (sorted' : ls.Pairwise (· < ·)) (below : ∀ k ∈ ks, k < marker) :
    pairs.Pairwise fun p q => p.1 < q.1 := by
  induction merge with
  | left | right => exact List.Pairwise.nil
  | join stop stop' _ rest ih =>
      have behind := List.pairwise_cons.mp (stop_sorted sorted' stop')
      refine List.pairwise_cons.mpr ⟨rest.later sorted sorted' below stop stop', ?_⟩
      apply ih (stop_sorted sorted stop) behind.2
      intro k member
      exact below k ((mem_atLeast sorted k).mp (stop ▸ member)).1

end Merge

/-! ## When the rounds join the common keys -/

/-- The right cursor comes by `y`: it starts there, or moves there from a common key. -/
def Reached (common : K → Prop) (ls : List K) (y : K) : Prop :=
  IsLeast {z | z ∈ ls} y ∨ ∃ x, common x ∧ IsLeast {z | z ∈ ls ∧ x < z} y

/-- What two sets of keys have to do with the keys in common for the rounds to join these: both
cursors come by all of them, and from wherever the right cursor stands at the start of a round,
the left one overshoots none that it has yet to pass. -/
structure Matched (ends₁ ends₂ : Bool) (common : K → Prop) (ks ls : List K) : Prop where
  covered : ∀ k, common k → k ∈ ks ∧ k ∈ ls
  meets : ∀ y, Reached common ls y → ∀ a, IsLeast {k | k ∈ ks ∧ y ≤ k} a →
    (∃ b ∈ ls, a ≤ b) → common a
  /-- A left cursor that must not step stays where it is until the right one runs out. -/
  stays : ends₁ = false → ∃ y, IsLeast {z | z ∈ ls} y ∧ ∃ a ∈ ks, y ≤ a ∧ ∀ b ∈ ls, b < a
  steps : ends₂ = true

section Natural

variable {marker : K} {ends₁ ends₂ : Bool} {common : K → Prop} {ks ls as bs : List K} {a b y : K}

/-- Behind a common key the right cursor comes by the keys that follow a common one. -/
theorem reached_behind_iff (right : ∀ k, k ∈ bs ↔ k ∈ ls ∧ b < k) (here : common b) :
    Reached (fun k => common k ∧ b < k) bs y ↔
      ∃ x, common x ∧ b ≤ x ∧ IsLeast {z | z ∈ ls ∧ x < z} y := by
  have head : {z | z ∈ bs} = {z | z ∈ ls ∧ b < z} := Set.ext right
  have later : ∀ x, b < x → {z | z ∈ bs ∧ x < z} = {z | z ∈ ls ∧ x < z} := fun x above => by
    ext z
    simp only [Set.mem_ofPred_eq, right, and_assoc]
    exact and_congr_right fun _ => ⟨And.right, fun lt => ⟨above.trans lt, lt⟩⟩
  constructor
  · rintro (first | ⟨x, ⟨shared, above⟩, next⟩)
    · exact ⟨b, here, le_rfl, head ▸ first⟩
    · exact ⟨x, shared, above.le, later x above ▸ next⟩
  · rintro ⟨x, shared, le, next⟩
    rcases le.eq_or_lt with rfl | above
    · exact .inl (head ▸ next)
    · exact .inr ⟨x, ⟨shared, above⟩, (later x above).symm ▸ next⟩

/-- A round that joins two keys: the left one is the least common key, the right one is the same,
and what is left is matched over the greater keys. -/
theorem matched_join_iff (sorted : ks.Pairwise (· < ·)) (sorted' : ls.Pairwise (· < ·))
    (alone : ends₁ = false → ∃ k, ks = [k]) (start : IsLeast {z | z ∈ ls} y)
    (stop : atLeast y ks = a :: as) (stop' : atLeast a ls = b :: bs) :
    Matched ends₁ ends₂ common ks ls ↔ (common a ∧ b = a ∧ ∀ k, common k → a ≤ k) ∧
      Matched ends₁ ends₂ (fun k => common k ∧ a < k) (a :: as) bs := by
  have least := atLeast_least sorted stop
  have least' := atLeast_least sorted' stop'
  have left : ∀ k, k ∈ a :: as ↔ k ∈ ks ∧ y ≤ k := fun k => stop ▸ mem_atLeast sorted k
  have right := mem_behind sorted' stop'
  -- the left cursor finds the same key from either list
  have ahead : ∀ y', y ≤ y' → {k | k ∈ a :: as ∧ y' ≤ k} = {k | k ∈ ks ∧ y' ≤ k} := fun y' le => by
    ext k
    simp only [Set.mem_ofPred_eq, left, and_assoc]
    exact and_congr_right fun _ => ⟨And.right, fun le' => ⟨le.trans le', le'⟩⟩
  -- a left cursor that must not step has one key, so it stands at `a`
  have only : ends₁ = false → ∀ k ∈ ks, k = a := fun stuck k member => by
    obtain ⟨x, rfl⟩ := alone stuck
    rw [List.mem_singleton.mp member, ← List.mem_singleton.mp least.1.1]
  constructor
  · intro matched
    have here : common a := matched.meets y (.inl start) a least ⟨b, least'.1⟩
    obtain rfl : b = a := le_antisymm (least'.2 ⟨(matched.covered a here).2, le_rfl⟩) least'.1.2
    have low : ∀ k, common k → b ≤ k := fun k shared =>
      least.2 ⟨(matched.covered k shared).1, start.2 (matched.covered k shared).2⟩
    refine ⟨⟨here, rfl, low⟩, ?_, ?_, fun stuck => ?_, matched.steps⟩
    · rintro k ⟨shared, above⟩
      obtain ⟨member, member'⟩ := matched.covered k shared
      exact ⟨(left k).mpr ⟨member, start.2 member'⟩, (right k).mpr ⟨member', above⟩⟩
    · rintro y' reached a' least'' ⟨b', member, le⟩
      obtain ⟨x, shared, above, next⟩ := (reached_behind_iff right here).mp reached
      rw [ahead y' (start.2 next.1.1)] at least''
      refine ⟨matched.meets y' (.inr ⟨x, shared, next⟩) a' least'' ⟨b', ?_, le⟩, ?_⟩
      · exact ((right b').mp member).1
      · exact above.trans_lt (next.1.2.trans_le least''.1.2)
    · obtain ⟨y', -, a', member, -, passed⟩ := matched.stays stuck
      rw [only stuck a' member] at passed
      exact absurd (passed b least'.1.1) (lt_irrefl b)
  · rintro ⟨⟨here, rfl, low⟩, rest⟩
    refine ⟨fun k shared => ?_, ?_, fun stuck => ?_, rest.steps⟩
    · rcases (low k shared).eq_or_lt with rfl | above
      · exact ⟨least.1.1, least'.1.1⟩
      · obtain ⟨member, member'⟩ := rest.covered k ⟨shared, above⟩
        exact ⟨((left k).mp member).1, ((right k).mp member').1⟩
    · rintro y' (first | ⟨x, shared, next⟩) a' least'' ⟨b', member, le⟩
      · rw [first.unique start] at least''
        exact least''.unique least ▸ here
      · have reached := (reached_behind_iff right here).mpr ⟨x, shared, low x shared, next⟩
        have above : b < b' := (low x shared).trans_lt
          (next.1.2.trans_le (least''.1.2.trans le))
        rw [← ahead y' (start.2 next.1.1)] at least''
        exact (rest.meets y' reached a' least'' ⟨b', (right b').mpr ⟨member, above⟩, le⟩).1
    · obtain ⟨y', first, a', member, le, -⟩ := rest.stays stuck
      rw [only stuck a' ((left a').mp member).1] at le
      exact absurd ((right y').mp first.1).2 (not_lt.mpr le)

/-- A left cursor that finds a key found the right one at its least key. -/
theorem start_of_stop (sorted : ks.Pairwise (· < ·)) (sorted' : ls.Pairwise (· < ·))
    (below : ∀ k ∈ ks, k < marker) (stop : atLeast (ls.headD marker) ks = a :: as) :
    IsLeast {z | z ∈ ls} (ls.headD marker) := by
  cases ls with
  | nil =>
      have found := (atLeast_least sorted stop).1
      exact absurd (below a found.1) (not_lt.mpr found.2)
  | cons b bs => exact isLeast_head sorted'

/-- Where the left cursor runs out, no key is common. -/
theorem matched_left_iff (sorted' : ls.Pairwise (· < ·))
    (stop : atLeast (ls.headD marker) ks = []) :
    Matched ends₁ ends₂ common ks ls ↔ (∀ k, ¬ common k) ∧ ends₁ = true ∧ ends₂ = true := by
  have low := atLeast_eq_nil_iff.mp stop
  have start : ∀ y, IsLeast {z | z ∈ ls} y → ls.headD marker = y := fun y first => by
    cases ls with
    | nil => exact absurd first.1 List.not_mem_nil
    | cons b bs => exact (isLeast_head sorted').unique first
  constructor
  · intro matched
    refine ⟨fun k shared => ?_, ?_, matched.steps⟩
    · obtain ⟨member, member'⟩ := matched.covered k shared
      cases ls with
      | nil => exact absurd member' List.not_mem_nil
      | cons b bs => exact absurd (low k member) (not_lt.mpr ((isLeast_head sorted').2 member'))
    · by_contra stuck
      obtain ⟨y, first, a, member, le, -⟩ := matched.stays (Bool.eq_false_iff.mpr stuck)
      rw [← start y first] at le
      exact absurd (low a member) (not_lt.mpr le)
  · rintro ⟨none_, steps, steps'⟩
    refine ⟨fun k shared => absurd shared (none_ k), ?_, fun stuck => ?_, steps'⟩
    · rintro y (first | ⟨x, shared, -⟩) a least -
      · rw [← start y first] at least
        exact absurd (low a least.1.1) (not_lt.mpr least.1.2)
      · exact absurd shared (none_ x)
    · exact absurd (steps.symm.trans stuck) (by decide)

/-- Where the right cursor runs out, no key is common. -/
theorem matched_right_iff (sorted : ks.Pairwise (· < ·))
    (start : IsLeast {z | z ∈ ls} y) (stop : atLeast y ks = a :: as) (stop' : atLeast a ls = []) :
    Matched ends₁ ends₂ common ks ls ↔ (∀ k, ¬ common k) ∧ ends₂ = true := by
  have least := atLeast_least sorted stop
  have low := atLeast_eq_nil_iff.mp stop'
  constructor
  · intro matched
    refine ⟨fun k shared => ?_, matched.steps⟩
    obtain ⟨member, member'⟩ := matched.covered k shared
    exact absurd (low k member') (not_lt.mpr (least.2 ⟨member, start.2 member'⟩))
  · rintro ⟨none_, steps⟩
    refine ⟨fun k shared => absurd shared (none_ k), ?_, fun _ => ?_, steps⟩
    · rintro y' (first | ⟨x, shared, -⟩) a' least' ⟨b, member, le⟩
      · rw [first.unique start] at least'
        rw [least'.unique least] at le
        exact absurd (low b member) (not_lt.mpr le)
      · exact absurd shared (none_ x)
    · exact ⟨y, start, a, least.1.1, least.1.2, low⟩

/-- The pairs are the common keys, each with itself. -/
structure Diagonal (common : K → Prop) (pairs : List (K × K)) : Prop where
  same : ∀ p ∈ pairs, p.2 = p.1
  keys : ∀ k, (∃ p ∈ pairs, p.1 = k) ↔ common k

omit [LinearOrder K] in
theorem diagonal_nil_iff : Diagonal common [] ↔ ∀ k, ¬ common k :=
  ⟨fun diagonal k shared => by simpa using (diagonal.keys k).mpr shared,
    fun none_ => ⟨by simp, fun k => by simp [none_ k]⟩⟩

theorem diagonal_cons_iff {pairs : List (K × K)} (above : ∀ p ∈ pairs, a < p.1) :
    Diagonal common ((a, b) :: pairs) ↔ (common a ∧ b = a ∧ ∀ k, common k → a ≤ k) ∧
      Diagonal (fun k => common k ∧ a < k) pairs := by
  constructor
  · intro diagonal
    have keys : ∀ k, common k ↔ a = k ∨ ∃ p ∈ pairs, p.1 = k := fun k => by
      rw [← diagonal.keys k]
      simp
    refine ⟨⟨(keys a).mpr (.inl rfl), diagonal.same (a, b) List.mem_cons_self, fun k shared => ?_⟩,
      fun p member => diagonal.same p (List.mem_cons_of_mem _ member), fun k => ?_⟩
    · rcases (keys k).mp shared with rfl | ⟨p, member, rfl⟩
      · exact le_rfl
      · exact (above p member).le
    · constructor
      · rintro ⟨p, member, rfl⟩
        exact ⟨(keys p.1).mpr (.inr ⟨p, member, rfl⟩), above p member⟩
      · rintro ⟨shared, lt⟩
        exact ((keys k).mp shared).resolve_left lt.ne
  · rintro ⟨⟨here, rfl, low⟩, rest⟩
    refine ⟨fun p member => ?_, fun k => ⟨?_, fun shared => ?_⟩⟩
    · rcases List.mem_cons.mp member with rfl | later
      · rfl
      · exact rest.same p later
    · rintro ⟨p, member, rfl⟩
      rcases List.mem_cons.mp member with rfl | later
      · exact here
      · exact ((rest.keys p.1).mp ⟨p, later, rfl⟩).1
    · rcases (low k shared).eq_or_lt with rfl | lt
      · exact ⟨_, List.mem_cons_self, rfl⟩
      · obtain ⟨p, member, same⟩ := (rest.keys k).mpr ⟨shared, lt⟩
        exact ⟨p, List.mem_cons_of_mem _ member, same⟩

/-- The rounds come to an end only where the right cursor may step behind its last key. -/
theorem Merge.steps {pairs : List (K × K)} (merge : Merge marker ends₁ ends₂ ks ls pairs)
    (sorted' : ls.Pairwise (· < ·)) (alone' : ends₂ = false → ∃ k, ls = [k]) : ends₂ = true := by
  cases merge with
  | left _ _ steps => exact steps
  | right _ _ steps => exact steps
  | @join _ _ a b as bs _ _ stop' more _ =>
      rcases more with more | steps
      · by_contra stuck
        obtain ⟨k, rfl⟩ := alone' (Bool.eq_false_iff.mpr stuck)
        obtain ⟨c, cs, rfl⟩ := List.exists_cons_of_ne_nil more
        have behind := (mem_behind sorted' stop' c).mp List.mem_cons_self
        have here := (atLeast_least sorted' stop').1.1
        rw [List.mem_singleton.mp behind.1, List.mem_singleton.mp here] at behind
        exact lt_irrefl k behind.2
      · exact steps

/-- **The rounds join exactly the common keys, each with itself, if and only if the two sets of
keys are matched.** -/
theorem merge_natural_iff (sorted : ks.Pairwise (· < ·)) (sorted' : ls.Pairwise (· < ·))
    (below : ∀ k ∈ ks, k < marker) (alone : ends₁ = false → ∃ k, ks = [k])
    (alone' : ends₂ = false → ∃ k, ls = [k]) :
    (∃ pairs, Merge marker ends₁ ends₂ ks ls pairs ∧ Diagonal common pairs) ↔
      Matched ends₁ ends₂ common ks ls := by
  by_cases steps : ends₂ = true
  swap
  · exact iff_of_false (fun ⟨_, merge, _⟩ => steps (merge.steps sorted' alone'))
      fun matched => steps matched.steps
  -- each round leaves fewer keys ahead of the right cursor
  clear alone'
  induction len : ls.length using Nat.strong_induction_on generalizing common ks ls with
  | _ n ih =>
    cases stop : atLeast (ls.headD marker) ks with
    | nil =>
        simp only [matched_left_iff sorted' stop, Merge.left_iff stop, ← diagonal_nil_iff]
        exact ⟨fun ⟨_, ⟨empty, ends⟩, diagonal⟩ => ⟨empty ▸ diagonal, ends⟩,
          fun ⟨diagonal, ends⟩ => ⟨[], ⟨rfl, ends⟩, diagonal⟩⟩
    | cons a as =>
        have start := start_of_stop sorted sorted' below stop
        cases stop' : atLeast a ls with
        | nil =>
            simp only [matched_right_iff sorted start stop stop', Merge.right_iff stop stop',
              ← diagonal_nil_iff]
            exact ⟨fun ⟨_, ⟨empty, ends⟩, diagonal⟩ => ⟨empty ▸ diagonal, ends⟩,
              fun ⟨diagonal, ends⟩ => ⟨[], ⟨rfl, ends⟩, diagonal⟩⟩
        | cons b bs =>
            have ahead := stop_sorted sorted stop
            have behind := (List.pairwise_cons.mp (stop_sorted sorted' stop')).2
            have shorter : bs.length < n := by
              have := atLeast_length a ls
              rw [stop', List.length_cons] at this
              omega
            have below' : ∀ k ∈ a :: as, k < marker := fun k member =>
              below k ((mem_atLeast sorted k).mp (stop ▸ member)).1
            have alone' : ends₁ = false → ∃ k, a :: as = [k] := fun stuck => by
              obtain ⟨k, rfl⟩ := alone stuck
              have := atLeast_length (ls.headD marker) [k]
              rw [stop, List.length_cons, List.length_singleton] at this
              exact ⟨a, by rw [List.eq_nil_of_length_eq_zero (by omega : as.length = 0)]⟩
            rw [matched_join_iff sorted sorted' alone start stop stop',
              ← ih bs.length shorter ahead behind below' alone' rfl]
            constructor
            · rintro ⟨_, merge, diagonal⟩
              obtain ⟨-, pairs, rest, rfl⟩ := (Merge.join_iff stop stop').mp merge
              have split := (diagonal_cons_iff (rest.later sorted sorted' below stop stop')).mp diagonal
              exact ⟨split.1, pairs, rest, split.2⟩
            · rintro ⟨here, pairs, rest, diagonal⟩
              exact ⟨_, .join stop stop' (.inr steps) rest,
                (diagonal_cons_iff (rest.later sorted sorted' below stop stop')).mpr ⟨here, diagonal⟩⟩

end Natural

end SimpleDatabase.Theory
