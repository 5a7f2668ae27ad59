/- Theory.Ascending -- ascending lists, and lists cut in two by a predicate

Where a predicate that holds of an element holds of all before it, what a loop takes while
it holds is all there is of it.  In an ascending list being below a bound is such a predicate.
-/
import Mathlib.Data.List.TakeWhile
import Mathlib.Data.List.Pairwise
import Mathlib.Data.Int.Interval

namespace SimpleDatabase.Theory

set_option autoImplicit false

variable {α : Type} {p : α → Bool} {l : List α}

/-- The predicate goes down the list: if it holds later, it holds earlier. -/
def Descends (p : α → Bool) (l : List α) : Prop := l.Pairwise fun x y => p y = true → p x = true

namespace Descends

theorem tail {a : α} (descends : Descends p (a :: l)) : Descends p l := (List.pairwise_cons.mp descends).2

/-- Where it fails first, it fails. -/
theorem fails {a : α} (descends : Descends p (a :: l)) (first : p a = false) : ∀ x ∈ l, p x = false := by
  intro x member
  by_contra holds
  have here := (List.pairwise_cons.mp descends).1 x member (by simpa using holds)
  rw [first] at here
  cases here

theorem takeWhile_eq (descends : Descends p l) : l.takeWhile p = l.filter p := by
  induction l with
  | nil => rfl
  | cons a l ih =>
      by_cases here : p a = true
      · rw [List.takeWhile_cons_of_pos here, List.filter_cons_of_pos here, ih descends.tail]
      · have fails := descends.fails (by simpa using here)
        rw [List.takeWhile_cons_of_neg here, List.filter_cons_of_neg here, eq_comm, List.filter_eq_nil_iff]
        intro x member
        simp [fails x member]

theorem dropWhile_eq (descends : Descends p l) : l.dropWhile p = l.filter fun x => !p x := by
  induction l with
  | nil => rfl
  | cons a l ih =>
      by_cases here : p a = true
      · rw [List.dropWhile_cons_of_pos here, List.filter_cons_of_neg (by simp [here]), ih descends.tail]
      · have fails := descends.fails (by simpa using here)
        rw [List.dropWhile_cons_of_neg here, List.filter_cons_of_pos (by simpa using here), eq_comm]
        congr 1
        rw [List.filter_eq_self]
        intro x member
        simp [fails x member]

end Descends

/-- In a list of ascending keys, being below a bound goes down. -/
theorem descends_of_ascending {K : Type} [LinearOrder K] {key : α → K} (ascending : (l.map key).Pairwise (· < ·))
    {q : K → Bool} (down : ∀ x y : K, x ≤ y → q y = true → q x = true) : Descends (fun a => q (key a)) l :=
  (List.pairwise_map.mp ascending).imp fun less => down _ _ less.le

/-- An ascending list from one of its elements on. -/
theorem filter_le_of_ascending {K : Type} [LinearOrder K] {ks before after : List K} {k : K}
    (ascending : ks.Pairwise (· < ·)) (split : ks = before ++ k :: after) : ks.filter (k ≤ ·) = k :: after := by
  subst split
  rw [List.pairwise_append, List.pairwise_cons] at ascending
  obtain ⟨-, ⟨later, -⟩, apart⟩ := ascending
  have none_ : before.filter (k ≤ ·) = [] := by
    rw [List.filter_eq_nil_iff]
    intro x member
    simpa using apart x member k List.mem_cons_self
  have all : (k :: after).filter (k ≤ ·) = k :: after := by
    rw [List.filter_eq_self]
    intro x member
    rcases List.mem_cons.mp member with rfl | behind
    · simp
    · simpa using (later x behind).le
  rw [List.filter_append, none_, List.nil_append, all]

/-- Ascending numbers are no more than there are. -/
theorem length_le_of_ascending {a b : Int} {ks : List Int} (ascending : ks.Pairwise (· < ·))
    (inside : ∀ k ∈ ks, a ≤ k ∧ k ≤ b) : ks.length ≤ (b + 1 - a).toNat := by
  have distinct : ks.Nodup := ascending.imp fun less => less.ne
  rw [← Int.card_Icc, ← List.toFinset_card_of_nodup distinct]
  refine Finset.card_le_card fun k member => ?_
  exact Finset.mem_Icc.mpr (inside k (List.mem_toFinset.mp member))

end SimpleDatabase.Theory
