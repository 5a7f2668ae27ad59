/- Theory.Links -- null-terminated lists threaded through a pointer field

`Linked next ps e` says the addresses `ps` are linked in order by `next` and the
last of them points to `e`; `Chain next head ps` is the whole list, from its
head to the null address `0`.  The list of addresses is a function of the
pointers (`Chain.unique`), so the two say what following the links finds.
-/
import Mathlib.Data.List.Basic
import Mathlib.Logic.Function.Basic

namespace SimpleDatabase.Theory

set_option autoImplicit false

/-- `next` leads through `ps` in order and from its last address to `e`. -/
def Linked (next : Nat → Nat) : List Nat → Nat → Prop
  | [], _ => True
  | p :: ps, e => next p = ps.headD e ∧ Linked next ps e

/-- The null-terminated list that starts at `head` is `ps`. -/
structure Chain (next : Nat → Nat) (head : Nat) (ps : List Nat) : Prop where
  head_eq : head = ps.headD 0
  linked : Linked next ps 0
  nonnull : 0 ∉ ps

namespace Linked

variable {next next' : Nat → Nat}

theorem append_iff (ps qs : List Nat) (e : Nat) :
    Linked next (ps ++ qs) e ↔ Linked next ps (qs.headD e) ∧ Linked next qs e := by
  induction ps with
  | nil => simp [Linked]
  | cons p ps ih =>
      simp only [List.cons_append, Linked, ih]
      cases ps <;> simp [and_assoc]

/-- Only the pointers of the listed addresses matter. -/
theorem congr {ps : List Nat} {e : Nat} (same : ∀ p ∈ ps, next' p = next p)
    (linked : Linked next ps e) : Linked next' ps e := by
  induction ps with
  | nil => trivial
  | cons p ps ih =>
      obtain ⟨here, rest⟩ := linked
      exact ⟨(same p (by simp)).trans here, ih (fun q hq => same q (by simp [hq])) rest⟩

end Linked

namespace Chain

variable {next next' : Nat → Nat} {head : Nat} {ps : List Nat}

theorem nil : Chain next 0 [] := ⟨rfl, trivial, by simp⟩

theorem cons {p : Nat} (nonnull : p ≠ 0) (tail : Chain next (next p) ps) :
    Chain next p (p :: ps) :=
  ⟨rfl, ⟨tail.head_eq, tail.linked⟩, by simpa using ⟨Ne.symm nonnull, tail.nonnull⟩⟩

theorem tail {p : Nat} (chain : Chain next head (p :: ps)) : Chain next (next p) ps :=
  ⟨chain.linked.1, chain.linked.2, fun h => chain.nonnull (by simp [h])⟩

theorem congr (same : ∀ p ∈ ps, next' p = next p) (chain : Chain next head ps) :
    Chain next' head ps :=
  ⟨chain.head_eq, chain.linked.congr same, chain.nonnull⟩

theorem eq_nil (chain : Chain next 0 ps) : ps = [] := by
  cases ps with
  | nil => rfl
  | cons p ps =>
      have here : 0 = p := chain.head_eq
      exact absurd (by simp [here]) chain.nonnull

theorem ne_nil (chain : Chain next head ps) (nonnull : head ≠ 0) :
    ∃ qs, ps = head :: qs := by
  cases ps with
  | nil => exact absurd chain.head_eq nonnull
  | cons p qs => exact ⟨qs, by rw [show p = head from chain.head_eq.symm]⟩

/-- A list of one address. -/
theorem single (next : Nat → Nat) {p : Nat} (nonnull : p ≠ 0) : Chain (Function.update next p 0) p [p] :=
  cons nonnull (by rw [Function.update_self]; exact nil)

/-- The first address is taken away. -/
theorem behind {p : Nat} (chain : Chain next head (p :: ps)) (distinct : (p :: ps).Nodup) :
    Chain (Function.update next p 0) (next p) ps := by
  refine chain.tail.congr fun q member => Function.update_of_ne ?_ _ _
  rintro rfl
  exact (List.nodup_cons.mp distinct).1 member

/-- A new address comes behind the last one, `l`. -/
theorem snoc {l p : Nat} (chain : Chain next head (ps ++ [l])) (distinct : (ps ++ [l] ++ [p]).Nodup) (nonnull : p ≠ 0) :
    Chain (Function.update (Function.update next l p) p 0) head (ps ++ [l] ++ [p]) := by
  rw [List.nodup_append] at distinct
  obtain ⟨apart, -, other⟩ := distinct
  have neP : ∀ q ∈ ps ++ [l], q ≠ p := fun q member => other q member p (by simp)
  have neL : ∀ q ∈ ps, q ≠ l := fun q member => (List.nodup_append.mp apart).2.2 q member l (by simp)
  refine ⟨?_, ?_, ?_⟩
  · rw [chain.head_eq]
    cases ps <;> rfl
  · rw [Linked.append_iff, Linked.append_iff]
    refine ⟨⟨((Linked.append_iff _ _ _).mp chain.linked).1.congr fun q member => ?_, ?_, trivial⟩, ?_, trivial⟩
    · rw [Function.update_of_ne (neP q (List.mem_append_left _ member)), Function.update_of_ne (neL q member)]
    · rw [Function.update_of_ne (neP l (by simp)), Function.update_self]
      rfl
    · rw [Function.update_self]
      rfl
  · rw [List.mem_append, not_or]
    exact ⟨chain.nonnull, by simpa using nonnull.symm⟩

/-- Following the links from one head finds one list. -/
theorem unique {qs : List Nat} (first : Chain next head ps) (second : Chain next head qs) :
    ps = qs := by
  induction ps generalizing head qs with
  | nil =>
      have : head = 0 := first.head_eq
      subst this
      exact second.eq_nil.symm
  | cons p ps ih =>
      have hp : head = p := first.head_eq
      subst hp
      obtain ⟨rs, rfl⟩ := second.ne_nil (fun h => first.nonnull (by simp [h]))
      rw [ih first.tail second.tail]

end Chain

end SimpleDatabase.Theory
