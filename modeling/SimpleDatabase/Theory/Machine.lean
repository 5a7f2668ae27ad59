/- Theory.Machine -- running C code whose loops carry fuel

A function of the source is a total function into `Exec`: it returns, or it
stops at one of the faults C leaves undefined or ends the process with.  A loop
or a recursion with no bound of its own takes fuel, and running out of fuel is a
fault of its own, so it never passes for an answer.

`Returns f a` says what such a function does once the fuel is out of the way:
from some fuel on, every run gives `a`.  It is total correctness -- a body that
never returns satisfies no `Returns` -- and the answer is unique
(`Returns.unique`).  `Stuck f` says that from some fuel on every run faults.
-/
import Mathlib.Logic.Basic
import Mathlib.Data.Nat.Notation

namespace SimpleDatabase.Theory

set_option autoImplicit false

/-- What can stop C code short of a return. -/
inductive Fault where
  /-- An index outside its array. -/
  | outOfBounds
  /-- A dereference of the null pointer. -/
  | nullPointer
  /-- `exit (EXIT_FAILURE)`. -/
  | exitFailure
  /-- No room on the stack for a variable. -/
  | stackOverflow
  /-- The loop did not end within the fuel it was given. -/
  | outOfFuel
  deriving DecidableEq, Repr

/-- The outcome of running a piece of C code. -/
abbrev Exec (α : Type) := Except Fault α

namespace Exec

variable {α β : Type}

@[simp] theorem ok_bind (a : α) (f : α → Exec β) : (Except.ok a >>= f) = f a := rfl

@[simp] theorem error_bind (e : Fault) (f : α → Exec β) :
    ((Except.error e : Exec α) >>= f) = .error e := rfl

@[simp] theorem pure_eq_ok (a : α) : (pure a : Exec α) = .ok a := rfl

/-- A sequence that returns has run through both its parts. -/
theorem bind_eq_ok {x : Exec α} {f : α → Exec β} {b : β} :
    (x >>= f) = .ok b ↔ ∃ a, x = .ok a ∧ f a = .ok b := by
  cases x with
  | error e => simp
  | ok a => simp

end Exec

/-- From some fuel on, every run of `f` gives `a`. -/
def Returns {α : Type} (f : Nat → Exec α) (a : α) : Prop :=
  ∃ enough, ∀ fuel, enough ≤ fuel → f fuel = .ok a

namespace Returns

variable {α β : Type} {f : Nat → Exec α}

theorem unique {a b : α} (first : Returns f a) (second : Returns f b) : a = b := by
  obtain ⟨m, hm⟩ := first
  obtain ⟨n, hn⟩ := second
  have same := (hm (max m n) (Nat.le_max_left m n)).symm.trans (hn (max m n) (Nat.le_max_right m n))
  exact Except.ok.inj same

/-- A run that needs no fuel. -/
theorem of_forall {a : α} (h : ∀ fuel, f fuel = .ok a) : Returns f a :=
  ⟨0, fun fuel _ => h fuel⟩

theorem of_le {a : α} (n : Nat) (h : ∀ fuel, f (fuel + n) = .ok a) : Returns f a := by
  refine ⟨n, ?_⟩
  intro fuel enough
  obtain ⟨k, rfl⟩ := Nat.exists_eq_add_of_le' enough
  exact h k

/-- What agrees with a run that returns, from some fuel on, returns too. -/
theorem of_eq {a : α} {g : Nat → Exec α} (returns : Returns f a) (n : Nat)
    (same : ∀ fuel, n ≤ fuel → g fuel = f fuel) : Returns g a := by
  obtain ⟨m, hm⟩ := returns
  refine ⟨max m n, ?_⟩
  intro fuel enough
  rw [same fuel (Nat.le_trans (Nat.le_max_right m n) enough)]
  exact hm fuel (Nat.le_trans (Nat.le_max_left m n) enough)

/-- Sequencing: the fuel that serves both runs serves their composition. -/
theorem bind {a : α} {b : β} {g : Nat → α → Exec β} (first : Returns f a)
    (second : Returns (fun fuel => g fuel a) b) :
    Returns (fun fuel => f fuel >>= g fuel) b := by
  obtain ⟨m, hm⟩ := first
  obtain ⟨n, hn⟩ := second
  refine ⟨max m n, ?_⟩
  intro fuel enough
  have here := hm fuel (Nat.le_trans (Nat.le_max_left m n) enough)
  have there := hn fuel (Nat.le_trans (Nat.le_max_right m n) enough)
  simpa only [here, Exec.ok_bind] using there

/-- One unit of fuel more or less is all the same. -/
theorem succ_iff {a : α} : Returns (fun fuel => f (fuel + 1)) a ↔ Returns f a := by
  constructor
  · rintro ⟨m, hm⟩
    refine ⟨m + 1, ?_⟩
    intro fuel enough
    obtain ⟨fuel, rfl⟩ := Nat.exists_eq_add_of_le' (Nat.le_trans (Nat.le_add_left 1 m) enough)
    exact hm fuel (Nat.le_of_succ_le_succ enough)
  · rintro ⟨m, hm⟩
    exact ⟨m, fun fuel enough => hm (fuel + 1) (Nat.le_succ_of_le enough)⟩

/-- After a part that returns, the whole returns what the rest does. -/
theorem bind_iff {a : α} {b : β} {g : Nat → α → Exec β} (first : Returns f a) :
    Returns (fun fuel => f fuel >>= g fuel) b ↔ Returns (fun fuel => g fuel a) b := by
  refine ⟨?_, first.bind⟩
  obtain ⟨m, hm⟩ := first
  rintro ⟨n, hn⟩
  refine ⟨max m n, ?_⟩
  intro fuel enough
  have here := hm fuel (Nat.le_trans (Nat.le_max_left m n) enough)
  have there := hn fuel (Nat.le_trans (Nat.le_max_right m n) enough)
  simpa only [here, Exec.ok_bind] using there

/-- A run that needs no fuel returns one answer. -/
theorem const_iff {a b : α} : Returns (fun _ => .ok a) b ↔ a = b := by
  refine ⟨fun returns => (of_forall fun _ => rfl : Returns (fun _ => .ok a) a).unique returns, ?_⟩
  rintro rfl
  exact of_forall fun _ => rfl

end Returns

/-- From some fuel on, every run of `f` ends in a fault. -/
def Stuck {α : Type} (f : Nat → Exec α) : Prop :=
  ∃ enough, ∀ fuel, enough ≤ fuel → ∃ e, f fuel = .error e

namespace Stuck

variable {α β : Type} {f : Nat → Exec α}

theorem not_returns (stuck : Stuck f) (a : α) : ¬ Returns f a := by
  obtain ⟨m, hm⟩ := stuck
  rintro ⟨n, hn⟩
  obtain ⟨e, fault⟩ := hm (max m n) (Nat.le_max_left m n)
  exact nomatch fault.symm.trans (hn (max m n) (Nat.le_max_right m n))

theorem of_forall {e : Fault} (h : ∀ fuel, f fuel = .error e) : Stuck f :=
  ⟨0, fun fuel _ => ⟨e, h fuel⟩⟩

theorem of_succ (stuck : Stuck fun fuel => f (fuel + 1)) : Stuck f := by
  obtain ⟨m, hm⟩ := stuck
  refine ⟨m + 1, ?_⟩
  intro fuel enough
  obtain ⟨fuel, rfl⟩ := Nat.exists_eq_add_of_le' (Nat.le_trans (Nat.le_add_left 1 m) enough)
  exact hm fuel (Nat.le_of_succ_le_succ enough)

/-- What is stuck in its first part is stuck. -/
theorem bind (stuck : Stuck f) (g : Nat → α → Exec β) : Stuck fun fuel => f fuel >>= g fuel := by
  obtain ⟨m, hm⟩ := stuck
  refine ⟨m, ?_⟩
  intro fuel enough
  obtain ⟨e, fault⟩ := hm fuel enough
  exact ⟨e, by simp only [fault, Exec.error_bind]⟩

/-- What is stuck after its first part is stuck. -/
theorem after {a : α} {g : Nat → α → Exec β} (first : Returns f a)
    (stuck : Stuck fun fuel => g fuel a) : Stuck fun fuel => f fuel >>= g fuel := by
  obtain ⟨m, hm⟩ := first
  obtain ⟨n, hn⟩ := stuck
  refine ⟨max m n, ?_⟩
  intro fuel enough
  have here := hm fuel (Nat.le_trans (Nat.le_max_left m n) enough)
  obtain ⟨e, fault⟩ := hn fuel (Nat.le_trans (Nat.le_max_right m n) enough)
  exact ⟨e, by simpa only [here, Exec.ok_bind] using fault⟩

end Stuck

end SimpleDatabase.Theory
