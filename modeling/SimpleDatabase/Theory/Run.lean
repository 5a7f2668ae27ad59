/- Theory.Run -- finite runs of a labelled transition system

A `Run step s ls t` takes the steps labelled `ls` in order and leads from `s` to
`t`.  What every step preserves, every run preserves (`Run.invariant`); where every
step has one of a specification with its label, so has every run (`Run.simulation`);
and where every step is possible, every run is (`Run.exists_of_progress`).

`Along step P a b` is a path of unlabelled steps on which `P` holds throughout.  Where a
state has one next state at most, a path that cannot go on is all that can be reached
(`Along.all_reached`).
-/
import Mathlib.Logic.Relation

namespace SimpleDatabase.Theory

set_option autoImplicit false

/-- The steps labelled `ls`, one after the other. -/
inductive Run {S L : Type} (step : S → L → S → Prop) : S → List L → S → Prop
  | nil (s : S) : Run step s [] s
  | cons {s t u : S} {l : L} {ls : List L} :
      step s l t → Run step t ls u → Run step s (l :: ls) u

namespace Run

variable {S L : Type} {step : S → L → S → Prop} {inv : S → Prop}

/-- What every step preserves holds at the end of every run. -/
theorem invariant {s t : S} {ls : List L} (run : Run step s ls t)
    (preserved : ∀ s l t, inv s → step s l t → inv t) (start : inv s) : inv t := by
  induction run with
  | nil => exact start
  | cons here _ ih => exact ih (preserved _ _ _ start here)

theorem append {s t u : S} {ls ls' : List L} (first : Run step s ls t) (second : Run step t ls' u) :
    Run step s (ls ++ ls') u := by
  induction first with
  | nil => exact second
  | cons here _ ih => exact .cons here (ih second)

/-- Forward simulation: where every step has one of the specification with its label, every
run has a run of the specification with its labels. -/
theorem simulation {A : Type} {spec : A → L → A → Prop} {R : S → A → Prop} {s t : S} {ls : List L}
    (run : Run step s ls t) (simulates : ∀ s a l t, R s a → step s l t → ∃ b, spec a l b ∧ R t b)
    {a : A} (start : R s a) : ∃ b, Run spec a ls b ∧ R t b := by
  induction run generalizing a with
  | nil => exact ⟨a, .nil a, start⟩
  | cons here _ ih =>
      obtain ⟨b, first, related⟩ := simulates _ _ _ _ start here
      obtain ⟨c, rest, final⟩ := ih related
      exact ⟨c, .cons first rest, final⟩

/-- Where every step is possible, every sequence of labels has a run. -/
theorem exists_of_progress (preserved : ∀ s l t, inv s → step s l t → inv t)
    (progress : ∀ s l, inv s → ∃ t, step s l t) {s : S} (start : inv s) (ls : List L) :
    ∃ t, Run step s ls t := by
  induction ls generalizing s with
  | nil => exact ⟨s, .nil s⟩
  | cons l ls ih =>
      obtain ⟨t, here⟩ := progress s l start
      obtain ⟨u, rest⟩ := ih (preserved s l t start here)
      exact ⟨u, .cons here rest⟩

end Run

/-- A path from one state to another, with `P` in every state on it. -/
inductive Along {S : Type} (step : S → S → Prop) (P : S → Prop) : S → S → Prop
  | stop {a : S} : P a → Along step P a a
  | go {a b c : S} : P a → step a b → Along step P b c → Along step P a c

namespace Along

variable {S : Type} {step : S → S → Prop} {P : S → Prop} {a b c : S}

theorem trans (first : Along step P a b) (second : Along step P b c) : Along step P a c := by
  induction first with
  | stop => exact second
  | go here next _ ih => exact .go here next (ih second)

theorem last_holds (path : Along step P a b) : P b := by
  induction path with
  | stop here => exact here
  | go _ _ _ ih => exact ih

/-- **What holds on a path holds of all that can be reached**, if the steps leave no choice
and the path cannot go on. -/
theorem all_reached (path : Along step P a b) (last : ∀ c, ¬ step b c)
    (unique : ∀ a b c, step a b → step a c → b = c) (reached : Relation.ReflTransGen step a c) :
    P c := by
  induction path with
  | stop here =>
      rcases Relation.ReflTransGen.cases_head reached with rfl | ⟨d, next, -⟩
      · exact here
      · exact absurd next (last d)
  | go here first _ ih =>
      rcases Relation.ReflTransGen.cases_head reached with rfl | ⟨d, next, rest⟩
      · exact here
      · exact ih last (unique _ _ _ next first ▸ rest)

end Along

end SimpleDatabase.Theory
