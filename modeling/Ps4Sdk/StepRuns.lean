import Mathlib.Logic.Function.Basic
import Mathlib.Data.Nat.Notation

/-!
# Finite runs of labelled step relations

A run records the actions taken, in order. A guarded system takes a step only in
a state that meets the guard of the action. Whatever one guarded step preserves
holds at the end of every guarded run, and a guarded run is a run.
-/

namespace Ps4Sdk.StepRuns

universe u v

variable {State : Type u} {Action : Type v}

inductive Run (step : State → Action → State → Prop) : State → List Action → State → Prop
  | nil (s : State) : Run step s [] s
  | cons {s t u : State} {a : Action} {as : List Action}
      (first : step s a t) (rest : Run step t as u) : Run step s (a :: as) u

/-- The steps that start in a state meeting the guard of their action. -/
def Guarded (guard : State → Action → Prop) (step : State → Action → State → Prop)
    (s : State) (a : Action) (t : State) : Prop := guard s a ∧ step s a t

variable {step : State → Action → State → Prop} {guard : State → Action → Prop}
variable {s t u : State} {a : Action} {as bs : List Action}

theorem Run.single (h : step s a t) : Run step s [a] t := .cons h (.nil t)

theorem Run.trans (h : Run step s as t) (h' : Run step t bs u) : Run step s (as ++ bs) u := by
  induction h with
  | nil s => exact h'
  | cons first rest ih => exact .cons first (ih h')

theorem Run.invariant {Inv : State → Prop}
    (preserved : ∀ s a t, Inv s → step s a t → Inv t)
    (h : Run step s as t) (hs : Inv s) : Inv t := by
  induction h with
  | nil s => exact hs
  | cons first rest ih => exact ih (preserved _ _ _ hs first)

theorem Run.invariant_exists {Extra : Type*} {Inv : Extra → State → Prop}
    (preserved : ∀ x s a t, Inv x s → step s a t → ∃ y, Inv y t)
    (h : Run step s as t) {x : Extra} (hs : Inv x s) : ∃ y, Inv y t := by
  induction h generalizing x with
  | nil s => exact ⟨x, hs⟩
  | cons first rest ih =>
    obtain ⟨y, hy⟩ := preserved _ _ _ _ hs first
    exact ih hy

theorem Run.simulation {Abstract : Type*} {next : Abstract → Action → Abstract}
    {b : Abstract} (Rel : State → Abstract → Prop)
    (preserved : ∀ s b a t, Rel s b → step s a t → Rel t (next b a))
    (h : Run step s as t) (hs : Rel s b) : Rel t (as.foldl next b) := by
  induction h generalizing b with
  | nil s => exact hs
  | cons first rest ih => exact ih (preserved _ _ _ _ hs first)

theorem Run.unguard (h : Run (Guarded guard step) s as t) : Run step s as t := by
  induction h with
  | nil s => exact .nil s
  | cons first rest ih => exact .cons first.2 ih

theorem Run.map {Action' : Type*} {step' : State → Action' → State → Prop} (f : Action → Action')
    (included : ∀ s a t, step s a t → step' s (f a) t) (h : Run step s as t) :
    Run step' s (as.map f) t := by
  induction h with
  | nil s => exact .nil s
  | cons first rest ih => exact .cons (included _ _ _ first) ih

theorem Run.reguard {guard' : State → Action → Prop} {Inv : State → Prop}
    (implied : ∀ s a, Inv s → guard s a → guard' s a)
    (preserved : ∀ s a t, Inv s → Guarded guard step s a t → Inv t)
    (h : Run (Guarded guard step) s as t) (hs : Inv s) : Run (Guarded guard' step) s as t := by
  induction h with
  | nil s => exact .nil s
  | cons first rest ih => exact .cons ⟨implied _ _ hs first.1, first.2⟩ (ih
      (preserved _ _ _ hs first))

end Ps4Sdk.StepRuns
