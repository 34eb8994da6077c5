import Mathlib.Tactic.Common

/-! # State machines

A machine moves from a state by an action, where the action is possible there. What holds
of the initial state and is kept by every step holds of every state a run reaches. -/

structure Machine (σ α : Type) where
  init : σ
  step : σ → α → Option σ

namespace Machine

variable {σ α : Type} {machine : Machine σ α} {s t : σ}

inductive Reachable (machine : Machine σ α) : σ → Prop where
  | init : Reachable machine machine.init
  | step {s t : σ} (a : α) (h : Reachable machine s) (hstep : machine.step s a = some t) :
      Reachable machine t

/-- An inductive invariant holds of every state that is reached. -/
theorem Reachable.invariant {Inv : σ → Prop} (hinit : Inv machine.init)
    (hstep : ∀ s a t, Inv s → machine.step s a = some t → Inv t) (h : machine.Reachable s) :
    Inv s := by
  induction h with
  | init => exact hinit
  | step a h hmove ih => exact hstep _ a _ ih hmove

/-- The state after a list of actions, where each is possible. -/
def run (machine : Machine σ α) (s : σ) (actions : List α) : Option σ :=
  actions.foldlM machine.step s

theorem Reachable.run {actions : List α} (h : machine.Reachable s)
    (hrun : machine.run s actions = some t) : machine.Reachable t := by
  induction actions generalizing s with
  | nil =>
    cases hrun
    exact h
  | cons a actions ih =>
    obtain ⟨next, hstep, hrest⟩ := Option.bind_eq_some_iff.mp hrun
    exact ih (h.step a hstep) hrest

end Machine
