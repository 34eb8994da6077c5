import Mathlib.Tactic.Common

/-! # Computations over a locked state

`Locked ε σ α` reads and changes a state of type `σ` and can refuse with an error of type
`ε`. A refusal keeps the state it is raised in, so that whether a refused computation
changed anything is a question about it. -/

/-- A computation that holds the lock of a state. -/
abbrev Locked (ε σ α : Type) := ExceptT ε (StateM σ) α

namespace Locked

variable {ε σ α β : Type}

/-- The result of a computation and the state it leaves. -/
def run (x : Locked ε σ α) (s : σ) : Except ε α × σ := x s

theorem run_bind (x : Locked ε σ α) (f : α → Locked ε σ β) (s : σ) :
    (x >>= f).run s = match x.run s with
      | (.ok a, s') => (f a).run s'
      | (.error e, s') => (.error e, s') := by
  show (match x s with | (a, s') => ExceptT.bindCont f a s') = _
  unfold run
  rcases x s with ⟨a | a, s'⟩ <;> rfl

/-- A check that only reads. -/
theorem run_lift (x : Except ε α) (s : σ) : (liftM x : Locked ε σ α).run s = (x, s) := rfl

/-- A computation behind a check. -/
theorem run_check (x : Except ε α) (f : α → Locked ε σ β) (s : σ) :
    ((liftM x : Locked ε σ α) >>= f).run s = match x with
      | .ok a => (f a).run s
      | .error e => (.error e, s) := by
  rw [run_bind, run_lift]
  cases x <;> rfl

/-- A check behind a check is one check. -/
theorem run_checks (x : Except ε Unit) (y : Except ε α) (f : α → Locked ε σ β) (s : σ) :
    ((liftM x : Locked ε σ Unit) >>= fun _ => (liftM y : Locked ε σ α) >>= f).run s =
      ((liftM (x >>= fun _ => y) : Locked ε σ α) >>= f).run s := by
  cases x <;> rfl

/-- The result of a check, and the changed state where it passes. -/
def guarded (check : Except ε Unit) (s s' : σ) : Except ε Unit × σ :=
  match check with
  | .ok () => (.ok (), s')
  | .error e => (.error e, s)

/-- A change behind a check. -/
theorem run_check_modify (x : Except ε Unit) (change : σ → σ) (s : σ) :
    ((liftM x : Locked ε σ Unit) >>= fun _ => (modify change : Locked ε σ Unit)).run s =
      guarded x s (change s) := by
  cases x <;> rfl

/-- A computation that starts from the state. -/
theorem run_get_bind (f : σ → Locked ε σ β) (s : σ) :
    ((get : Locked ε σ σ) >>= f).run s = (f s).run s := rfl

end Locked
