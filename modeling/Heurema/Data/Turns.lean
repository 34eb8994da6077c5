import Heurema.Data.Program
import Mathlib.Logic.Function.Basic

/-! # Programs that take turns

Threads run programs on a state they share, and only the thread that holds the turn goes on.
What they leave is then what their programs leave that run alone one after the other, in the
order in which the threads gave up the turn. -/

namespace Program

variable {Call : Type} {Reply : Call → Type} {ε α σ : Type}
  {act : (c : Call) → σ → Except ε (Reply c) × σ}

/-- How a program ended, unless it has a call to make. -/
def outcome : Program Reply ε α → Option (Outcome ε α)
  | done outcome => some outcome
  | call _ _ => none

/-- What is left of a program after calls it made alone, and the state they lead to. -/
inductive Leads (act : (c : Call) → σ → Except ε (Reply c) × σ) :
    Program Reply ε α → σ → Program Reply ε α → σ → Prop where
  | refl {program : Program Reply ε α} {state : σ} : Leads act program state program state
  | call {program : Program Reply ε α} {c : Call} {next : Reply c → Program Reply ε α}
      {state before : σ} (made : Leads act program state (call c next) before) :
      Leads act program state (resume next (act c before).1) (act c before).2

theorem run_call {c : Call} {next : Reply c → Program Reply ε α} {state : σ} :
    (call c next).run act state = (resume next (act c state).1).run act (act c state).2 := by
  rw [run]
  rcases act c state with ⟨answer, after⟩
  cases answer <;> rfl

/-- A program goes on as if it had run alone from where it started. -/
theorem Leads.run {program rest : Program Reply ε α} {state after : σ}
    (h : Leads act program state rest after) : program.run act state = rest.run act after := by
  induction h with
  | refl => rfl
  | call made ih => exact ih.trans run_call

/-- A program that ended did what it does alone. -/
theorem Leads.ended {program rest : Program Reply ε α} {state after : σ} {outcome : Outcome ε α}
    (h : Leads act program state rest after) (hended : rest.outcome = some outcome) :
    program.run act state = (outcome, after) := by
  cases rest with
  | done last =>
    cases hended
    exact h.run
  | call c next => cases hended

/-- What follows a program is left of both together. -/
theorem Leads.bind {β : Type} {program rest : Program Reply ε α} {state after : σ}
    (h : Leads act program state rest after) (f : α → Program Reply ε β) :
    Leads act (program >>= f) state (rest >>= f) after := by
  induction h with
  | refl => exact .refl
  | @call c next state before made ih =>
    rw [call_bind] at ih
    rw [resume_bind]
    exact .call ih

end Program

open Program

/-- A pool reaches what a program leads to that makes its next calls alone. -/
theorem Pool.Reachable.leads {Call : Type} {Reply : Call → Type} {ε α σ : Type}
    {act : (c : Call) → σ → Except ε (Reply c) × σ} {acts : Acts Reply ε σ}
    (hact : ∀ c state, acts c state (act c state).1 (act c state).2)
    {starts : Program Reply ε α → Prop} {init state after : σ} {program rest : Program Reply ε α}
    {programs : List (Program Reply ε α)}
    (h : Pool.Reachable acts starts init ⟨state, program :: programs⟩)
    (hleads : Leads act program state rest after) :
    Pool.Reachable acts starts init ⟨after, rest :: programs⟩ := by
  induction hleads with
  | refl => exact h
  | @call c next state before made ih =>
    have hanswered : Pool.Step acts starts ⟨before, [] ++ Program.call c next :: programs⟩ _ :=
      .answered (hact c before)
    exact (ih h).step hanswered

section Turns

variable {T κ : Type} {Call : Type} {Reply : Call → Type} {ε α σ : Type}

/-- A job that a thread is at, and what is left of its program. -/
structure Work (κ : Type) {Call : Type} (Reply : Call → Type) (ε α : Type) where
  job : κ
  rest : Program Reply ε α

/-- A turn that a thread took for a job: the outcome, unless the job was given up before its
end. -/
structure Turn (T κ ε α : Type) where
  thread : T
  job : κ
  outcome : Option (Outcome ε α)

/-- A shared state, the threads that are at a job or wait for the turn to start it, and the
turns that were taken, the last first. -/
structure Turns (T κ : Type) {Call : Type} (Reply : Call → Type) (ε σ α : Type) where
  holder : Option T
  state : σ
  works : T → Option (Work κ Reply ε α)
  taken : List (Turn T κ ε α)

/-- The turn of a work that is over. -/
def Work.turn (thread : T) (work : Work κ Reply ε α) : Turn T κ ε α :=
  ⟨thread, work.job, work.rest.outcome⟩

variable [DecidableEq T]

namespace Turns

/-- The turns that were taken, one after the other from a state: each job runs alone from where
the one before it stopped, to its end or until it was given up. -/
inductive Serial (act : (c : Call) → σ → Except ε (Reply c) × σ) (program : κ → Program Reply ε α)
    (start : σ) : List (Turn T κ ε α) → σ → Prop where
  | nil : Serial act program start [] start
  | turn {taken : List (Turn T κ ε α)} {thread : T} {job : κ} {rest : Program Reply ε α}
      {before after : σ} (earlier : Serial act program start taken before)
      (led : Leads act (program job) before rest after) :
      Serial act program start (⟨thread, job, rest.outcome⟩ :: taken) after

/-- The turns that were taken lead to a state, from which the holder of the turn got to the
present one; the others have not begun. -/
structure Ordered (act : (c : Call) → σ → Except ε (Reply c) × σ) (program : κ → Program Reply ε α)
    (start : σ) (turns : Turns T κ Reply ε σ α) (last : σ) : Prop where
  serial : Serial act program start turns.taken last
  waiting : ∀ thread work, turns.works thread = some work → turns.holder ≠ some thread →
    work.rest = program work.job
  working : ∀ thread work, turns.works thread = some work → turns.holder = some thread →
    Leads act (program work.job) last work.rest turns.state
  idle : (∀ thread, turns.holder = some thread → turns.works thread = none) → turns.state = last

variable {act : (c : Call) → σ → Except ε (Reply c) × σ} {program : κ → Program Reply ε α}
  {start last : σ} {turns : Turns T κ Reply ε σ α}

omit [DecidableEq T] in
theorem Ordered.init : Ordered act program start
    (⟨none, start, fun _ => none, []⟩ : Turns T κ Reply ε σ α) start where
  serial := .nil
  waiting _ _ hwork := by cases hwork
  working _ _ hwork := by cases hwork
  idle _ := rfl

/-- A thread that starts to wait has not begun. -/
theorem Ordered.enter (h : Ordered act program start turns last) {thread : T} {job : κ}
    (hidle : turns.works thread = none) (houtside : turns.holder ≠ some thread) :
    Ordered act program start
      { turns with works := Function.update turns.works thread (some ⟨job, program job⟩) } last where
  serial := h.serial
  waiting := by
    intro other work hwork hother
    dsimp only at hwork
    by_cases hsame : other = thread
    · subst hsame
      rw [Function.update_self] at hwork
      cases hwork
      rfl
    · rw [Function.update_of_ne hsame] at hwork
      exact h.waiting other work hwork hother
  working := by
    intro other work hwork hholds
    have hne : other ≠ thread := fun hsame => houtside (hsame ▸ hholds)
    dsimp only at hwork
    rw [Function.update_of_ne hne] at hwork
    exact h.working other work hwork hholds
  idle := by
    intro hnone
    refine h.idle fun other hholds => ?_
    have hne : other ≠ thread := fun hsame => houtside (hsame ▸ hholds)
    have hwork := hnone other hholds
    dsimp only at hwork
    rwa [Function.update_of_ne hne] at hwork

omit [DecidableEq T] in
/-- A thread that takes a free turn starts from where the last one stopped. -/
theorem Ordered.take (h : Ordered act program start turns last) {thread : T}
    (hfree : turns.holder = none) :
    Ordered act program start { turns with holder := some thread } last := by
  have hstate : turns.state = last := h.idle fun other hholds => by
    rw [hfree] at hholds
    cases hholds
  have hfirst (other : T) (work : Work κ Reply ε α) (hwork : turns.works other = some work) :
      work.rest = program work.job := by
    refine h.waiting other work hwork ?_
    rw [hfree]
    exact fun hsome => by cases hsome
  constructor
  · exact h.serial
  · intro other work hwork hother
    exact hfirst other work hwork
  · intro other work hwork hholds
    show Leads act (program work.job) last work.rest turns.state
    rw [hfirst other work hwork, hstate]
    exact .refl
  · exact fun _ => hstate

/-- The holder of the turn makes a call alone. -/
theorem Ordered.call (h : Ordered act program start turns last) {thread : T} {job : κ} {c : Call}
    {next : Reply c → Program Reply ε α} (hholds : turns.holder = some thread)
    (hwork : turns.works thread = some ⟨job, .call c next⟩) :
    Ordered act program start { turns with
      state := (act c turns.state).2
      works := Function.update turns.works thread
        (some ⟨job, resume next (act c turns.state).1⟩) } last where
  serial := h.serial
  waiting := by
    intro other work hother hne
    have hsame : other ≠ thread := fun hsame => hne (hsame ▸ hholds)
    dsimp only at hother
    rw [Function.update_of_ne hsame] at hother
    exact h.waiting other work hother hne
  working := by
    intro other work hother hholder
    obtain rfl : thread = other := Option.some.inj (hholds.symm.trans hholder)
    dsimp only at hother
    rw [Function.update_self] at hother
    cases hother
    exact .call (h.working thread _ hwork hholds)
  idle := by
    intro hnone
    have hsome := hnone thread hholds
    dsimp only at hsome
    rw [Function.update_self] at hsome
    cases hsome

/-- The turn that is given up is the last of the turns that were taken. -/
theorem Ordered.leave (h : Ordered act program start turns last) {thread : T}
    (hholds : turns.holder = some thread) :
    Ordered act program start {
      holder := none
      state := turns.state
      works := Function.update turns.works thread none
      taken := ((turns.works thread).map (Work.turn thread)).toList ++ turns.taken } turns.state where
  serial := by
    cases hwork : turns.works thread with
    | none =>
      have hstate : turns.state = last := h.idle fun other hholder => by
        obtain rfl : thread = other := Option.some.inj (hholds.symm.trans hholder)
        exact hwork
      rw [hstate]
      exact h.serial
    | some work => exact .turn h.serial (h.working thread work hwork hholds)
  waiting := by
    intro other work hother _
    dsimp only at hother
    by_cases hsame : other = thread
    · rw [hsame, Function.update_self] at hother
      cases hother
    · rw [Function.update_of_ne hsame] at hother
      refine h.waiting other work hother fun hholder => hsame ?_
      exact Option.some.inj (hholder.symm.trans hholds)
  working := by
    intro other work hother hnone
    cases hnone
  idle _ := rfl

end Turns

end Turns
