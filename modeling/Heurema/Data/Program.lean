import Heurema.Data.Outcome

/-! # Programs that share a state

A program makes one call after another on a state it shares with other programs. Each call
is one step, and steps of the others come between. A call that fails ends its program. -/

/-- The outcome of a program, or its next call and what follows the reply. -/
inductive Program {Call : Type} (Reply : Call → Type) (ε α : Type) where
  | done (outcome : Outcome ε α)
  | call (call : Call) (next : Reply call → Program Reply ε α)

/-- What a call can answer on a state, and the state it leaves. -/
abbrev Acts {Call : Type} (Reply : Call → Type) (ε σ : Type) :=
  (call : Call) → σ → Except ε (Reply call) → σ → Prop

namespace Program

variable {Call : Type} {Reply : Call → Type} {ε α β γ σ τ W : Type}

def bind (program : Program Reply ε α) (f : α → Program Reply ε β) : Program Reply ε β :=
  match program with
  | done (.ok a) => f a
  | done (.error failure) => done (.error failure)
  | call c next => call c fun reply => (next reply).bind f

instance : Monad (Program Reply ε) where
  pure a := done (.ok a)
  bind := bind

/-- A computation that makes no call. -/
def lift (outcome : Outcome ε α) : Program Reply ε α := done outcome

def perform (c : Call) : Program Reply ε (Reply c) := call c fun reply => done (.ok reply)

/-- A program after the answer to its call. -/
def resume {c : Call} (next : Reply c → Program Reply ε α) :
    Except ε (Reply c) → Program Reply ε α
  | .ok reply => next reply
  | .error e => done (.error (.refused e))

theorem pure_eq (a : α) : (pure a : Program Reply ε α) = done (.ok a) := rfl

theorem ok_bind (a : α) (f : α → Program Reply ε β) : (done (.ok a) >>= f) = f a := rfl

theorem call_bind {c : Call} (next : Reply c → Program Reply ε α) (f : α → Program Reply ε β) :
    (call c next >>= f) = call c fun reply => next reply >>= f := rfl

theorem bind_assoc (program : Program Reply ε α) (f : α → Program Reply ε β)
    (g : β → Program Reply ε γ) :
    (program >>= f) >>= g = program >>= fun a => f a >>= g := by
  induction program with
  | done outcome =>
    cases outcome with
    | ok a => rfl
    | error failure => rfl
  | call c next ih =>
    rw [call_bind, call_bind, call_bind]
    exact congrArg (call c) (funext ih)

theorem lift_ok (a : α) (f : α → Program Reply ε β) : (lift (.ok a) >>= f) = f a := rfl

theorem lift_bind (outcome : Outcome ε α) (f : α → Outcome ε β) (g : β → Program Reply ε γ) :
    (lift (outcome >>= f) >>= g : Program Reply ε γ) = lift outcome >>= fun a => lift (f a) >>= g := by
  cases outcome <;> rfl

theorem resume_bind {c : Call} (next : Reply c → Program Reply ε α) (f : α → Program Reply ε β)
    (answer : Except ε (Reply c)) :
    (resume next answer >>= f) = resume (fun reply => next reply >>= f) answer := by
  cases answer <;> rfl

/-! ## Alone -/

/-- Runs a program alone. -/
def run (act : (c : Call) → σ → Except ε (Reply c) × σ) :
    Program Reply ε α → σ → Outcome ε α × σ
  | done outcome, state => (outcome, state)
  | call c next, state =>
    match act c state with
    | (.ok reply, after) => run act (next reply) after
    | (.error e, after) => (.error (.refused e), after)

section Run

variable {act : (c : Call) → σ → Except ε (Reply c) × σ}

theorem run_bind (program : Program Reply ε α) (f : α → Program Reply ε β) (state : σ) :
    (program >>= f).run act state = match program.run act state with
      | (.ok a, after) => (f a).run act after
      | (.error failure, after) => (.error failure, after) := by
  induction program generalizing state with
  | done outcome => cases outcome <;> rfl
  | call c next ih =>
    rw [call_bind, run, run]
    rcases act c state with ⟨answer, after⟩
    cases answer with
    | ok reply => exact ih reply after
    | error e => rfl

end Run

/-- A program that makes only calls with a property. -/
inductive Makes (P : Call → Prop) : Program Reply ε α → Prop where
  | done (outcome : Outcome ε α) : Makes P (done outcome)
  | call {c : Call} {next : Reply c → Program Reply ε α} (made : P c)
      (rest : ∀ reply, Makes P (next reply)) : Makes P (call c next)

namespace Makes

variable {P : Call → Prop}

theorem bind {program : Program Reply ε α} {f : α → Program Reply ε β} (h : Makes P program)
    (hf : ∀ a, Makes P (f a)) : Makes P (program >>= f) := by
  induction h with
  | done outcome =>
    cases outcome with
    | ok a => exact hf a
    | error failure => exact .done _
  | call made rest ih => exact .call made ih

theorem perform {c : Call} (h : P c) : Makes P (perform c : Program Reply ε (Reply c)) :=
  .call h fun _ => .done _

end Makes

/-- A program that returns only what has a property. -/
inductive Yields (P : α → Prop) : Program Reply ε α → Prop where
  | done {outcome : Outcome ε α} (returned : ∀ a, outcome = .ok a → P a) : Yields P (done outcome)
  | call {c : Call} {next : Reply c → Program Reply ε α} (rest : ∀ reply, Yields P (next reply)) :
    Yields P (call c next)

namespace Yields

variable {P : α → Prop} {Q : β → Prop} {program : Program Reply ε α} {f : α → Program Reply ε β}

theorem any (program : Program Reply ε α) : Yields (fun _ => True) program := by
  induction program with
  | done outcome => exact .done fun _ _ => trivial
  | call c next ih => exact .call ih

theorem pure {a : α} (h : P a) : Yields P (pure a : Program Reply ε α) :=
  .done fun _ ha => Except.ok.inj ha ▸ h

theorem bind (h : Yields P program) (hf : ∀ a, P a → Yields Q (f a)) : Yields Q (program >>= f) := by
  induction h with
  | @done outcome returned =>
    cases outcome with
    | ok a => exact hf a (returned a rfl)
    | error failure => exact .done fun _ ha => by cases ha
  | call rest ih => exact .call ih

/-- What follows a program of which nothing is known. -/
theorem after (hf : ∀ a, Yields Q (f a)) : Yields Q (program >>= f) :=
  (any program).bind fun a _ => hf a

theorem lift {outcome : Outcome ε α} (hf : ∀ a, outcome = .ok a → Yields Q (f a)) :
    Yields Q (lift outcome >>= f) := by
  cases outcome with
  | ok a => exact hf a rfl
  | error failure => exact .done fun _ ha => by cases ha

end Yields

/-- A program that makes only calls with a property, and goes on with what its first part
yields. -/
theorem Makes.bind_yields {P : Call → Prop} {Q : α → Prop} {program : Program Reply ε α}
    {f : α → Program Reply ε β} (h : Makes P program) (hyields : Yields Q program)
    (hf : ∀ a, Q a → Makes P (f a)) : Makes P (program >>= f) := by
  induction h with
  | done outcome =>
    cases hyields with
    | done returned =>
      cases outcome with
      | ok a => exact hf a (returned a rfl)
      | error failure => exact .done _
  | call made rest ih =>
    cases hyields with
    | call hrest => exact .call made fun reply => ih reply (hrest reply)

theorem Makes.resume {P : Call → Prop} {c : Call} {next : Reply c → Program Reply ε α}
    (h : ∀ reply, Makes P (next reply)) (answer : Except ε (Reply c)) :
    Makes P (resume next answer) := by
  cases answer with
  | ok reply => exact h reply
  | error e => exact .done _

theorem Makes.imp {P Q : Call → Prop} {program : Program Reply ε α} (h : Makes P program)
    (hpq : ∀ c, P c → Q c) : Makes Q program := by
  induction h with
  | done outcome => exact .done _
  | call made rest ih => exact .call (hpq _ made) ih

end Program

/-! ## Among others -/

open Program

/-- A shared state and the programs that are at work on it. -/
structure Pool {Call : Type} (Reply : Call → Type) (ε σ α : Type) where
  state : σ
  programs : List (Program Reply ε α)

namespace Pool

variable {Call : Type} {Reply : Call → Type} {ε α β γ σ : Type}

/-- One step of a pool: a program starts, makes its next call, makes it and is gone before
it sees the answer, or is dropped. -/
inductive Step (acts : Acts Reply ε σ) (starts : Program Reply ε α → Prop) :
    Pool Reply ε σ α → Pool Reply ε σ α → Prop where
  | start {state : σ} {programs : List (Program Reply ε α)} {program : Program Reply ε α}
      (started : starts program) : Step acts starts ⟨state, programs⟩ ⟨state, program :: programs⟩
  | answered {state after : σ} {before behind : List (Program Reply ε α)} {c : Call}
      {next : Reply c → Program Reply ε α} {answer : Except ε (Reply c)}
      (acted : acts c state answer after) : Step acts starts ⟨state, before ++ call c next :: behind⟩
        ⟨after, before ++ resume next answer :: behind⟩
  | lost {state after : σ} {before behind : List (Program Reply ε α)} {c : Call}
      {next : Reply c → Program Reply ε α} {answer : Except ε (Reply c)}
      (acted : acts c state answer after) :
      Step acts starts ⟨state, before ++ call c next :: behind⟩ ⟨after, before ++ behind⟩
  | dropped {state : σ} {before behind : List (Program Reply ε α)}
      {program : Program Reply ε α} :
      Step acts starts ⟨state, before ++ program :: behind⟩ ⟨state, before ++ behind⟩

/-- A pool that steps lead to from a state no program is at work on. -/
inductive Reachable (acts : Acts Reply ε σ) (starts : Program Reply ε α → Prop) (init : σ) :
    Pool Reply ε σ α → Prop where
  | init : Reachable acts starts init ⟨init, []⟩
  | step {pool pool' : Pool Reply ε σ α} (reachable : Reachable acts starts init pool)
      (step : Step acts starts pool pool') : Reachable acts starts init pool'

/-- A program at work beside a pool: the calls it makes with their answers, its outcome, and
the pool it leaves. -/
inductive Beside (acts : Acts Reply ε σ) (starts : Program Reply ε α → Prop) :
    Program Reply ε β → Pool Reply ε σ α → List (Σ c : Call, Except ε (Reply c)) →
      Outcome ε β → Pool Reply ε σ α → Prop where
  | done {outcome : Outcome ε β} {pool : Pool Reply ε σ α} :
      Beside acts starts (done outcome) pool [] outcome pool
  | step {program : Program Reply ε β} {pool pool' last : Pool Reply ε σ α}
      {calls : List (Σ c : Call, Except ε (Reply c))} {outcome : Outcome ε β}
      (step : Step acts starts pool pool')
      (rest : Beside acts starts program pool' calls outcome last) :
      Beside acts starts program pool calls outcome last
  | call {c : Call} {next : Reply c → Program Reply ε β} {pool last : Pool Reply ε σ α}
      {answer : Except ε (Reply c)} {after : σ} {calls : List (Σ c : Call, Except ε (Reply c))}
      {outcome : Outcome ε β} (acted : acts c pool.state answer after)
      (rest : Beside acts starts (resume next answer) { pool with state := after } calls outcome
        last) :
      Beside acts starts (call c next) pool (⟨c, answer⟩ :: calls) outcome last

variable {acts : Acts Reply ε σ} {starts : Program Reply ε α → Prop} {pool last : Pool Reply ε σ α}
  {calls : List (Σ c : Call, Except ε (Reply c))} {outcome : Outcome ε β}

/-- A pool reaches what a program leaves that runs alone to its end. -/
theorem Reachable.alone {act : (c : Call) → σ → Except ε (Reply c) × σ} {init state : σ}
    {programs : List (Program Reply ε α)} {program : Program Reply ε α}
    (hact : ∀ c state, acts c state (act c state).1 (act c state).2)
    (h : Reachable acts starts init ⟨state, program :: programs⟩) :
    Reachable acts starts init ⟨(program.run act state).2, programs⟩ := by
  induction program generalizing state with
  | done outcome =>
    exact h.step (show Step acts starts ⟨state, [] ++ done outcome :: programs⟩ _ from .dropped)
  | call c next ih =>
    have hanswered : Step acts starts ⟨state, [] ++ call c next :: programs⟩ _ :=
      .answered (hact c state)
    have hstep := h.step hanswered
    rw [run]
    cases hacted : act c state with
    | mk answer after =>
      rw [hacted] at hstep
      cases answer with
      | ok reply => exact ih reply hstep
      | error e =>
        have hgone : Step acts starts ⟨after, [] ++ done (.error (.refused e)) :: programs⟩ _ :=
          .dropped
        exact hstep.step hgone

/-- The calls a program makes beside a pool are among those it can make. -/
theorem Beside.makes {P : Call → Prop} {program : Program Reply ε β}
    (h : Beside acts starts program pool calls outcome last) (hmakes : Makes P program) :
    ∀ made ∈ calls, P made.1 := by
  induction h with
  | done =>
    intro made hmade
    cases hmade
  | step hstep rest ih => exact ih hmakes
  | @call c next pool last answer after calls outcome acted rest ih =>
    cases hmakes with
    | call hmade hrest =>
      have hresume : Makes P (resume next answer) := by
        cases answer with
        | ok reply => exact hrest reply
        | error e => exact .done _
      intro made hmem
      rcases List.mem_cons.mp hmem with rfl | hmem
      · exact hmade
      · exact ih hresume made hmem

/-- A program that runs alone runs beside a pool that makes no step. -/
theorem Beside.of_run {act : (c : Call) → σ → Except ε (Reply c) × σ} {programs : List (Program Reply ε α)}
    (hact : ∀ c state, acts c state (act c state).1 (act c state).2)
    (program : Program Reply ε β) (state : σ) :
    ∃ calls, Beside acts starts program ⟨state, programs⟩ calls (program.run act state).1
      ⟨(program.run act state).2, programs⟩ := by
  induction program generalizing state with
  | done outcome => exact ⟨[], .done⟩
  | call c next ih =>
    have hacted := hact c state
    rw [run]
    cases hafter : act c state with
    | mk answer after =>
      rw [hafter] at hacted
      cases answer with
      | ok reply =>
        obtain ⟨calls, hrest⟩ := ih reply after
        exact ⟨_, .call hacted hrest⟩
      | error e => exact ⟨_, .call hacted .done⟩

/-- A program ends beside any pool with what it yields. -/
theorem Beside.yields {P : β → Prop} {program : Program Reply ε β}
    (h : Beside acts starts program pool calls outcome last) (hyields : Yields P program) :
    ∀ a, outcome = .ok a → P a := by
  induction h with
  | done =>
    cases hyields with
    | done returned => exact returned
  | step hstep rest ih => exact ih hyields
  | @call c next pool last answer after calls outcome acted rest ih =>
    cases hyields with
    | call hrest =>
      cases answer with
      | ok reply => exact ih (hrest reply)
      | error e => exact ih (.done fun _ ha => by cases ha)

/-- The next call of a program beside a pool, and what the program does with its answer. -/
theorem Beside.of_call {c : Call} {next : Reply c → Program Reply ε β}
    (h : Beside acts starts (.call c next) pool calls outcome last) :
    ∃ answer rest pool', calls = ⟨c, answer⟩ :: rest ∧
      Beside acts starts (resume next answer) pool' rest outcome last := by
  generalize hprogram : Program.call c next = program at h
  induction h with
  | done => cases hprogram
  | step hstep rest ih => exact ih hprogram
  | @call c' next' pool last answer after calls outcome acted rest ih =>
    cases hprogram
    exact ⟨answer, calls, _, rfl, rest⟩

/-- A program that is at its end ends beside any pool as it is. -/
theorem Beside.of_done {result : Outcome ε β}
    (h : Beside acts starts (.done result) pool calls outcome last) :
    calls = [] ∧ outcome = result := by
  generalize hdone : Program.done result = program at h
  induction h with
  | done =>
    cases hdone
    exact ⟨rfl, rfl⟩
  | step hstep rest ih => exact ih hdone
  | call acted rest ih => cases hdone

/-- A program of two parts beside a pool: the first part fails, or the second starts from
what it returns. -/
theorem Beside.of_bind {program : Program Reply ε γ} {f : γ → Program Reply ε β}
    (h : Beside acts starts (program >>= f) pool calls outcome last) :
    (∃ failure, Beside acts starts program pool calls (.error failure) last ∧
      outcome = .error failure) ∨
    ∃ first second a middle, calls = first ++ second ∧
      Beside acts starts program pool first (.ok a) middle ∧
      Beside acts starts (f a) middle second outcome last := by
  generalize hbind : (program >>= f) = whole at h
  induction h generalizing program with
  | @done outcome pool =>
    cases program with
    | call c next => cases hbind
    | done result =>
      cases result with
      | ok a =>
        rw [ok_bind] at hbind
        exact .inr ⟨[], [], a, pool, rfl, .done, hbind ▸ .done⟩
      | error failure =>
        cases hbind
        exact .inl ⟨failure, .done, rfl⟩
  | @step whole pool pool' last calls outcome hstep rest ih =>
    rcases ih hbind with hfailed | hnext
    · obtain ⟨failure, hfirst, houtcome⟩ := hfailed
      exact .inl ⟨failure, .step hstep hfirst, houtcome⟩
    · obtain ⟨first, second, a, middle, hcalls, hfirst, hsecond⟩ := hnext
      exact .inr ⟨first, second, a, middle, hcalls, .step hstep hfirst, hsecond⟩
  | @call c next pool last answer after calls outcome acted rest ih =>
    cases program with
    | done result =>
      cases result with
      | ok a =>
        rw [ok_bind] at hbind
        exact .inr ⟨[], _, a, pool, rfl, .done, hbind ▸ .call acted rest⟩
      | error failure => cases hbind
    | call c' next' =>
      cases hbind
      rcases ih (resume_bind next' f answer) with hfailed | hnext
      · obtain ⟨failure, hfirst, houtcome⟩ := hfailed
        exact .inl ⟨failure, .call acted hfirst, houtcome⟩
      · obtain ⟨first, second, a, middle, rfl, hfirst, hsecond⟩ := hnext
        exact .inr ⟨_ :: first, second, a, middle, rfl, .call acted hfirst, hsecond⟩

end Pool
