import Heurema.Lifecycle.Backend

/-! # Sequences of calls

What a backend answers to one call after another. The answers of an adapter are those of
the contents it represents, whatever the calls and their arguments. -/

namespace Heurema

/-- One call of a sequence: the state it finds, its answer, and the state it leaves. -/
structure CallStep (σ : Type) where
  before : σ
  call : Call
  answer : Except HeuremaError call.Reply
  after : σ

namespace CallStep

variable {σ : Type}

/-- What the caller sees of a call. -/
def observed (step : CallStep σ) : Σ call : Call, Except HeuremaError call.Reply :=
  ⟨step.call, step.answer⟩

/-- The write of a call that is not refused. -/
def accepted : CallStep σ → Option Write
  | ⟨_, .write write, .ok _, _⟩ => some write
  | _ => none

/-- A refused call leaves the state as it found it. -/
def RefusesWhole (step : CallStep σ) : Prop :=
  ∀ refusal, step.answer = .error refusal → step.after = step.before

end CallStep

namespace LifecycleBackend

variable {σ : Type} [LifecycleBackend σ]

/-- The calls of a sequence, each on the state the one before it leaves. -/
def trace (state : σ) : List Call → List (CallStep σ)
  | [] => []
  | call :: calls =>
    let (answer, after) := (perform call).run state
    ⟨state, call, answer, after⟩ :: trace after calls

/-- The state a sequence of calls leaves. -/
def runAll (state : σ) : List Call → σ
  | [] => state
  | call :: calls => runAll ((perform call).run state).2 calls

theorem runAll_append (state : σ) (calls later : List Call) :
    runAll state (calls ++ later) = runAll (runAll state calls) later := by
  induction calls generalizing state with
  | nil => rfl
  | cons call calls ih => exact ih _

end LifecycleBackend

namespace Store

variable {store : Store}

/-- The contents after a call. -/
def after (store : Store) (limit : Option Nat) : Call → Store
  | .write write => (store.perform limit write).2
  | _ => store

/-- The contents after a sequence of calls. -/
def afterAll (store : Store) (limit : Option Nat) (calls : List Call) : Store :=
  calls.foldl (fun store call => store.after limit call) store

/-- Contents that writes leave, each let through in its turn. -/
inductive Run : List Write → Store → Prop where
  | empty : Run [] .empty
  | commit {writes : List Write} {store : Store} {write : Write} (h : Run writes store)
      (hcheck : store.check write = .ok ()) : Run (writes ++ [write]) (store.commit write)

theorem Run.numbered {writes : List Write} (h : Run writes store) : store.Numbered := by
  induction h with
  | empty => exact .empty
  | commit h hcheck ih => exact ih.commit hcheck

/-- What contents let a call answer. -/
def Replies (store : Store) (limit : Option Nat) :
    (call : Call) → Except HeuremaError call.Reply → Prop
  | .write write, answer => answer = (store.perform limit write).1
  | .readHead index, answer => answer = .ok (store.heads index)
  | .readVersion index version, answer => answer = .ok (store.payloads (index, version))
  | .readOperation index key, answer => answer = .ok (store.records (index, key))
  | .readStaging index, answer => answer = .ok (store.staged index)
  | .listHeads, answer => ∃ reply, answer = .ok reply ∧ store.Answers .listHeads reply
  | .listStaged, answer => ∃ reply, answer = .ok reply ∧ store.Answers .listStaged reply
  | .listOperations index, answer =>
    ∃ reply, answer = .ok reply ∧ store.Answers (.listOperations index) reply
  | .listQuarantined, answer => answer = .ok store.quarantined

theorem staged_listing_injective {l l' : List StagedEntry}
    (h : (l.map fun entry => ((entry.index, entry.version), entry.marker)) =
      l'.map fun entry => ((entry.index, entry.version), entry.marker)) : l = l' := by
  refine List.map_injective_iff.mpr (fun entry other heq => ?_) h
  cases entry
  cases other
  simpa [and_assoc] using heq

/-- Contents let a call answer in one way. -/
theorem Replies.unique {limit : Option Nat} {call : Call}
    {answer answer' : Except HeuremaError call.Reply} (h : store.Replies limit call answer)
    (h' : store.Replies limit call answer') : answer = answer' := by
  cases call with
  | readHead index => exact h.trans h'.symm
  | readVersion index version => exact h.trans h'.symm
  | readOperation index key => exact h.trans h'.symm
  | readStaging index => exact h.trans h'.symm
  | write write => exact h.trans h'.symm
  | listQuarantined => exact h.trans h'.symm
  | listHeads =>
    obtain ⟨reply, rfl, hreply⟩ := h
    obtain ⟨reply', rfl, hreply'⟩ := h'
    exact congrArg _ (Listing.unique hreply hreply')
  | listStaged =>
    obtain ⟨reply, rfl, hreply⟩ := h
    obtain ⟨reply', rfl, hreply'⟩ := h'
    exact congrArg _ (staged_listing_injective (Listing.unique hreply hreply'))
  | listOperations index =>
    obtain ⟨reply, rfl, hreply⟩ := h
    obtain ⟨reply', rfl, hreply'⟩ := h'
    exact congrArg _ (Listing.unique hreply hreply')

end Store

/-! ## What an adapter answers -/

namespace Adapter

open LifecycleBackend (perform commit trace runAll)

variable {σ : Type} [LifecycleBackend σ] {limit : Option Nat} {Represents : σ → Store → Prop}
  {state : σ} {store : Store}

/-- A read answers as the contents say, and changes nothing. -/
theorem read_replies (adapter : Adapter σ limit Represents) (h : Represents state store)
    (call : Call) (hread : ∀ write, call ≠ .write write) :
    ∃ answer, (perform call).run state = (answer, state) ∧ store.Replies limit call answer := by
  obtain ⟨reply, hrun, hreply⟩ := adapter.read h call hread
  refine ⟨_, hrun, ?_⟩
  cases call with
  | readHead index => exact congrArg _ hreply
  | readVersion index version => exact congrArg _ hreply
  | readOperation index key => exact congrArg _ hreply
  | readStaging index => exact congrArg _ hreply
  | write write => exact absurd rfl (hread write)
  | listHeads => exact ⟨reply, rfl, hreply⟩
  | listStaged => exact ⟨reply, rfl, hreply⟩
  | listOperations index => exact ⟨reply, rfl, hreply⟩
  | listQuarantined => exact congrArg _ hreply

/-- A write is refused or takes effect as the contents say. -/
theorem write_replies (adapter : Adapter σ limit Represents) (h : Represents state store)
    (write : Write) : ∃ state',
    (perform (.write write)).run state = ((store.perform limit write).1, state') ∧
      Represents state' (store.perform limit write).2 ∧
      ∀ refusal, (store.perform limit write).1 = .error refusal → state' = state := by
  unfold Store.perform
  cases hadmits : store.admits limit write with
  | error refusal => exact ⟨state, adapter.refused h hadmits, h, fun _ _ => rfl⟩
  | ok _ =>
    obtain ⟨state', hrun, hrepresents⟩ := adapter.admitted h hadmits
    exact ⟨state', hrun, hrepresents, fun _ hrefused => by cases hrefused⟩

/-- A call answers as the contents say and leaves what it says, and a refused one changes
nothing. -/
theorem replies (adapter : Adapter σ limit Represents) (h : Represents state store)
    (call : Call) : ∃ answer state', (perform call).run state = (answer, state') ∧
    store.Replies limit call answer ∧ Represents state' (store.after limit call) ∧
    ∀ refusal, answer = .error refusal → state' = state := by
  by_cases hwrite : ∃ write, call = .write write
  · obtain ⟨write, rfl⟩ := hwrite
    obtain ⟨state', hrun, hafter, hrefused⟩ := adapter.write_replies h write
    exact ⟨_, state', hrun, rfl, hafter, hrefused⟩
  · obtain ⟨answer, hrun, hanswer⟩ := adapter.read_replies h call fun write heq =>
      hwrite ⟨write, heq⟩
    refine ⟨answer, state, hrun, hanswer, ?_, fun _ _ => rfl⟩
    cases call with
    | write write => exact absurd ⟨write, rfl⟩ hwrite
    | _ => exact h

/-- The state a sequence of calls leaves represents what it leaves of the contents. -/
theorem runAll_represents (adapter : Adapter σ limit Represents) (h : Represents state store)
    (calls : List Call) : Represents (runAll state calls) (store.afterAll limit calls) := by
  induction calls generalizing state store with
  | nil => exact h
  | cons call calls ih =>
    obtain ⟨answer, state', hrun, _, hafter, _⟩ := adapter.replies h call
    have hnext := ih hafter
    rw [LifecycleBackend.runAll, hrun]
    exact hnext

/-- A refused call of a sequence changes nothing. -/
theorem refuses_whole (adapter : Adapter σ limit Represents) (h : Represents state store)
    (calls : List Call) : ∀ step ∈ trace state calls, step.RefusesWhole := by
  induction calls generalizing state store with
  | nil =>
    intro step hstep
    cases hstep
  | cons call calls ih =>
    obtain ⟨answer, state', hrun, _, hafter, hrefused⟩ := adapter.replies h call
    rw [LifecycleBackend.trace, hrun]
    intro step hstep
    rcases List.mem_cons.mp hstep with rfl | hstep
    · exact hrefused
    · exact ih hafter step hstep

/-- What the writes of a sequence that are not refused leave. -/
theorem accepted_run (adapter : Adapter σ limit Represents) (h : Represents state store)
    {writes : List Write} (hrun : Store.Run writes store) (calls : List Call) :
    ∃ store', Represents (runAll state calls) store' ∧
      Store.Run (writes ++ (trace state calls).filterMap CallStep.accepted) store' := by
  induction calls generalizing state store writes with
  | nil => exact ⟨store, h, by simpa [trace] using hrun⟩
  | cons call calls ih =>
    by_cases hwrite : ∃ write, call = .write write
    · obtain ⟨write, rfl⟩ := hwrite
      cases hadmits : store.admits limit write with
      | error refusal =>
        have hstep : (perform (.write write)).run state = (.error refusal, state) :=
          adapter.refused h hadmits
        obtain ⟨store', hafter, hrun'⟩ := ih h hrun
        refine ⟨store', ?_, ?_⟩
        · rw [LifecycleBackend.runAll, hstep]
          exact hafter
        · rw [LifecycleBackend.trace, hstep]
          exact hrun'
      | ok _ =>
        obtain ⟨state', hstep, hnext⟩ := adapter.admitted h hadmits
        have hstep : (perform (.write write)).run state = (.ok (), state') := hstep
        have hcheck := (Outcome.then_eq_ok.mp hadmits).2
        obtain ⟨store', hafter, hrun'⟩ := ih hnext (hrun.commit hcheck)
        refine ⟨store', ?_, ?_⟩
        · rw [LifecycleBackend.runAll, hstep]
          exact hafter
        · rw [LifecycleBackend.trace, hstep]
          rw [List.append_assoc] at hrun'
          exact hrun'
    · obtain ⟨answer, hstep, _⟩ := adapter.read_replies h call fun write heq =>
        hwrite ⟨write, heq⟩
      obtain ⟨store', hafter, hrun'⟩ := ih h hrun
      refine ⟨store', ?_, ?_⟩
      · rw [LifecycleBackend.runAll, hstep]
        exact hafter
      · rw [LifecycleBackend.trace, hstep]
        have hnone : (CallStep.mk state call answer state).accepted = none := by
          cases call with
          | write write => exact absurd ⟨write, rfl⟩ hwrite
          | _ => rfl
        rw [List.filterMap_cons, hnone]
        exact hrun'

end Adapter

end Heurema
