import Heurema.Adapters.Atomic
import Heurema.Adapters.Verdict
import Heurema.Data.Turns
import Heurema.Lifecycle.Writer

/-! # Operations under the writer

Every lifecycle over one backend takes its writer before the first read of an operation and
gives it up after the last write. Whatever threads apply at once, and wherever one of them
stops, the backend is as the operations leave it that run one after the other. -/

namespace Heurema

open Serde Hnsw Digest

open Driver (alone)

open Turns (Ordered Serial)

section Processes

variable {T M P R σ : Type} [DecidableEq T] [MemberIdentity M] [ProvenanceReference P]
  [RetentionReference R]

/-- The threads over one backend: the writer they share, the operations they are at or wait to
start, and the turns they took with the writer. -/
structure Process (T M P R σ : Type) where
  lock : WriterLock T
  state : σ × List Write
  works : T → Option (Work (LifecycleOperation M P R) Call.Reply HeuremaError (PublishReceipt R))
  taken : List (Turn T (LifecycleOperation M P R) HeuremaError (PublishReceipt R))

namespace Process

/-- A process at its start: a free writer, and no thread at work. -/
def new (start : σ) : Process T M P R σ := ⟨.new, (start, []), fun _ => none, []⟩

/-- The turns of a process: the owner of the writer is the thread that goes on. -/
def turns (process : Process T M P R σ) :
    Turns T (LifecycleOperation M P R) Call.Reply HeuremaError (σ × List Write) (PublishReceipt R) where
  holder := process.lock.state.owner
  state := process.state
  works := process.works
  taken := process.taken

variable [SerdeJson] [Unicode] [Sha256] [VectorMath] [LifecycleBackend σ]

/-- One step of a process. -/
inductive Step : Process T M P R σ → Process T M P R σ → Prop where
  /-- A thread applies an operation that passes its checks, and asks for the writer. -/
  | apply {process : Process T M P R σ} {lock : WriterLock T} {thread : T}
      {operation : LifecycleOperation M P R} {checked : CheckedOperation M P R}
      (checks : CheckedOperation.check operation = .ok checked)
      (idle : process.works thread = none)
      (outside : process.lock.state.owner ≠ some thread)
      (acquired : process.lock.step (.acquire thread) = some lock) :
      Step process { process with
        lock
        works := Function.update process.works thread (some ⟨operation, Driver.apply operation⟩) }
  /-- Any other step of the lock that gives up no guard. A thread that holds the writer and
  applies an operation is refused here, and one may take a guard for itself. -/
  | writer {process : Process T M P R σ} {lock : WriterLock T} {action : WriterAction T}
      (kept : ∀ thread, action ≠ .drop thread)
      (stepped : process.lock.step action = some lock) : Step process { process with lock }
  /-- The thread with the guard makes its next call. -/
  | call {process : Process T M P R σ} {thread : T} {operation : LifecycleOperation M P R}
      {c : Call} {next : c.Reply → Driver (PublishReceipt R)}
      (guard : thread ∈ process.lock.guards)
      (work : process.works thread = some ⟨operation, .call c next⟩) :
      Step process { process with
        state := (LifecycleBackend.act c process.state).2
        works := Function.update process.works thread
          (some ⟨operation, .resume next (LifecycleBackend.act c process.state).1⟩) }
  /-- A guard is dropped: its operation ended, or is given up with what was prepared. -/
  | drop {process : Process T M P R σ} {lock : WriterLock T} {thread : T}
      (dropped : process.lock.step (.drop thread) = some lock) :
      Step process {
        lock
        state := process.state
        works := Function.update process.works thread none
        taken := ((process.works thread).map (Work.turn thread)).toList ++ process.taken }
  /-- A reader, which takes no writer, makes a call. -/
  | read {process : Process T M P R σ} {c : Call} (reads : c.Reads) :
      Step process { process with state := (LifecycleBackend.act c process.state).2 }

/-- What threads make of a backend. -/
inductive Reachable (start : σ) : Process T M P R σ → Prop where
  | new : Reachable start (.new start)
  | step {process process' : Process T M P R σ} (reachable : Reachable start process)
      (step : Step process process') : Reachable start process'

end Process

end Processes

/-! ## The owner of the writer -/

namespace WriterLock

variable {T : Type} [DecidableEq T] {lock lock' : WriterLock T} {thread : T}

/-- The writer goes to a thread only when it is free. -/
def Passes (lock lock' : WriterLock T) : Prop :=
  lock'.state.owner = lock.state.owner ∨
    lock.state.owner = none ∧ ∃ thread, lock'.state.owner = some thread

theorem settle_passes (lock : WriterLock T) (thread : T) :
    lock.Passes (lock.settle thread (lock.state.waitWhile thread)) := by
  cases howner : lock.state.owner with
  | none =>
    refine .inr ⟨howner, thread, ?_⟩
    simp [WriterState.waitWhile, howner, settle]
  | some owner =>
    refine .inl ?_
    simp [WriterState.waitWhile, howner, settle]

/-- No step but the drop of a guard takes the writer from a thread. -/
theorem step_passes {action : WriterAction T} (hkept : ∀ thread, action ≠ .drop thread)
    (h : lock.step action = some lock') : lock.Passes lock' := by
  cases action with
  | acquire thread =>
    simp only [step] at h
    split at h
    · cases h
    · by_cases howner : lock.state.owner = some thread
      · simp only [WriterState.acquire, if_pos howner] at h
        cases h
        exact .inl rfl
      · simp only [WriterState.acquire, if_neg howner] at h
        cases h
        exact settle_passes { lock with
          state := { lock.state with waiting := lock.state.waiting + 1 } } thread
  | wake thread =>
    simp only [step] at h
    split at h
    · cases h
      exact .inl rfl
    · cases h
  | recheck thread =>
    simp only [step] at h
    split at h
    · cases h
      exact settle_passes { lock with woken := lock.woken.erase thread } thread
    · cases h
  | drop thread => exact absurd rfl (hkept thread)
  | notify thread waiter =>
    simp only [step] at h
    split at h
    · cases waiter with
      | none =>
        simp only at h
        split at h
        · cases h
          exact .inl rfl
        · cases h
      | some waiter =>
        simp only at h
        split at h
        · cases h
          exact .inl rfl
        · cases h
    · cases h

theorem drop_owner (h : lock.step (.drop thread) = some lock') :
    thread ∈ lock.guards ∧ lock'.state.owner = none := by
  simp only [step] at h
  split at h
  · next hguard =>
    cases h
    exact ⟨hguard.1, rfl⟩
  · cases h

end WriterLock

/-! ## Turns with the writer -/

section Serializing

variable {T M P R σ : Type} [DecidableEq T] [MemberIdentity M] [ProvenanceReference P]
  [RetentionReference R] [SerdeJson] [Unicode] [Sha256] [VectorMath] [LifecycleBackend σ]
  {limit : Option Nat} {Represents : σ → Store → Prop} {start : σ}
  {process process' : Process T M P R σ}

omit [MemberIdentity M] [ProvenanceReference P] [RetentionReference R] [SerdeJson] [Unicode]
  [Sha256] [VectorMath] in
/-- A call that only reads leaves the state of a backend. -/
theorem act_reads (adapter : Adapter σ limit Represents) {state : σ × List Write} {store : Store}
    (h : Represents state.1 store) {c : Call} (hreads : c.Reads) :
    (LifecycleBackend.act c state).2 = state := by
  obtain ⟨reply, hrun, -⟩ := adapter.read h c hreads
  have htook : c.took (.ok reply) = [] := by
    cases c with
    | write write => exact absurd rfl (hreads write)
    | _ => rfl
  rw [LifecycleBackend.act, hrun]
  simp only [htook, List.append_nil]

/-- The lock is sound, the state shows contents, and the turns are in order. -/
structure Process.Inv (Represents : σ → Store → Prop) (start : σ) (process : Process T M P R σ) :
    Prop where
  lock : process.lock.Inv
  stored : ∃ store, Represents process.state.1 store
  ordered : ∃ last, Ordered LifecycleBackend.act Driver.apply (start, []) process.turns last

theorem Process.new_inv (hstart : Represents start .empty) :
    (Process.new start : Process T M P R σ).Inv Represents start where
  lock := WriterLock.new_inv
  stored := ⟨.empty, hstart⟩
  ordered := ⟨_, .init⟩

omit [DecidableEq T] in
/-- A step of the lock that drops no guard keeps the turns in order. -/
theorem Process.Inv.passes {lock : WriterLock T}
    {works : T → Option (Work (LifecycleOperation M P R) Call.Reply HeuremaError (PublishReceipt R))}
    {last : σ × List Write} (hpasses : process.lock.Passes lock)
    (h : Ordered LifecycleBackend.act Driver.apply (start, [])
      { process with works }.turns last) :
    Ordered LifecycleBackend.act Driver.apply (start, [])
      ({ process with lock, works } : Process T M P R σ).turns last := by
  rcases hpasses with hsame | htaken
  · show Ordered _ _ _ ⟨lock.state.owner, process.state, works, process.taken⟩ last
    rw [hsame]
    exact h
  · obtain ⟨hfree, thread, howner⟩ := htaken
    show Ordered _ _ _ ⟨lock.state.owner, process.state, works, process.taken⟩ last
    rw [howner]
    exact h.take hfree

theorem Process.Inv.step (adapter : Adapter σ limit Represents)
    (h : process.Inv Represents start) (hstep : process.Step process') :
    process'.Inv Represents start := by
  obtain ⟨hlock, ⟨store, hstored⟩, last, hordered⟩ := h
  cases hstep with
  | @apply lock thread operation checked checks idle outside acquired =>
    refine ⟨hlock.step acquired, ⟨store, hstored⟩, last, ?_⟩
    have hkept (other : T) : WriterAction.acquire thread ≠ .drop other := fun hdrop => by cases hdrop
    exact Process.Inv.passes (WriterLock.step_passes hkept acquired) (hordered.enter idle outside)
  | writer kept stepped =>
    refine ⟨hlock.step stepped, ⟨store, hstored⟩, last, ?_⟩
    exact Process.Inv.passes (WriterLock.step_passes kept stepped) hordered
  | @call thread operation c next guard work =>
    obtain ⟨answer, after, hrun, -, hafter, -⟩ := adapter.replies hstored c
    refine ⟨hlock, ⟨store.after limit c, ?_⟩, last, ?_⟩
    · show Represents (LifecycleBackend.act c process.state).2.1 _
      rw [LifecycleBackend.act, hrun]
      exact hafter
    · exact hordered.call (hlock.owner_iff.mpr guard) work
  | @drop lock thread dropped =>
    obtain ⟨hguard, hfree⟩ := WriterLock.drop_owner dropped
    refine ⟨hlock.step dropped, ⟨store, hstored⟩, process.state, ?_⟩
    have hleave := hordered.leave (hlock.owner_iff.mpr hguard)
    show Ordered _ _ _ ⟨lock.state.owner, _, _, _⟩ _
    rw [hfree]
    exact hleave
  | read reads =>
    rw [act_reads adapter hstored reads]
    exact ⟨hlock, ⟨store, hstored⟩, last, hordered⟩

theorem Process.reachable_inv (adapter : Adapter σ limit Represents)
    (hstart : Represents start .empty) (h : process.Reachable start) :
    process.Inv Represents start := by
  induction h with
  | new => exact Process.new_inv hstart
  | step reachable hstep ih => exact ih.step adapter hstep

/-! ## One after the other -/

variable {issued : LifecycleOperation M P R → Prop}

omit [DecidableEq T] in
/-- Drivers reach what turns leave one after the other, each to where it got. -/
theorem serial_reached {taken : List (Turn T (LifecycleOperation M P R) HeuremaError (PublishReceipt R))}
    {last : σ × List Write} (hissued : ∀ turn ∈ taken, issued turn.job)
    (h : Serial LifecycleBackend.act Driver.apply (start, []) taken last) :
    Reached issued start ⟨last, []⟩ := by
  induction h with
  | nil => exact .init
  | @turn taken thread operation rest before after earlier led ih =>
    have hbefore := ih fun turn hmem => hissued turn (List.mem_cons_of_mem _ hmem)
    have hasked := hissued _ List.mem_cons_self
    have hstarted : Reached issued start ⟨before, [do let _ ← Driver.apply operation]⟩ :=
      hbefore.step (.start (.apply hasked))
    have hact (call : Call) (state : σ × List Write) : LifecycleBackend.acts call state
      (LifecycleBackend.act call state).1 (LifecycleBackend.act call state).2 := rfl
    have hled := Pool.Reachable.leads hact hstarted (led.bind fun _ => pure ())
    -- Where the turn stopped, what was left of the operation is dropped.
    have hgone : Pool.Step LifecycleBackend.acts (Runs issued) ⟨after, [] ++ (do let _ ← rest) :: []⟩
        ⟨after, []⟩ := .dropped
    exact hled.step hgone

/-- Turns with the writer, one after the other from a start: each operation went on alone from
where the one before it stopped, to its end or until it was given up, was all or nothing there,
and what it answered at its end is the verdict on what it found. -/
inductive TookTurns (limit : Option Nat) (start : σ) :
    List (Turn T (LifecycleOperation M P R) HeuremaError (PublishReceipt R)) →
      σ × List Write → Prop where
  | none : TookTurns limit start [] (start, [])
  | turn {taken : List (Turn T (LifecycleOperation M P R) HeuremaError (PublishReceipt R))}
      {thread : T} {operation : LifecycleOperation M P R} {rest : Driver (PublishReceipt R)}
      {before after : σ × List Write} (earlier : TookTurns limit start taken before)
      (led : Program.Leads LifecycleBackend.act (Driver.apply operation) before rest after)
      (whole : AllOrNothing before operation)
      (verdict : ∀ outcome, rest.outcome = some outcome →
        alone (Driver.apply operation) before = (outcome, after) ∧
          Verdict limit before.1 operation outcome) :
      TookTurns limit start (⟨thread, operation, rest.outcome⟩ :: taken) after

/-- The threads of a process take turns: the backend is as their operations leave it that run
one after the other, each to where it got, and the thread with the writer is on its way from
there. -/
structure TakesTurns (limit : Option Nat) (start : σ) (process : Process T M P R σ) : Prop where
  exclusive : process.lock.guards.card ≤ 1
  turns : ∃ last, TookTurns limit start process.taken last ∧
    Ordered LifecycleBackend.act Driver.apply (start, []) process.turns last

omit [DecidableEq T] in
/-- Every turn of a series is answered by what it found. -/
theorem Adapter.tookTurns (adapter : Adapter σ limit Represents)
    (hdistinguishes : Distinguishes issued) (hstart : Represents start .empty)
    {taken : List (Turn T (LifecycleOperation M P R) HeuremaError (PublishReceipt R))}
    {last : σ × List Write} (hissued : ∀ turn ∈ taken, issued turn.job)
    (h : Serial LifecycleBackend.act Driver.apply (start, []) taken last) :
    TookTurns limit start taken last := by
  induction h with
  | nil => exact .none
  | @turn taken thread operation rest before after earlier led ih =>
    have hbefore : ∀ turn ∈ taken, issued turn.job := fun turn hmem =>
      hissued turn (List.mem_cons_of_mem _ hmem)
    have hasked : issued operation := hissued _ List.mem_cons_self
    have hreached : Reached issued start ⟨before, []⟩ := serial_reached hbefore earlier
    obtain ⟨world, hrepresents, -, hsound⟩ := adapter.reached hstart hreached
    refine .turn (ih hbefore) led ?_ fun outcome hended => ?_
    · exact adapter.allOrNothing hrepresents hasked (hsound.inv.reflects operation.index)
    · have hrun : alone (Driver.apply operation) before = (outcome, after) := led.ended hended
      have hverdict := adapter.verdict hdistinguishes hstart hreached hasked
      have hsame : (alone (Driver.apply operation) before).1 = outcome := congrArg Prod.fst hrun
      rw [hsame] at hverdict
      exact ⟨hrun, hverdict⟩

/-- What the threads of a process make of a backend that keeps the contract. -/
theorem Adapter.takesTurns (adapter : Adapter σ limit Represents)
    (hdistinguishes : Distinguishes issued) (hstart : Represents start .empty)
    (h : process.Reachable start) (hissued : ∀ turn ∈ process.taken, issued turn.job) :
    TakesTurns limit start process := by
  obtain ⟨hlock, -, last, hordered⟩ := Process.reachable_inv adapter hstart h
  have hserial : Serial LifecycleBackend.act Driver.apply (start, []) process.taken last :=
    hordered.serial
  refine ⟨?_, last, adapter.tookTurns hdistinguishes hstart hissued hserial, hordered⟩
  rw [hlock.guards]
  cases process.lock.state.owner <;> simp

/-- On both adapters, whatever threads apply operations under the writer, in any interleaving of
their calls with each other and with readers, and wherever they stop, the backend and every
answer are those of the operations one after the other. -/
theorem locked_serial (hdistinguishes : Distinguishes issued) :
    (∀ process : Process T M P R Atmis.LifecycleState, process.Reachable .empty →
      (∀ turn ∈ process.taken, issued turn.job) → TakesTurns none .empty process) ∧
    ∀ (limit : Nat) (process : Process T M P R Thesauros.ThesaurosBackend),
      process.Reachable (.empty limit) → (∀ turn ∈ process.taken, issued turn.job) →
        TakesTurns (some limit) (.empty limit) process :=
  ⟨fun _ h hissued => Atmis.adapter.takesTurns hdistinguishes .empty h hissued,
    fun limit _ h hissued =>
      (Thesauros.adapter limit).takesTurns hdistinguishes (.empty limit) h hissued⟩

/-- The thread with the guard can run its operation to the end. -/
theorem Process.Reachable.finishes {thread : T} {operation : LifecycleOperation M P R}
    {program : Driver (PublishReceipt R)} (h : process.Reachable start)
    (hguard : thread ∈ process.lock.guards) (hwork : process.works thread = some ⟨operation, program⟩) :
    Process.Reachable start { process with
      state := (alone program process.state).2
      works := Function.update process.works thread
        (some ⟨operation, .done (alone program process.state).1⟩) } := by
  induction program generalizing process with
  | done outcome =>
    have hsame : Function.update process.works thread
        (some ⟨operation, .done (alone (.done outcome) process.state).1⟩) = process.works :=
      Function.update_eq_self_iff.mpr hwork.symm
    rw [hsame]
    exact h
  | call c next ih =>
    have hcalled := h.step (.call hguard hwork)
    show Process.Reachable start { process with
      state := (Program.run LifecycleBackend.act (.call c next) process.state).2
      works := Function.update process.works thread
        (some ⟨operation, .done (Program.run LifecycleBackend.act (.call c next) process.state).1⟩) }
    rw [Program.run_call]
    cases hanswer : (LifecycleBackend.act c process.state).1 with
    | error e =>
      rw [hanswer] at hcalled
      exact hcalled
    | ok reply =>
      rw [hanswer] at hcalled
      have hrest := ih reply hcalled hguard (Function.update_self ..)
      simp only [Function.update_idem] at hrest
      exact hrest

/-- A thread that gets the writer at once can apply an operation and give the writer back. -/
theorem Process.Reachable.applies {operation : LifecycleOperation M P R}
    {checked : CheckedOperation M P R} {lock free : WriterLock T} (h : process.Reachable start)
    (thread : T)
    (hchecks : CheckedOperation.check operation = .ok checked)
    (hidle : process.works thread = none) (houtside : process.lock.state.owner ≠ some thread)
    (hacquired : process.lock.step (.acquire thread) = some lock)
    (hguard : thread ∈ lock.guards) (hdropped : lock.step (.drop thread) = some free) :
    Process.Reachable start {
      lock := free
      state := (alone (Driver.apply operation) process.state).2
      works := Function.update process.works thread none
      taken := ⟨thread, operation, some (alone (Driver.apply operation) process.state).1⟩ ::
        process.taken } := by
  have hstarted := h.step (.apply hchecks hidle houtside hacquired)
  have hfinished := hstarted.finishes hguard (Function.update_self ..)
  have hgiven := hfinished.step (.drop hdropped)
  simp only [Function.update_idem, Function.update_self] at hgiven
  exact hgiven

end Serializing

section Witness

attribute [local instance] Consumer.identity Consumer.reference SerdeJson.compact Unicode.ascii
  Consumer.sha256 Line.math

/-- Two threads that apply operations, one after the other. -/
theorem locked_serial_consumer : ∃ process : Process Nat Str Str Str Atmis.LifecycleState,
    process.Reachable .empty ∧
    process.taken.map (fun turn => (turn.thread, turn.job)) =
      [(1, Consumer.inserted), (0, Consumer.created)] ∧
    TakesTurns none .empty process := by
  obtain ⟨create, hcreate⟩ := Consumer.created_checked
  obtain ⟨insert, hinsert⟩ := Consumer.inserted_checked
  have hnew : Process.Reachable (T := Nat) (M := Str) (P := Str) (R := Str)
      Atmis.LifecycleState.empty (.new .empty) := .new
  have hfirst := hnew.applies 0 (hcreate ▸ create.check_checked) rfl
    (fun howner => by cases howner) rfl (by decide) rfl
  have hsecond := hfirst.applies 1 (hinsert ▸ insert.check_checked) rfl
    (fun howner => by cases howner) rfl (by decide) rfl
  refine ⟨_, hsecond, rfl, ?_⟩
  refine (locked_serial Consumer.distinguishes).1 _ hsecond ?_
  intro turn hturn
  rcases List.mem_cons.mp hturn with rfl | hturn
  · exact Consumer.inserted_issued
  · obtain rfl := List.mem_singleton.mp hturn
    exact Consumer.created_issued

end Witness

end Heurema
