import Heurema.Adapters.Exclusive
import Mathlib.Logic.Relation

/-! # Operations that wait are answered

The threads over one backend that are already at an operation cannot go on forever, and stop
only when every operation they were at has ended and the writer is free: no wakeup is lost,
and no order of the waiters keeps one of them waiting for good. -/

namespace Heurema

open Serde Hnsw Digest

/-! ## The lock -/

namespace WriterLock

variable {T : Type} [DecidableEq T] {lock lock' : WriterLock T} {thread : T}

/-- No thread holds the writer or is between two of its critical sections. -/
structure Quiet (lock : WriterLock T) : Prop where
  guards : lock.guards = 0
  outside : ∀ thread, ¬ lock.Inside thread

/-- What is left to do of the lock. A thread that wakes for nothing has looked once less. -/
def due (lock : WriterLock T) : Nat :=
  -- A look spends one, a guard that is dropped one, and a notification that wakes a thread one.
  3 * lock.asleep.card + 4 * lock.woken.card + 3 * lock.guards.card + 2 * lock.notifying.card

/-- A look at the owner is made once: it ends with the writer taken, or asleep. -/
theorem settle_due (lock : WriterLock T) (hasleep : thread ∉ lock.asleep) (state : WriterState T) :
    (lock.settle thread (state.waitWhile thread)).due < lock.due + 4 := by
  by_cases howner : state.owner.isSome
  · simp only [WriterState.waitWhile, howner, if_true, settle, due,
      Finset.card_insert_of_notMem hasleep]
    omega
  · simp only [WriterState.waitWhile, howner, Bool.false_eq_true, if_false, settle, due,
      Multiset.card_cons]
    omega

theorem recheck_due (h : lock.Inv) (hstep : lock.step (.recheck thread) = some lock') :
    lock'.due < lock.due := by
  simp only [step] at hstep
  split at hstep
  · next hwoken =>
    cases hstep
    have hasleep : thread ∉ lock.asleep := Finset.disjoint_right.mp h.apart hwoken
    have hcard := Finset.card_erase_add_one hwoken
    have hrest : ({ lock with woken := lock.woken.erase thread } : WriterLock T).due + 4 = lock.due := by
      simp only [due]
      omega
    rw [← hrest]
    exact settle_due { lock with woken := lock.woken.erase thread } hasleep lock.state
  · cases hstep

theorem drop_due (hstep : lock.step (.drop thread) = some lock') : lock'.due < lock.due := by
  simp only [step] at hstep
  split at hstep
  · next hdrop =>
    cases hstep
    have hguards := Multiset.card_erase_add_one hdrop.1
    have hnotifying := Finset.card_insert_le thread lock.notifying
    simp only [due]
    omega
  · cases hstep

/-- A notification is given up, for a thread that wakes or for none. -/
theorem notify_due {waiter : Option T}
    (hstep : lock.step (.notify thread waiter) = some lock') : lock'.due < lock.due := by
  simp only [step] at hstep
  split at hstep
  · next hnotifying =>
    have hcard := Finset.card_erase_add_one hnotifying
    cases waiter with
    | none =>
      simp only at hstep
      split at hstep
      · cases hstep
        simp only [due]
        omega
      · cases hstep
    | some waiter =>
      simp only at hstep
      split at hstep
      · next hasleep =>
        cases hstep
        have hawake := Finset.card_erase_add_one hasleep
        have hwoken := Finset.card_insert_le waiter lock.woken
        simp only [due, wakeUp]
        omega
      · cases hstep
  · cases hstep

/-- A free writer with a thread inside has a step that brings it on. -/
theorem Inv.goes_on (h : lock.Inv) (hfree : lock.state.owner = none) {thread : T}
    (hinside : lock.Inside thread) :
    (∃ other lock', lock.step (.recheck other) = some lock') ∨
      ∃ other waiter lock', lock.step (.notify other waiter) = some lock' := by
  by_cases hnotifying : lock.notifying.Nonempty
  · obtain ⟨other, hother⟩ := hnotifying
    right
    by_cases hasleep : lock.asleep = ∅
    · exact ⟨other, none, _, (if_pos hother).trans (if_pos hasleep)⟩
    · obtain ⟨waiter, hwaiter⟩ := Finset.nonempty_iff_ne_empty.mpr hasleep
      exact ⟨other, some waiter, _, (if_pos hother).trans (if_pos hwaiter)⟩
  · left
    -- Somebody woke: a thread that sleeps for a free writer is to be noticed.
    have hwoken : lock.woken.Nonempty := by
      rcases hinside with hasleep | hwoken | hnotified
      · exact (h.noticed hfree ⟨thread, hasleep⟩).resolve_left hnotifying
      · exact ⟨thread, hwoken⟩
      · exact absurd ⟨thread, hnotified⟩ hnotifying
    obtain ⟨other, hother⟩ := hwoken
    exact ⟨other, _, if_pos hother⟩

/-! ## Threads that are at it -/

/-- A thread that waits for the writer or holds it. -/
def Engaged (lock : WriterLock T) (thread : T) : Prop :=
  thread ∈ lock.waiters ∨ thread ∈ lock.guards

/-- A thread that looks at the owner goes on to wait or to hold the writer. -/
theorem settle_engaged (state : WriterState T) {other : T} :
    (lock.settle thread (state.waitWhile thread)).Engaged other ↔
      other = thread ∨ lock.Engaged other := by
  by_cases howner : state.owner.isSome
  · simp only [WriterState.waitWhile, howner, if_true, settle, Engaged, waiters, Finset.mem_union,
      Finset.mem_insert]
    tauto
  · simp only [WriterState.waitWhile, howner, Bool.false_eq_true, if_false, settle, Engaged,
      waiters, Multiset.mem_cons]
    tauto

/-- A thread that asks for the writer is at it from then on, unless it has it. -/
theorem acquire_engaged (howner : lock.state.owner ≠ some thread)
    (hstep : lock.step (.acquire thread) = some lock') : lock'.Engaged thread := by
  simp only [step] at hstep
  split at hstep
  · cases hstep
  · simp only [WriterState.acquire, if_neg howner] at hstep
    cases hstep
    exact (settle_engaged _).mpr (.inl rfl)

theorem wakeUp_engaged {other : T} (hasleep : thread ∈ lock.asleep) :
    (lock.wakeUp thread).Engaged other ↔ lock.Engaged other := by
  rw [Engaged, wakeUp_waiters hasleep]
  rfl

/-- No step but the drop of its guard takes a thread from the lock. -/
theorem step_engaged {action : WriterAction T} (hkept : action ≠ .drop thread)
    (hstep : lock.step action = some lock') (h : lock.Engaged thread) : lock'.Engaged thread := by
  cases action with
  | acquire other =>
    simp only [step] at hstep
    split at hstep
    · cases hstep
    · by_cases howner : lock.state.owner = some other
      · simp only [WriterState.acquire, if_pos howner] at hstep
        cases hstep
        exact h
      · simp only [WriterState.acquire, if_neg howner] at hstep
        cases hstep
        exact (settle_engaged _).mpr (.inr h)
  | wake other =>
    simp only [step] at hstep
    split at hstep
    · next hasleep =>
      cases hstep
      exact (wakeUp_engaged hasleep).mpr h
    · cases hstep
  | recheck other =>
    simp only [step] at hstep
    split at hstep
    · cases hstep
      -- The thread that looks is out of the woken ones, and goes on to wait or to hold the writer.
      rw [settle_engaged]
      by_cases hother : thread = other
      · exact .inl hother
      · refine .inr (h.imp_left fun hwaits => ?_)
        simp only [waiters, Finset.mem_union, Finset.mem_erase] at hwaits ⊢
        exact hwaits.imp_right fun hwoken => ⟨hother, hwoken⟩
    · cases hstep
  | drop other =>
    simp only [step] at hstep
    split at hstep
    · cases hstep
      have hother : thread ≠ other := fun heq => hkept (heq ▸ rfl)
      exact h.imp_right (Multiset.mem_erase_of_ne hother).mpr
    · cases hstep
  | notify other waiter =>
    simp only [step] at hstep
    split at hstep
    · cases waiter with
      | none =>
        simp only at hstep
        split at hstep
        · cases hstep
          exact h
        · cases hstep
      | some waiter =>
        simp only at hstep
        split at hstep
        · next hasleep =>
          cases hstep
          have hnotified : ({ lock with
              notifying := lock.notifying.erase other } : WriterLock T).Engaged thread := h
          exact (wakeUp_engaged hasleep).mpr hnotified
        · cases hstep
    · cases hstep

end WriterLock

/-! ## Moves -/

section Processes

variable {T M P R σ : Type} [DecidableEq T] [MemberIdentity M] [ProvenanceReference P]
  [RetentionReference R] [SerdeJson] [Unicode] [Sha256] [VectorMath] [LifecycleBackend σ]
  {start : σ} {process process' last : Process T M P R σ}

/-- A step of a thread that is at the writer already: no thread joins or wakes for nothing, and
a guard is held until its operation has ended. -/
inductive Process.Move : Process T M P R σ → Process T M P R σ → Prop where
  | recheck {process : Process T M P R σ} {lock : WriterLock T} {thread : T}
      (stepped : process.lock.step (.recheck thread) = some lock) :
      Move process { process with lock }
  | notify {process : Process T M P R σ} {lock : WriterLock T} {thread : T} {waiter : Option T}
      (stepped : process.lock.step (.notify thread waiter) = some lock) :
      Move process { process with lock }
  | call {process : Process T M P R σ} {thread : T} {operation : LifecycleOperation M P R}
      {c : Call} {next : c.Reply → Driver (PublishReceipt R)}
      (guard : thread ∈ process.lock.guards)
      (work : process.works thread = some ⟨operation, .call c next⟩) :
      Move process { process with
        state := (LifecycleBackend.act c process.state).2
        works := Function.update process.works thread
          (some ⟨operation, .resume next (LifecycleBackend.act c process.state).1⟩) }
  | leave {process : Process T M P R σ} {lock : WriterLock T} {thread : T}
      (ended : ∀ work, process.works thread = some work → work.rest.outcome.isSome)
      (dropped : process.lock.step (.drop thread) = some lock) :
      Move process {
        lock
        state := process.state
        works := Function.update process.works thread none
        taken := ((process.works thread).map (Work.turn thread)).toList ++ process.taken }

theorem Process.Move.step (h : process.Move process') : process.Step process' := by
  cases h with
  | recheck stepped => exact .writer (fun _ hdrop => by cases hdrop) stepped
  | notify stepped => exact .writer (fun _ hdrop => by cases hdrop) stepped
  | call guard work => exact .call guard work
  | leave ended dropped => exact .drop dropped

/-! ## Threads at an operation -/

/-- The lock is sound, and a thread at an operation waits for the writer or holds it. -/
structure Process.Manned (process : Process T M P R σ) : Prop where
  lock : process.lock.Inv
  engaged : ∀ thread, process.works thread ≠ none → process.lock.Engaged thread

omit [MemberIdentity M] [ProvenanceReference P] [RetentionReference R] [SerdeJson] [Unicode]
  [Sha256] [VectorMath] [LifecycleBackend σ] in
/-- What one thread is at is not what another is at. -/
theorem worked_elsewhere
    {works : T → Option (Work (LifecycleOperation M P R) Call.Reply HeuremaError (PublishReceipt R))}
    {thread other : T}
    {work : Option (Work (LifecycleOperation M P R) Call.Reply HeuremaError (PublishReceipt R))}
    (hother : other ≠ thread) (h : Function.update works thread work other ≠ none) :
    works other ≠ none := by
  rwa [Function.update_of_ne hother] at h

theorem Process.Manned.step (h : process.Manned) (hstep : process.Step process') :
    process'.Manned := by
  cases hstep with
  | @apply lock thread operation checked checks idle outside acquired =>
    refine ⟨h.lock.step acquired, fun other hworks => ?_⟩
    by_cases hother : other = thread
    · subst hother
      exact WriterLock.acquire_engaged outside acquired
    · have hkept : WriterAction.acquire thread ≠ .drop other := fun hdrop => by cases hdrop
      have hengaged := h.engaged other (worked_elsewhere hother hworks)
      exact WriterLock.step_engaged hkept acquired hengaged
  | writer kept stepped =>
    exact ⟨h.lock.step stepped, fun other hworks =>
      WriterLock.step_engaged (kept other) stepped (h.engaged other hworks)⟩
  | @call thread operation c next guard work =>
    refine ⟨h.lock, fun other hworks => ?_⟩
    by_cases hother : other = thread
    · exact .inr (hother ▸ guard)
    · exact h.engaged other (worked_elsewhere hother hworks)
  | @drop lock thread dropped =>
    refine ⟨h.lock.step dropped, fun other hworks => ?_⟩
    have hother : other ≠ thread := by
      intro heq
      subst heq
      exact hworks (Function.update_self ..)
    have hkept : WriterAction.drop thread ≠ .drop other := by
      intro hdrop
      cases hdrop
      exact hother rfl
    have hengaged := h.engaged other (worked_elsewhere hother hworks)
    exact WriterLock.step_engaged hkept dropped hengaged
  | read reads => exact ⟨h.lock, h.engaged⟩

theorem Process.Reachable.manned (h : process.Reachable start) : process.Manned := by
  induction h with
  | new => exact ⟨WriterLock.new_inv, fun _ hworks => absurd rfl hworks⟩
  | step reachable hstep ih => exact ih.step hstep

/-! ## Every run of moves ends -/

theorem Process.Move.manned (hmove : process.Move process') (h : process.Manned) :
    process'.Manned := h.step hmove.step

theorem Process.Manned.moves (h : process.Manned)
    (hmoves : Relation.ReflTransGen Process.Move process last) : last.Manned := by
  induction hmoves with
  | refl => exact h
  | tail moves hmove ih => exact hmove.manned ih

/-- No run of moves from a process goes on forever. -/
abbrev Process.Ends (process : Process T M P R σ) : Prop :=
  Acc (fun next process => Process.Move process next) process

/-- No call is left to the thread that holds the writer. -/
def Process.Idle (process : Process T M P R σ) : Prop :=
  ∀ thread ∈ process.lock.guards, ∀ work, process.works thread = some work →
    work.rest.outcome.isSome

omit [MemberIdentity M] [ProvenanceReference P] [RetentionReference R] [SerdeJson] [Unicode]
  [Sha256] [VectorMath] in
/-- Where the holder has no call to make, a move leaves less to do of the lock. -/
theorem Process.Move.due (hmove : process.Move process') (h : process.Manned)
    (hidle : process.Idle) : process'.lock.due < process.lock.due := by
  cases hmove with
  | recheck stepped => exact WriterLock.recheck_due h.lock stepped
  | notify stepped => exact WriterLock.notify_due stepped
  | call guard work => exact absurd (hidle _ guard _ work) (by simp [Program.outcome])
  | leave ended dropped => exact WriterLock.drop_due dropped

variable {bound : Nat}

/-- Where the holder has no call to make, a process ends if all do in which less is left. -/
theorem Process.Ends.of_idle
    (hless : ∀ next : Process T M P R σ, next.Manned → next.lock.due < bound → next.Ends)
    (h : process.Manned) (hbound : process.lock.due = bound) (hidle : process.Idle) :
    process.Ends := by
  refine ⟨_, fun next hmove => ?_⟩
  apply hless next (hmove.manned h)
  rw [← hbound]
  exact hmove.due h hidle

/-- The holder makes its calls, each of which goes down in its program. -/
theorem Process.Ends.of_work
    (hless : ∀ next : Process T M P R σ, next.Manned → next.lock.due < bound → next.Ends)
    {thread : T} {operation : LifecycleOperation M P R} (program : Driver (PublishReceipt R))
    (h : process.Manned) (hbound : process.lock.due = bound)
    (hholder : process.lock.state.owner = some thread)
    (hwork : process.works thread = some ⟨operation, program⟩) : process.Ends := by
  have hsole {other : T} (hguard : other ∈ process.lock.guards) : other = thread :=
    Option.some.inj ((h.lock.owner_iff.mpr hguard).symm.trans hholder)
  -- Every call of the program has an end to come to, whatever it answers.
  induction program generalizing process with
  | done outcome =>
    apply Process.Ends.of_idle hless h hbound
    intro other hguard work hother
    rw [hsole hguard, hwork] at hother
    cases hother
    rfl
  | call c next ih =>
    refine ⟨_, fun later hmove => ?_⟩
    have hmanned := hmove.manned h
    cases hmove with
    | recheck stepped => exact hless _ hmanned (hbound ▸ WriterLock.recheck_due h.lock stepped)
    | notify stepped => exact hless _ hmanned (hbound ▸ WriterLock.notify_due stepped)
    | leave ended dropped => exact hless _ hmanned (hbound ▸ WriterLock.drop_due dropped)
    | @call other job c' next' guard work =>
      obtain rfl := hsole guard
      rw [hwork] at work
      cases work
      cases hanswer : (LifecycleBackend.act c process.state).1 with
      | ok reply =>
        rw [hanswer] at hmanned
        exact ih reply hmanned hbound hholder (Function.update_self ..) hsole
      | error e =>
        rw [hanswer] at hmanned
        apply Process.Ends.of_idle hless hmanned hbound
        intro other hguard work hother
        obtain rfl := hsole hguard
        simp only [Function.update_self] at hother
        cases hother
        rfl

theorem Process.Manned.ends (h : process.Manned) : process.Ends := by
  -- What is left of the lock goes down, and between two steps of the lock the holder's program.
  induction hbound : process.lock.due using Nat.strong_induction_on generalizing process with
  | _ bound ih =>
    have hless (next : Process T M P R σ) (hmanned : next.Manned) (hlt : next.lock.due < bound) :
        next.Ends := ih _ hlt hmanned rfl
    by_cases hworks : ∃ thread work, process.lock.state.owner = some thread ∧
        process.works thread = some work
    · obtain ⟨thread, ⟨operation, program⟩, hholder, hwork⟩ := hworks
      exact Process.Ends.of_work hless program h hbound hholder hwork
    · apply Process.Ends.of_idle hless h hbound
      intro thread hguard work hwork
      exact absurd ⟨thread, work, h.lock.owner_iff.mpr hguard, hwork⟩ hworks

/-! ## A process that cannot move -/

omit [MemberIdentity M] [ProvenanceReference P] [RetentionReference R] [SerdeJson] [Unicode]
  [Sha256] [VectorMath] in
/-- The thread that holds the writer makes its next call, or leaves. -/
theorem Process.Manned.holder_moves (h : process.Manned) {thread : T}
    (howner : process.lock.state.owner = some thread) : ∃ next, process.Move next := by
  have hguard := h.lock.owner_iff.mp howner
  obtain ⟨lock, hdrop⟩ := h.lock.drops hguard
  by_cases hended : ∀ work, process.works thread = some work → work.rest.outcome.isSome
  · exact ⟨_, .leave hended hdrop⟩
  · obtain ⟨⟨operation, program⟩, hunended⟩ := not_forall.mp hended
    obtain ⟨hwork, hrest⟩ := Classical.not_imp.mp hunended
    cases program with
    | done outcome => exact absurd rfl hrest
    | call c next => exact ⟨_, .call hguard hwork⟩

omit [MemberIdentity M] [ProvenanceReference P] [RetentionReference R] [SerdeJson] [Unicode]
  [Sha256] [VectorMath] in
/-- A process in which no thread can move has nobody at the writer. -/
theorem Process.Manned.quiet (h : process.Manned) (hstuck : ∀ next, ¬ process.Move next) :
    process.lock.Quiet ∧ ∀ thread, process.works thread = none := by
  have hfree : process.lock.state.owner = none := by
    by_contra howned
    obtain ⟨thread, howner⟩ := Option.ne_none_iff_exists'.mp howned
    obtain ⟨next, hmove⟩ := h.holder_moves howner
    exact hstuck next hmove
  have hguards : process.lock.guards = 0 := by
    rw [h.lock.guards, hfree]
    rfl
  have houtside (thread : T) : ¬ process.lock.Inside thread := by
    intro hinside
    rcases h.lock.goes_on hfree hinside with ⟨other, lock, hstep⟩ | ⟨other, waiter, lock, hstep⟩
    · exact hstuck _ (.recheck hstep)
    · exact hstuck _ (.notify hstep)
  refine ⟨⟨hguards, houtside⟩, fun thread => ?_⟩
  by_contra hworks
  rcases h.engaged thread hworks with hwaits | hguard
  · have hinside := houtside thread
    simp only [WriterLock.Inside, not_or] at hinside
    rcases Finset.mem_union.mp hwaits with hasleep | hwoken
    · exact hinside.1 hasleep
    · exact hinside.2.1 hwoken
  · rw [hguards] at hguard
    exact absurd hguard (Multiset.notMem_zero thread)

/-! ## Answers -/

/-- The operation a thread is at, or waits to start. -/
def Process.jobs (process : Process T M P R σ) (thread : T) : List (LifecycleOperation M P R) :=
  ((process.works thread).map Work.job).toList

/-- The turns that came since end the operations that threads were at, each in its thread. -/
structure Process.Settles (process last : Process T M P R σ)
    (turns : List (Turn T (LifecycleOperation M P R) HeuremaError (PublishReceipt R))) : Prop where
  taken : last.taken = turns ++ process.taken
  ended : ∀ turn ∈ turns, turn.outcome.isSome
  jobs : ∀ thread, process.jobs thread =
    last.jobs thread ++ (turns.filter fun turn => turn.thread = thread).map Turn.job

omit [DecidableEq T] [MemberIdentity M] [ProvenanceReference P] [RetentionReference R] [SerdeJson]
  [Unicode] [Sha256] [VectorMath] [LifecycleBackend σ] in
/-- Where no thread took a turn, every thread is still at its operation. -/
theorem Process.Settles.none [DecidableEq T] (htaken : last.taken = process.taken)
    (hjobs : ∀ thread, last.jobs thread = process.jobs thread) : process.Settles last [] where
  taken := htaken
  ended := by
    intro turn hturn
    cases hturn
  jobs := by
    intro thread
    rw [hjobs thread, List.filter_nil, List.map_nil, List.append_nil]

omit [MemberIdentity M] [ProvenanceReference P] [RetentionReference R] [SerdeJson] [Unicode]
  [Sha256] [VectorMath] in
/-- A turn for the operation of a thread is no turn of another thread. -/
theorem turn_jobs (thread other : T)
    (work : Option (Work (LifecycleOperation M P R) Call.Reply HeuremaError (PublishReceipt R))) :
    ((work.map (Work.turn thread)).toList.filter fun turn => turn.thread = other).map Turn.job =
      if thread = other then (work.map Work.job).toList else [] := by
  cases work with
  | none => simp
  | some work =>
    by_cases hother : thread = other
    · simp [Work.turn, hother]
    · simp [Work.turn, hother]

omit [MemberIdentity M] [ProvenanceReference P] [RetentionReference R] [SerdeJson] [Unicode]
  [Sha256] [VectorMath] in
theorem Process.Move.settles (h : process.Move process') :
    ∃ turns, process.Settles process' turns := by
  cases h with
  | recheck stepped => exact ⟨[], .none rfl fun _ => rfl⟩
  | notify stepped => exact ⟨[], .none rfl fun _ => rfl⟩
  | @call holder operation c next guard work =>
    refine ⟨[], .none rfl fun thread => ?_⟩
    by_cases hthread : thread = holder
    · subst hthread
      simp [Process.jobs, work]
    · simp [Process.jobs, Function.update_of_ne hthread]
  | @leave lock holder ended dropped =>
    refine ⟨_, rfl, fun turn hturn => ?_, fun thread => ?_⟩
    · obtain ⟨work, hwork, rfl⟩ := Option.map_eq_some_iff.mp (Option.mem_toList.mp hturn)
      exact ended work hwork
    · rw [turn_jobs]
      by_cases hthread : holder = thread
      · subst hthread
        simp [Process.jobs]
      · simp [Process.jobs, hthread, Function.update_of_ne (Ne.symm hthread)]

omit [MemberIdentity M] [ProvenanceReference P] [RetentionReference R] [SerdeJson] [Unicode]
  [Sha256] [VectorMath] in
theorem Process.moves_settle (h : Relation.ReflTransGen Process.Move process last) :
    ∃ turns, process.Settles last turns := by
  induction h with
  | refl => exact ⟨[], .none rfl fun _ => rfl⟩
  | tail moves hmove ih =>
    obtain ⟨earlier, htaken, hended, hjobs⟩ := ih
    obtain ⟨later, htaken', hended', hjobs'⟩ := hmove.settles
    refine ⟨later ++ earlier, ?_, fun turn hturn => ?_, fun thread => ?_⟩
    · rw [htaken', htaken, List.append_assoc]
    · rcases List.mem_append.mp hturn with hlater | hearlier
      · exact hended' turn hlater
      · exact hended turn hearlier
    · rw [hjobs, hjobs', List.filter_append, List.map_append, List.append_assoc]

/-- The threads at the writer cannot go on forever. Where none of them can move, nobody is at the
writer, and the turns since ended each operation that was under way, in its thread and once. -/
structure Process.Drains (process : Process T M P R σ) : Prop where
  ends : process.Ends
  answers : ∀ last, Relation.ReflTransGen Process.Move process last →
    (∀ next, ¬ last.Move next) →
    last.lock.Quiet ∧ (∀ thread, last.works thread = none) ∧
    ∃ turns, last.taken = turns ++ process.taken ∧ (∀ turn ∈ turns, turn.outcome.isSome) ∧
      ∀ thread, (turns.filter fun turn => turn.thread = thread).map Turn.job = process.jobs thread

/-- Wherever threads over one backend stand, and in whatever order those at its writer go on,
every operation they are at or wait to start is answered, and the writer is free again. -/
theorem waiting_answered (h : process.Reachable start) : process.Drains where
  ends := h.manned.ends
  answers last hmoves hstuck := by
    obtain ⟨hquiet, hidle⟩ := (h.manned.moves hmoves).quiet hstuck
    obtain ⟨turns, htaken, hended, hjobs⟩ := Process.moves_settle hmoves
    refine ⟨hquiet, hidle, turns, htaken, hended, fun thread => ?_⟩
    rw [hjobs thread, Process.jobs, hidle thread]
    rfl

end Processes

section Witness

attribute [local instance] Consumer.identity Consumer.reference SerdeJson.compact Unicode.ascii
  Consumer.sha256 Line.math

/-- A thread that waits behind another at the same operation. -/
theorem waiting_answered_created : ∃ process : Process Nat Str Str Str Atmis.LifecycleState,
    process.Reachable .empty ∧ process.lock.asleep = {1} ∧
    process.jobs 0 = [Consumer.created] ∧ process.jobs 1 = [Consumer.created] ∧
    process.Drains := by
  obtain ⟨checked, hchecked⟩ := Consumer.created_checked
  have hchecks : CheckedOperation.check Consumer.created = .ok checked :=
    hchecked ▸ checked.check_checked
  let start : Process Nat Str Str Str Atmis.LifecycleState := .new .empty
  have hnew : start.Reachable .empty := .new
  have hfirst : start.lock.step (.acquire 0) = some _ := rfl
  have houtside : start.lock.state.owner ≠ some 0 := fun howner => by cases howner
  have hheld := hnew.step (.apply hchecks rfl houtside hfirst)
  have hsecond : (start.lock.settle 0 (.takes, ⟨some 0, 0⟩)).step (.acquire 1) = some _ := rfl
  have hwaiting := hheld.step (.apply hchecks rfl (by decide) hsecond)
  exact ⟨_, hwaiting, rfl, rfl, rfl, waiting_answered hwaiting⟩

end Witness

end Heurema
