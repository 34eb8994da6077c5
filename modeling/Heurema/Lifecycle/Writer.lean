import Heurema.Error
import Heurema.Data.Machine
import Mathlib.Data.Fintype.Card
import Mathlib.Data.Multiset.AddSub

/-! # The writer

The lock that every lifecycle over one backend shares. Its mutex makes every critical
section one step, and a thread that waits sleeps on a condition variable between two of
them. A guard clears the owner and notifies in two steps. -/

namespace Heurema

variable {T : Type} [DecidableEq T]

/-! ## Critical sections -/

/-- Who holds the writer, and how many threads wait for it. A thread waits once, so the
`usize` counts the threads there are. -/
structure WriterState (T : Type) where
  owner : Option T
  waiting : Nat

/-- How a pass over the condition of a wait ends. -/
inductive Wait where
  | sleeps
  | takes
deriving DecidableEq

namespace WriterState

/-- One pass of `wait_while`, and the taking of the writer behind it. -/
def waitWhile (state : WriterState T) (current : T) : Wait × WriterState T :=
  if state.owner.isSome then (.sleeps, state)
  else (.takes, { owner := some current, waiting := state.waiting - 1 })

/-- `acquire`, up to the first time it sleeps. -/
def acquire (state : WriterState T) (current : T) :
    Except HeuremaError (Wait × WriterState T) :=
  if state.owner = some current then .error .writerHeld
  else
    let state := { state with waiting := state.waiting + 1 }
    .ok (state.waitWhile current)

/-- What the drop of a guard does under the mutex. -/
def release (state : WriterState T) : WriterState T := { state with owner := none }

end WriterState

/-! ## Threads -/

/-- The lock with the threads that use it: those asleep in a wait, those that woke and have
yet to look at the owner again, the live guards by thread, and the threads whose guard
cleared the owner and has yet to notify. -/
structure WriterLock (T : Type) where
  state : WriterState T
  asleep : Finset T
  woken : Finset T
  guards : Multiset T
  notifying : Finset T

/-- A step of a thread. -/
inductive WriterAction (T : Type) where
  | acquire (thread : T)
  /-- A wakeup nobody asked for. -/
  | wake (thread : T)
  | recheck (thread : T)
  | drop (thread : T)
  /-- `notify_one`, and the thread it wakes, if one sleeps. -/
  | notify (thread : T) (waiter : Option T)
deriving DecidableEq

namespace WriterLock

/-- A writer no thread holds. -/
def new : WriterLock T where
  state := { owner := none, waiting := 0 }
  asleep := ∅
  woken := ∅
  guards := 0
  notifying := ∅

/-- A thread between two critical sections of the lock. -/
def Inside (lock : WriterLock T) (thread : T) : Prop :=
  thread ∈ lock.asleep ∨ thread ∈ lock.woken ∨ thread ∈ lock.notifying

instance (lock : WriterLock T) (thread : T) : Decidable (lock.Inside thread) :=
  inferInstanceAs (Decidable (_ ∨ _ ∨ _))

/-- The threads that entered `acquire` and have not yet taken the writer. -/
def waiters (lock : WriterLock T) : Finset T := lock.asleep ∪ lock.woken

/-- Where a pass over the condition leaves a thread. -/
def settle (lock : WriterLock T) (thread : T) : Wait × WriterState T → WriterLock T
  | (.sleeps, state) => { lock with state, asleep := insert thread lock.asleep }
  | (.takes, state) => { lock with state, guards := thread ::ₘ lock.guards }

def wakeUp (lock : WriterLock T) (thread : T) : WriterLock T :=
  { lock with asleep := lock.asleep.erase thread, woken := insert thread lock.woken }

/-- The steps of threads that are not yet inside the lock, of those inside it, and of those
that hold it. -/
def step (lock : WriterLock T) : WriterAction T → Option (WriterLock T)
  | .acquire thread =>
    if lock.Inside thread then none
    else match lock.state.acquire thread with
      | .error _ => some lock
      | .ok wait => some (lock.settle thread wait)
  | .wake thread => if thread ∈ lock.asleep then some (lock.wakeUp thread) else none
  | .recheck thread =>
    if thread ∈ lock.woken then
      some ({ lock with woken := lock.woken.erase thread }.settle thread
        (lock.state.waitWhile thread))
    else none
  | .drop thread =>
    if thread ∈ lock.guards ∧ ¬ lock.Inside thread then
      some { lock with
        state := lock.state.release
        guards := lock.guards.erase thread
        notifying := insert thread lock.notifying }
    else none
  | .notify thread waiter =>
    if thread ∈ lock.notifying then
      let lock := { lock with notifying := lock.notifying.erase thread }
      match waiter with
      | some waiter => if waiter ∈ lock.asleep then some (lock.wakeUp waiter) else none
      | none => if lock.asleep = ∅ then some lock else none
    else none

/-- The lock from a writer no thread holds. -/
def machine : Machine (WriterLock T) (WriterAction T) where
  init := new
  step := step

/-! ## The invariant -/

/-- The owner has the one live guard and is outside the lock, and the counter counts the
waiters. -/
structure Counted (lock : WriterLock T) : Prop where
  guards : lock.guards = lock.state.owner.toList
  waiting : lock.state.waiting = lock.asleep.card + lock.woken.card
  apart : Disjoint lock.asleep lock.woken
  quiet : Disjoint lock.notifying lock.waiters
  outside : ∀ thread, lock.state.owner = some thread → ¬ lock.Inside thread

/-- A free writer that a thread sleeps for is still to be noticed. -/
structure Inv (lock : WriterLock T) : Prop extends lock.Counted where
  noticed : lock.state.owner = none → lock.asleep.Nonempty →
    lock.notifying.Nonempty ∨ lock.woken.Nonempty

variable {lock lock' : WriterLock T} {thread : T}

theorem new_inv : (new : WriterLock T).Inv where
  guards := rfl
  waiting := rfl
  apart := Finset.disjoint_empty_left _
  quiet := Finset.disjoint_empty_left _
  outside thread howner := by cases howner
  noticed _ hasleep := by simp [new] at hasleep

/-- A thread that is counted as a waiter and looks at the owner. -/
structure Looking (lock : WriterLock T) (thread : T) : Prop where
  guards : lock.guards = lock.state.owner.toList
  waiting : lock.state.waiting = lock.asleep.card + lock.woken.card + 1
  apart : Disjoint lock.asleep lock.woken
  quiet : Disjoint lock.notifying lock.waiters
  outside : ∀ other, lock.state.owner = some other → other ≠ thread ∧ ¬ lock.Inside other
  free : ¬ lock.Inside thread

/-- It sleeps while there is an owner, and becomes the owner otherwise. -/
theorem Looking.settle (h : lock.Looking thread) :
    (lock.settle thread (lock.state.waitWhile thread)).Inv := by
  have hfree := h.free
  simp only [Inside, not_or] at hfree
  obtain ⟨hasleep, hwoken, hnotifying⟩ := hfree
  have hquiet := h.quiet
  rw [waiters, Finset.disjoint_union_right] at hquiet
  cases howner : lock.state.owner with
  | none =>
    have hguards := h.guards
    rw [howner] at hguards
    simp only [WriterState.waitWhile, howner, Option.isSome_none, WriterLock.settle]
    exact {
      guards := by simp [hguards]
      waiting := by simp [h.waiting]
      apart := h.apart
      quiet := h.quiet
      outside := by
        intro other hother
        obtain rfl := Option.some.inj hother
        exact h.free
      noticed := by simp }
  | some owner =>
    obtain ⟨hne, houtside⟩ := h.outside owner howner
    simp only [WriterState.waitWhile, howner, Option.isSome_some, if_true, WriterLock.settle]
    exact {
      guards := h.guards
      waiting := by
        show lock.state.waiting = (insert thread lock.asleep).card + lock.woken.card
        rw [h.waiting, Finset.card_insert_of_notMem hasleep]
        omega
      apart := Finset.disjoint_insert_left.mpr ⟨hwoken, h.apart⟩
      quiet := by
        rw [waiters, Finset.disjoint_union_right]
        exact ⟨Finset.disjoint_insert_right.mpr ⟨hnotifying, hquiet.1⟩, hquiet.2⟩
      outside := by
        intro other hother
        obtain rfl : owner = other := Option.some.inj (howner.symm.trans hother)
        simp only [Inside, not_or] at houtside
        simp [Inside, hne, houtside]
      noticed := by simp [howner] }

theorem Inv.acquire (h : lock.Inv) (hstep : lock.step (.acquire thread) = some lock') :
    lock'.Inv := by
  simp only [step] at hstep
  split at hstep
  · cases hstep
  · next hfree =>
    by_cases howner : lock.state.owner = some thread
    · -- The thread holds the writer, and is refused.
      simp only [WriterState.acquire, if_pos howner] at hstep
      cases hstep
      exact h
    · simp only [WriterState.acquire, if_neg howner] at hstep
      cases hstep
      have hlooking : { lock with
          state := { lock.state with waiting := lock.state.waiting + 1 } }.Looking thread := {
        guards := h.guards
        waiting := congrArg (· + 1) h.waiting
        apart := h.apart
        quiet := h.quiet
        outside := fun other hother => ⟨fun heq => howner (heq ▸ hother), h.outside other hother⟩
        free := hfree }
      exact hlooking.settle

theorem Inv.recheck (h : lock.Inv) (hstep : lock.step (.recheck thread) = some lock') :
    lock'.Inv := by
  simp only [step] at hstep
  split at hstep
  · next hwoken =>
    cases hstep
    have hquiet := h.quiet
    rw [waiters, Finset.disjoint_union_right] at hquiet
    have hlooking : { lock with woken := lock.woken.erase thread }.Looking thread := {
      guards := h.guards
      waiting := by
        have hcard := Finset.card_erase_add_one hwoken
        have hwaiting := h.waiting
        show lock.state.waiting = lock.asleep.card + (lock.woken.erase thread).card + 1
        omega
      apart := h.apart.mono_right (Finset.erase_subset _ _)
      quiet := h.quiet.mono_right (Finset.union_subset_union_right (Finset.erase_subset _ _))
      outside := by
        intro other hother
        have houtside := h.outside other hother
        simp only [Inside, not_or] at houtside
        refine ⟨fun heq => houtside.2.1 (heq ▸ hwoken), ?_⟩
        simp [Inside, houtside]
      free := by
        have hasleep := Finset.disjoint_right.mp h.apart hwoken
        have hnotifying := Finset.disjoint_right.mp hquiet.2 hwoken
        simp [Inside, hasleep, hnotifying] }
    exact hlooking.settle
  · cases hstep

/-- A thread that wakes goes from those asleep to those that are still to look. -/
theorem wakeUp_waiters (hasleep : thread ∈ lock.asleep) :
    (lock.wakeUp thread).waiters = lock.waiters := by
  ext other
  simp only [waiters, wakeUp, Finset.mem_union, Finset.mem_erase, Finset.mem_insert]
  by_cases hother : other = thread
  · subst hother
    simp [hasleep]
  · simp [hother]

/-- Some thread wakes up. -/
theorem Counted.wakeUp (h : lock.Counted) (hasleep : thread ∈ lock.asleep) : (lock.wakeUp thread).Inv where
  guards := h.guards
  waiting := by
    have hwoken := Finset.disjoint_left.mp h.apart hasleep
    have hcard := Finset.card_erase_add_one hasleep
    have hwaiting := h.waiting
    show lock.state.waiting = (lock.asleep.erase thread).card + (insert thread lock.woken).card
    rw [Finset.card_insert_of_notMem hwoken]
    omega
  apart := by
    show Disjoint (lock.asleep.erase thread) (insert thread lock.woken)
    rw [Finset.disjoint_insert_right]
    exact ⟨Finset.notMem_erase thread _, h.apart.mono_left (Finset.erase_subset _ _)⟩
  quiet := by
    rw [wakeUp_waiters hasleep]
    exact h.quiet
  outside := by
    intro owner howner hinside
    apply h.outside owner howner
    rcases hinside with h | h | h
    · exact .inl (Finset.mem_of_mem_erase h)
    · rcases Finset.mem_insert.mp h with rfl | h
      · exact .inl hasleep
      · exact .inr (.inl h)
    · exact .inr (.inr h)
  noticed _ _ := .inr (Finset.insert_nonempty thread lock.woken)

theorem Inv.wake (h : lock.Inv) (hstep : lock.step (.wake thread) = some lock') : lock'.Inv := by
  simp only [step] at hstep
  split at hstep
  · next hasleep =>
    cases hstep
    exact h.toCounted.wakeUp hasleep
  · cases hstep

theorem Inv.drop (h : lock.Inv) (hstep : lock.step (.drop thread) = some lock') : lock'.Inv := by
  simp only [step] at hstep
  split at hstep
  · next hdrop =>
    cases hstep
    obtain ⟨hguard, hfree⟩ := hdrop
    simp only [Inside, not_or] at hfree
    have howner : lock.state.owner = some thread := by
      rw [h.guards] at hguard
      simpa using hguard
    exact {
      guards := by
        show lock.guards.erase thread = 0
        simp [h.guards, howner]
      waiting := h.waiting
      apart := h.apart
      quiet := by
        show Disjoint (insert thread lock.notifying) lock.waiters
        rw [Finset.disjoint_insert_left]
        refine ⟨?_, h.quiet⟩
        simp [waiters, hfree]
      outside := by
        intro other hother
        cases hother
      noticed := fun _ _ => .inl (Finset.insert_nonempty thread lock.notifying) }
  · cases hstep

/-- A notification wakes a sleeping thread, unless none sleeps. -/
theorem Inv.notify {waiter : Option T} (h : lock.Inv)
    (hstep : lock.step (.notify thread waiter) = some lock') : lock'.Inv := by
  have hcounted : { lock with notifying := lock.notifying.erase thread }.Counted := {
    guards := h.guards
    waiting := h.waiting
    apart := h.apart
    quiet := h.quiet.mono_left (Finset.erase_subset _ _)
    outside := by
      intro owner howner hinside
      apply h.outside owner howner
      exact hinside.imp_right fun h => h.imp_right Finset.mem_of_mem_erase }
  simp only [step] at hstep
  split at hstep
  · cases waiter with
    | some waiter =>
      simp only at hstep
      split at hstep
      · next hasleep =>
        cases hstep
        exact hcounted.wakeUp hasleep
      · cases hstep
    | none =>
      simp only at hstep
      split at hstep
      · next hnone =>
        cases hstep
        refine { hcounted with noticed := ?_ }
        intro _ hasleep
        exact absurd hnone hasleep.ne_empty
      · cases hstep
  · cases hstep

/-- Every step keeps the invariant. -/
theorem Inv.step {action : WriterAction T} (h : lock.Inv)
    (hstep : lock.step action = some lock') : lock'.Inv := by
  cases action with
  | acquire thread => exact h.acquire hstep
  | wake thread => exact h.wake hstep
  | recheck thread => exact h.recheck hstep
  | drop thread => exact h.drop hstep
  | notify thread waiter => exact h.notify hstep

theorem reachable_inv (h : machine.Reachable lock) : lock.Inv :=
  h.invariant new_inv fun _ _ _ hinv hstep => hinv.step hstep

/-! ## Exclusion and wakeups -/

theorem Counted.owner_iff (h : lock.Counted) :
    lock.state.owner = some thread ↔ thread ∈ lock.guards := by
  rw [h.guards]
  simp

/-- Only the thread that holds the writer is refused. -/
theorem Counted.acquire_refused (h : lock.Counted) {refusal : HeuremaError} :
    lock.state.acquire thread = .error refusal ↔
      refusal = .writerHeld ∧ thread ∈ lock.guards := by
  rw [← h.owner_iff, WriterState.acquire]
  split
  · next howner => simp [howner, eq_comm]
  · next howner => simp [howner]

/-- The live guard can always be dropped. -/
theorem Counted.drops (h : lock.Counted) (hguard : thread ∈ lock.guards) :
    ∃ lock', lock.step (.drop thread) = some lock' := by
  have houtside := h.outside thread (h.owner_iff.mpr hguard)
  exact ⟨_, if_pos ⟨hguard, houtside⟩⟩

/-- The writer has at most one live guard, and its thread is the owner; only that thread is
refused; the counter counts the threads that wait; and a thread does not sleep for a free
writer that nobody is about to notice. -/
theorem writer_exclusive (h : machine.Reachable lock) :
    lock.guards.card ≤ 1 ∧
    (∀ thread, lock.state.owner = some thread ↔ thread ∈ lock.guards) ∧
    (∀ thread refusal, lock.state.acquire thread = .error refusal ↔
      refusal = .writerHeld ∧ thread ∈ lock.guards) ∧
    lock.state.waiting = lock.waiters.card ∧
    ¬ (lock.state.owner = none ∧ lock.asleep.Nonempty ∧ lock.notifying = ∅ ∧
      lock.woken = ∅) := by
  have hinv := reachable_inv h
  refine ⟨?_, fun _ => hinv.owner_iff, fun _ _ => hinv.acquire_refused, ?_, ?_⟩
  · rw [hinv.guards]
    cases lock.state.owner <;> simp
  · rw [hinv.waiting, waiters, Finset.card_union_of_disjoint hinv.apart]
  · intro hlost
    obtain ⟨howner, hasleep, hnotifying, hwoken⟩ := hlost
    rcases hinv.noticed howner hasleep with h | h
    · exact h.ne_empty hnotifying
    · exact h.ne_empty hwoken

/-- A release with a thread asleep, between the clearing of the owner and the notification. -/
theorem writer_exclusive_release : ∃ lock : WriterLock Nat,
    machine.run new [.acquire 0, .acquire 1, .drop 0] = some lock ∧
    (lock.guards.card ≤ 1 ∧
    (∀ thread, lock.state.owner = some thread ↔ thread ∈ lock.guards) ∧
    (∀ thread refusal, lock.state.acquire thread = .error refusal ↔
      refusal = .writerHeld ∧ thread ∈ lock.guards) ∧
    lock.state.waiting = lock.waiters.card ∧
    ¬ (lock.state.owner = none ∧ lock.asleep.Nonempty ∧ lock.notifying = ∅ ∧
      lock.woken = ∅)) :=
  have hrun : machine.run new [.acquire 0, .acquire 1, .drop 0] = some _ := rfl
  ⟨_, hrun, writer_exclusive (Machine.Reachable.init.run hrun)⟩

end WriterLock

end Heurema
