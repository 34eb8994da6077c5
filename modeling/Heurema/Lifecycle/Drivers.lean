import Heurema.Lifecycle.Interference

/-! # Drivers on a backend

What runs on a backend is any number of operations, quarantines and reads, each call of one
a step among the calls of the others. Every state that such a run reaches shows the contents
of a world. -/

namespace Heurema

open Serde Hnsw Digest

variable {M P R : Type} [MemberIdentity M] [ProvenanceReference P] [RetentionReference R]
  [SerdeJson] [Unicode] [Sha256] [VectorMath]

/-- What runs on a backend: an operation, the quarantine of a staged version, and whatever
only reads. -/
inductive Runs (issued : LifecycleOperation M P R → Prop) : Driver Unit → Prop where
  | apply {operation : LifecycleOperation M P R} (asked : issued operation) :
    Runs issued (do let _ ← Driver.apply operation)
  | quarantine (write : QuarantineWrite) : Runs issued (Driver.commit (.quarantine write))
  | reads {program : Driver Unit} (reads : program.Makes Call.Reads) : Runs issued program

/-- A call on the state of a backend and the writes that took effect. -/
def LifecycleBackend.act {σ : Type} [LifecycleBackend σ] (call : Call) (before : σ × List Write) :
    Except HeuremaError call.Reply × (σ × List Write) :=
  let (answer, after) := (perform call).run before.1
  (answer, after, before.2 ++ call.took answer)

def LifecycleBackend.acts {σ : Type} [LifecycleBackend σ] :
    Acts Call.Reply HeuremaError (σ × List Write) :=
  fun call before answer after => act call before = (answer, after)

/-- The state of a backend, the writes that took effect, and what runs on it. -/
abbrev Drivers (σ : Type) := Pool Call.Reply HeuremaError (σ × List Write) Unit

/-- What the steps of drivers reach from the first state of a backend. -/
abbrev Reached {σ : Type} [LifecycleBackend σ] (issued : LifecycleOperation M P R → Prop)
    (start : σ) : Drivers σ → Prop :=
  Pool.Reachable LifecycleBackend.acts (Runs issued) (start, [])

variable {issued : LifecycleOperation M P R → Prop} {limit : Option Nat} {world : World M P R}

theorem runs_keep {program : Driver Unit} (h : Runs issued program) :
    (drivers issued limit).Keeps (fun _ _ => True) world program := by
  cases h with
  | apply hissued =>
    have happly : (drivers issued limit).Keeps (Returns fun _ _ => True) world (do
        let _ ← Driver.apply _) :=
      keeps_bind (apply_keeps hissued) fun _ _ _ _ _ => keeps_return fun _ _ => trivial
    exact happly.imp fun _ _ _ _ => trivial
  | quarantine write => exact (quarantine_keeps write).imp fun _ _ _ _ => trivial
  | reads hreads => exact keeps_reads hreads

/-! ## A reader beside drivers -/

section Beside

variable {α : Type} {pool last : Pool Call.Reply HeuremaError (Store × List Write) Unit}
  {calls : List (Σ call : Call, Except HeuremaError call.Reply)} {outcome : Outcome HeuremaError α}

/-- A read is answered by the contents of a later world. -/
theorem beside_read (hsound : (drivers issued limit).Sound world pool) {call : Call}
    (hread : call.Reads) {next : call.Reply → Driver α}
    (h : Pool.Beside (Store.acts limit) (Runs issued) (Driver.call call >>= next) pool calls
      outcome last) :
    ∃ later : World M P R, ∃ reply rest pool', calls = ⟨call, .ok reply⟩ :: rest ∧
      world.Later later ∧ (drivers issued limit).Sound later pool' ∧
      later.store.Replies limit call (.ok reply) ∧
      Pool.Beside (Store.acts limit) (Runs issued) (next reply) pool' rest outcome last := by
  have hsame (before : Store × List Write) (answer : Except HeuremaError call.Reply)
      (after : Store × List Write) (hacts : Store.acts limit call before answer after) :
      after = before := by
    obtain ⟨hreplies, rfl⟩ := hacts
    obtain ⟨-, hafter, htook⟩ := hreplies.read hread
    rw [hafter, htook, List.append_nil]
  obtain ⟨later, answer, rest, pool', hcalls, hlater, hsound', hacts, hnext⟩ :=
    hsound.beside_call (fun _ hprogram _ _ => runs_keep hprogram) hsame h
  have hreplies : later.store.Replies limit call answer := hacts.1
  obtain ⟨⟨reply, rfl⟩, -⟩ := hreplies.read hread
  exact ⟨later, reply, rest, pool', hcalls, hlater, hsound', hreplies, hnext⟩

theorem beside_readHead (hsound : (drivers issued limit).Sound world pool) {index : IndexIdentity}
    {next : Option Bytes → Driver α}
    (h : Pool.Beside (Store.acts limit) (Runs issued) (Driver.readHead index >>= next) pool calls
      outcome last) :
    ∃ later : World M P R, ∃ rest pool',
      calls = ⟨.readHead index, .ok (Chain.head (later.logs index))⟩ :: rest ∧
      world.Later later ∧ (drivers issued limit).Sound later pool' ∧
      Pool.Beside (Store.acts limit) (Runs issued) (next (Chain.head (later.logs index))) pool' rest
        outcome last := by
  obtain ⟨later, reply, rest, pool', hcalls, hlater, hsound', hreplies, hnext⟩ :=
    beside_read hsound (by simp [Call.Reads]) h
  obtain rfl : reply = later.store.heads index := Except.ok.inj hreplies
  rw [(hsound'.inv.reflects index).head] at hcalls hnext
  exact ⟨later, rest, pool', hcalls, hlater, hsound', hnext⟩

theorem beside_readOperation (hsound : (drivers issued limit).Sound world pool)
    {index : IndexIdentity} {key : OperationKey} {next : Option Bytes → Driver α}
    (h : Pool.Beside (Store.acts limit) (Runs issued) (Driver.readOperation index key >>= next) pool
      calls outcome last) :
    ∃ later : World M P R, ∃ rest pool',
      calls = ⟨.readOperation index key, .ok (Chain.record (later.logs index) key)⟩ :: rest ∧
      world.Later later ∧ (drivers issued limit).Sound later pool' ∧
      Pool.Beside (Store.acts limit) (Runs issued) (next (Chain.record (later.logs index) key)) pool'
        rest outcome last := by
  obtain ⟨later, reply, rest, pool', hcalls, hlater, hsound', hreplies, hnext⟩ :=
    beside_read hsound (by simp [Call.Reads]) h
  obtain rfl : reply = later.store.records (index, key) := Except.ok.inj hreplies
  rw [(hsound'.inv.reflects index).record] at hcalls hnext
  exact ⟨later, rest, pool', hcalls, hlater, hsound', hnext⟩

theorem beside_readVersion (hsound : (drivers issued limit).Sound world pool)
    {index : IndexIdentity} {version : IndexVersion} {next : Option Bytes → Driver α}
    (h : Pool.Beside (Store.acts limit) (Runs issued) (Driver.readVersion index version >>= next)
      pool calls outcome last) :
    ∃ later : World M P R, ∃ rest pool',
      calls =
        ⟨.readVersion index version, .ok (later.store.payloads (index, version))⟩ :: rest ∧
      world.Later later ∧ (drivers issued limit).Sound later pool' ∧
      Pool.Beside (Store.acts limit) (Runs issued) (next (later.store.payloads (index, version)))
        pool' rest outcome last := by
  obtain ⟨later, reply, rest, pool', hcalls, hlater, hsound', hreplies, hnext⟩ :=
    beside_read hsound (by simp [Call.Reads]) h
  obtain rfl : reply = later.store.payloads (index, version) := Except.ok.inj hreplies
  exact ⟨later, rest, pool', hcalls, hlater, hsound', hnext⟩

/-- A program that is at its end ends in a later world. -/
theorem beside_done (hsound : (drivers issued limit).Sound world pool)
    {result : Outcome HeuremaError α}
    (h : Pool.Beside (Store.acts limit) (Runs issued) (.done result) pool calls outcome last) :
    ∃ later : World M P R, calls = [] ∧ outcome = result ∧ world.Later later ∧
      (drivers issued limit).Sound later last := by
  have hkeeps : (drivers issued limit).Keeps (fun _ _ => True) world
      (.done result : Driver α) := fun _ _ _ => trivial
  obtain ⟨later, hlater, hlast, -⟩ :=
    hsound.beside (fun _ hprogram _ _ => runs_keep hprogram) hkeeps h
  exact ⟨later, h.of_done.1, h.of_done.2, hlater, hlast⟩

end Beside

section Backends

variable {σ : Type} [LifecycleBackend σ] {Represents : σ → Store → Prop}

/-- The contents a backend represents, beside the writes that took effect. -/
def Contents (Represents : σ → Store → Prop) (state : σ × List Write)
    (contents : Store × List Write) : Prop :=
  Represents state.1 contents.1 ∧ state.2 = contents.2

omit [VectorMath] [MemberIdentity M] [ProvenanceReference P] [RetentionReference R] [SerdeJson]
  [Unicode] [Sha256] in
/-- A backend that keeps the contract answers every call as the contents it represents. -/
theorem Adapter.simulates (adapter : Adapter σ limit Represents) :
    Pool.Simulates LifecycleBackend.acts (Store.acts limit) (Contents Represents) := by
  intro state contents h call answer after hacts
  obtain ⟨hrepresents, hwrites⟩ := h
  obtain ⟨answer', state', hrun, hreplies, hafter, -⟩ := adapter.replies hrepresents call
  have hacts : LifecycleBackend.act call state = (answer, after) := hacts
  rw [LifecycleBackend.act, hrun] at hacts
  cases hacts
  exact ⟨_, ⟨hreplies, rfl⟩, hafter, congrArg (· ++ call.took answer) hwrites⟩

/-- Every state that is reached shows the contents of a world. -/
theorem Adapter.reached (adapter : Adapter σ limit Represents) {start : σ}
    (hstart : Represents start .empty) {pool : Drivers σ} (h : Reached issued start pool) :
    ∃ world : World M P R, Represents pool.state.1 world.store ∧ pool.state.2 = world.writes ∧
      (drivers issued limit).Sound world ⟨(world.store, world.writes), pool.programs⟩ := by
  have hcontents : Contents Represents (start, []) (Store.empty, []) := ⟨hstart, rfl⟩
  obtain ⟨contents, hreachable, hrepresents, hwrites⟩ :=
    Pool.Reachable.simulates adapter.simulates hcontents h
  have hempty : (World.empty : World M P R).Inv issued := .empty
  have hview : (drivers issued limit).view World.empty = (Store.empty, []) := rfl
  rw [← hview] at hreachable
  obtain ⟨world, -, hview, hinv, hprograms⟩ :=
    Discipline.Sound.reachable (fun _ hprogram _ _ => runs_keep hprogram) hempty hreachable
  obtain rfl : (world.store, world.writes) = contents := hview
  exact ⟨world, hrepresents, hwrites, rfl, hinv, hprograms⟩

end Backends

end Heurema
