import Heurema.Data.Discipline
import Heurema.Lifecycle.Reflect
import Heurema.Lifecycle.Trace

/-! # Drivers among drivers

Any number of drivers share a backend, and every call of one is a step among the calls of the
others. A world is the contents of the backend, the writes that took effect, and the chain of
every index. Each call of each driver keeps the contents what the chains leave, and makes no
chain shorter: what a driver read of a chain stays true of an earlier part of it. -/

namespace Heurema

open Serde Hnsw Digest

/-- The write of a call that is not refused. -/
def Call.took : (call : Call) → Except HeuremaError call.Reply → List Write
  | .write update, .ok _ => [update]
  | _, _ => []

/-- A write that publishes a version of an index or destroys it. -/
def Write.Publishes (index : IndexIdentity) : Write → Prop
  | .publish write => write.index = index
  | .destroy write => write.index = index
  | _ => False

instance (index : IndexIdentity) (write : Write) : Decidable (write.Publishes index) := by
  unfold Write.Publishes
  cases write <;> infer_instance

/-- A call that only reads is not refused, and changes nothing. -/
theorem Store.Replies.read {store : Store} {limit : Option Nat} {call : Call}
    {answer : Except HeuremaError call.Reply}
    (hread : call.Reads) (h : store.Replies limit call answer) :
    (∃ reply, answer = .ok reply) ∧ store.after limit call = store ∧ call.took answer = [] := by
  cases call with
  | write write => exact absurd rfl (hread write)
  | readHead index => exact ⟨⟨_, h⟩, rfl, rfl⟩
  | readVersion index version => exact ⟨⟨_, h⟩, rfl, rfl⟩
  | readOperation index key => exact ⟨⟨_, h⟩, rfl, rfl⟩
  | readStaging index => exact ⟨⟨_, h⟩, rfl, rfl⟩
  | listQuarantined => exact ⟨⟨_, h⟩, rfl, rfl⟩
  | listHeads =>
    obtain ⟨reply, hreply, -⟩ := h
    exact ⟨⟨reply, hreply⟩, rfl, rfl⟩
  | listStaged =>
    obtain ⟨reply, hreply, -⟩ := h
    exact ⟨⟨reply, hreply⟩, rfl, rfl⟩
  | listOperations index =>
    obtain ⟨reply, hreply, -⟩ := h
    exact ⟨⟨reply, hreply⟩, rfl, rfl⟩

/-- The publishing write of an operation publishes its index. -/
theorem Publication.publishing_publishes {M P R : Type} [MemberIdentity M]
    [ProvenanceReference P] [RetentionReference R] [SerdeJson] [Unicode] [Sha256]
    (publication : Publication M P R) :
    publication.staged.publishing.Publishes publication.plan.index := by
  cases h : publication.write with
  | version expected version marker bytes => rw [publishing_version h]; rfl
  | destroy expected versions => rw [publishing_destroy h]; rfl

/-- What a call does to contents and to the writes that took effect. -/
def Store.acts (limit : Option Nat) : Acts Call.Reply HeuremaError (Store × List Write) :=
  fun call before answer after => before.1.Replies limit call answer ∧
    after = (before.1.after limit call, before.2 ++ call.took answer)

variable {M P R : Type} [MemberIdentity M] [ProvenanceReference P] [RetentionReference R]
  [SerdeJson] [Unicode] [Sha256]

variable (M P R) in
/-- The contents of a backend, the writes that took effect, and the chain of every index. -/
structure World where
  store : Store
  writes : List Write
  logs : IndexIdentity → List (Commit M P R)

variable [VectorMath]

namespace World

def empty : World M P R := ⟨.empty, [], fun _ => []⟩

/-- The contents are what the chains leave, which are the writes that published. -/
structure Inv (issued : LifecycleOperation M P R → Prop) (world : World M P R) : Prop where
  reflects : ∀ index, world.store.Reflects issued index (world.logs index)
  recorded : ∀ index, world.writes.filter (·.Publishes index) =
    (world.logs index).reverse.map fun commit => commit.publishing
  run : Store.Run world.writes world.store

/-- Chains only grow. -/
def Later (world later : World M P R) : Prop := ∀ index, world.logs index <:+ later.logs index

/-- The world after a write that took effect, with the chain of its index. -/
def commit (world : World M P R) (write : Write) (log : List (Commit M P R)) : World M P R :=
  ⟨world.store.commit write, world.writes ++ [write], Function.update world.logs write.index log⟩

end World

/-- What every driver keeps to. -/
def drivers (issued : LifecycleOperation M P R → Prop) (limit : Option Nat) :
    Discipline Call.Reply HeuremaError (Store × List Write) (World M P R) where
  acts := Store.acts limit
  view world := (world.store, world.writes)
  Inv := World.Inv issued
  Later := World.Later
  refl _ _ := List.suffix_refl _
  trans h h' index := (h index).trans (h' index)

variable {issued : LifecycleOperation M P R → Prop} {limit : Option Nat} {α β : Type}
  {world : World M P R} {post : World M P R → Outcome HeuremaError α → Prop}

namespace World

theorem Inv.empty : (World.empty : World M P R).Inv issued where
  reflects _ := .empty
  recorded _ := rfl
  run := .empty

/-- A write that takes effect keeps the invariant when the chain of its index does. -/
theorem Inv.commit (h : world.Inv issued) {write : Write} (hcheck : world.store.check write = .ok ())
    {log : List (Commit M P R)}
    (hreflects : (world.store.commit write).Reflects issued write.index log)
    (hrecorded : (world.writes ++ [write]).filter (·.Publishes write.index) =
      log.reverse.map fun commit => commit.publishing) :
    (world.commit write log).Inv issued where
  reflects index := by
    by_cases hindex : index = write.index
    · subst hindex
      show (world.store.commit write).Reflects issued write.index (Function.update world.logs _ _ _)
      rw [Function.update_self]
      exact hreflects
    · show (world.store.commit write).Reflects issued index (Function.update world.logs _ _ _)
      rw [Function.update_of_ne hindex]
      exact (h.reflects index).same (world.store.commit_same hindex)
  recorded index := by
    by_cases hindex : index = write.index
    · subst hindex
      show _ = (Function.update world.logs _ _ _).reverse.map _
      rw [Function.update_self]
      exact hrecorded
    · have hother : ¬ write.Publishes index := by
        cases write with
        | stage write => exact id
        | publish write => exact fun hsame => hindex (Eq.symm hsame)
        | destroy write => exact fun hsame => hindex (Eq.symm hsame)
        | quarantine write => exact id
      show (world.writes ++ [write]).filter _ = (Function.update world.logs _ _ _).reverse.map _
      rw [Function.update_of_ne hindex, List.filter_append, List.filter_singleton,
        decide_eq_false hother]
      simpa using h.recorded index
  run := h.run.commit hcheck

/-- A write that publishes nothing leaves what the chain of its index records. -/
theorem Inv.recorded_same (h : world.Inv issued) {index : IndexIdentity} {write : Write}
    (hother : ¬ write.Publishes index) :
    (world.writes ++ [write]).filter (·.Publishes index) =
      (world.logs index).reverse.map fun commit => commit.publishing := by
  rw [List.filter_append, h.recorded, List.filter_singleton, decide_eq_false hother]
  exact List.append_nil _

/-- A write that publishes a commit adds it to what the chain of its index records. -/
theorem Inv.recorded_commit (h : world.Inv issued) {index : IndexIdentity}
    {commit : Commit M P R} (hpublishes : commit.publishing.Publishes index) :
    (world.writes ++ [commit.publishing]).filter (·.Publishes index) =
      (commit :: world.logs index).reverse.map fun commit => commit.publishing := by
  rw [List.filter_append, h.recorded, List.filter_singleton, decide_eq_true hpublishes,
    List.reverse_cons, List.map_append]
  rfl

omit [VectorMath] in
theorem later_commit (world : World M P R) {write : Write} {log : List (Commit M P R)}
    (h : world.logs write.index <:+ log) : world.Later (world.commit write log) := by
  intro index
  show world.logs index <:+ Function.update world.logs write.index log index
  by_cases hindex : index = write.index
  · subst hindex
    rw [Function.update_self]
    exact h
  · rw [Function.update_of_ne hindex]

end World

/-! ## One call of a driver -/

/-- A promise about what a program returns, if it returns. -/
def Returns (returns : World M P R → α → Prop) (world : World M P R)
    (outcome : Outcome HeuremaError α) : Prop :=
  ∀ a, outcome = .ok a → returns world a

section Calls

variable {returns : World M P R → α → Prop} {returns' : World M P R → β → Prop}
  {program : Driver α}

omit [VectorMath] in
theorem Returns.failure (returns : World M P R → α → Prop) (world : World M P R)
    (failure : Failure HeuremaError) : Returns returns world (.error failure) := by
  intro a h
  cases h

/-- Two parts of a program, where the second keeps to what the first returns. -/
theorem keeps_bind {f : α → Driver β}
    (h : (drivers issued limit).Keeps (Returns returns) world program)
    (hf : ∀ later a, world.Later later → later.Inv issued → returns later a →
      (drivers issued limit).Keeps (Returns returns') later (f a)) :
    (drivers issued limit).Keeps (Returns returns') world (program >>= f) := by
  refine .bind ((h.since ((drivers issued limit).refl world)).imp ?_)
  intro later outcome hinv hpost
  cases outcome with
  | ok a => exact hf later a hpost.1 hinv (hpost.2 a rfl)
  | error failure => exact .failure _ _ _

theorem keeps_return {a : α} (h : ∀ later, world.Later later → returns later a) :
    (drivers issued limit).Keeps (Returns returns) world (pure a) := by
  intro later hlater _ b hb
  cases hb
  exact h later hlater

theorem keeps_lift {outcome : Outcome HeuremaError α} {f : α → Driver β}
    (h : ∀ a, outcome = .ok a → (drivers issued limit).Keeps (Returns returns') world (f a)) :
    (drivers issued limit).Keeps (Returns returns') world (.lift outcome >>= f) := by
  cases outcome with
  | ok a => exact h a rfl
  | error failure => exact fun later _ _ => .failure _ _ _

/-- A call that only reads. -/
theorem keeps_read (call : Call) {next : call.Reply → Driver α}
    (hread : call.Reads) (h : ∀ later, world.Later later → later.Inv issued → ∀ reply,
      later.store.Replies limit call (.ok reply) →
      (drivers issued limit).Keeps post later (next reply)) :
    (drivers issued limit).Keeps post world (Driver.call call >>= next) := by
  refine Discipline.Keeps.call ?_
  intro later hlater hinv answer after hacts
  obtain ⟨hreplies, rfl⟩ := hacts
  have hreplies : later.store.Replies limit call answer := hreplies
  obtain ⟨⟨reply, rfl⟩, hafter, htook⟩ := hreplies.read hread
  refine ⟨later, ?_, hinv, (drivers issued limit).refl later, h later hlater hinv reply hreplies⟩
  show (later.store, later.writes) = (later.store.after limit call, later.writes ++ call.took _)
  rw [hafter, htook, List.append_nil]

/-- A program that only reads keeps every chain. -/
theorem keeps_reads (h : program.Makes Call.Reads) :
    (drivers issued limit).Keeps (fun _ _ => True) world program := by
  induction h generalizing world with
  | done outcome => exact fun _ _ _ => trivial
  | call made rest ih =>
    refine keeps_read _ made ?_
    intro _ _ _ reply _
    exact ih reply

/-- What follows a program that only reads. -/
theorem keeps_after_reads {f : α → Driver β} (h : program.Makes Call.Reads)
    (hf : ∀ later a, world.Later later → later.Inv issued →
      (drivers issued limit).Keeps (Returns returns') later (f a)) :
    (drivers issued limit).Keeps (Returns returns') world (program >>= f) := by
  have hreads : (drivers issued limit).Keeps (Returns fun _ _ => True) world program :=
    (keeps_reads h).imp fun _ _ _ _ _ _ => trivial
  exact keeps_bind hreads fun later a hlater hinv _ => hf later a hlater hinv

theorem keeps_failure (failure : Failure HeuremaError) :
    (drivers issued limit).Keeps (Returns returns) world (.done (.error failure)) :=
  fun _ _ _ => .failure _ _ _

theorem keeps_readHead {index : IndexIdentity} {next : Option Bytes → Driver α}
    (h : ∀ later, world.Later later → later.Inv issued →
      (drivers issued limit).Keeps post later (next (Chain.head (later.logs index)))) :
    (drivers issued limit).Keeps post world (Driver.readHead index >>= next) := by
  refine keeps_read (.readHead index) (by simp [Call.Reads]) ?_
  intro later hlater hinv reply hreplies
  obtain rfl : reply = later.store.heads index := Except.ok.inj hreplies
  rw [(hinv.reflects index).head]
  exact h later hlater hinv

theorem keeps_readOperation {index : IndexIdentity} {key : OperationKey}
    {next : Option Bytes → Driver α}
    (h : ∀ later, world.Later later → later.Inv issued →
      (drivers issued limit).Keeps post later (next (Chain.record (later.logs index) key))) :
    (drivers issued limit).Keeps post world (Driver.readOperation index key >>= next) := by
  refine keeps_read (.readOperation index key) (by simp [Call.Reads]) ?_
  intro later hlater hinv reply hreplies
  obtain rfl : reply = later.store.records (index, key) := Except.ok.inj hreplies
  rw [(hinv.reflects index).record]
  exact h later hlater hinv

theorem keeps_readVersion {index : IndexIdentity} {version : IndexVersion}
    {next : Option Bytes → Driver α}
    (h : ∀ later, world.Later later → later.Inv issued →
      (drivers issued limit).Keeps post later (next (later.store.payloads (index, version)))) :
    (drivers issued limit).Keeps post world (Driver.readVersion index version >>= next) := by
  refine keeps_read (.readVersion index version) (by simp [Call.Reads]) ?_
  intro later hlater hinv reply hreplies
  obtain rfl : reply = later.store.payloads (index, version) := Except.ok.inj hreplies
  exact h later hlater hinv

/-- A write, which is refused or takes effect. -/
theorem keeps_commit {write : Write} {next : Unit → Driver α}
    (h : ∀ later, world.Later later → later.Inv issued → later.store.check write = .ok () →
      ∃ log, later.logs write.index <:+ log ∧
        (later.store.commit write).Reflects issued write.index log ∧
        (later.writes ++ [write]).filter (·.Publishes write.index) =
          log.reverse.map (fun commit => commit.publishing) ∧
        (drivers issued limit).Keeps (Returns returns) (later.commit write log) (next ())) :
    (drivers issued limit).Keeps (Returns returns) world (Driver.commit write >>= next) := by
  refine Discipline.Keeps.call ?_
  intro later hlater hinv answer after hacts
  obtain ⟨hreplies, rfl⟩ := hacts
  have hanswer : answer = (later.store.perform limit write).1 := hreplies
  subst hanswer
  show ∃ x, (drivers issued limit).view x = ((later.store.perform limit write).2,
    later.writes ++ (Call.write write).took (later.store.perform limit write).1) ∧ _
  unfold Store.perform
  cases hadmits : later.store.admits limit write with
  | error refusal =>
    refine ⟨later, ?_, hinv, (drivers issued limit).refl later, ?_⟩
    · show (later.store, later.writes) = (later.store, later.writes ++ [])
      rw [List.append_nil]
    · exact fun x _ _ => .failure _ _ _
  | ok _ =>
    have hcheck := (Outcome.then_eq_ok.mp hadmits).2
    obtain ⟨log, hgrows, hreflects, hrecorded, hnext⟩ := h later hlater hinv hcheck
    exact ⟨later.commit write log, rfl, hinv.commit hcheck hreflects hrecorded,
      later.later_commit hgrows, hnext⟩

end Calls

end Heurema
