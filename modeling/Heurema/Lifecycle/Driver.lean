import Heurema.Data.Program
import Heurema.Lifecycle.Backend
import Heurema.Lifecycle.Published

/-! # The driver

An operation as a program of calls on a backend: it is checked, prepared by reads alone,
staged, and published at one atomic point. The writer is not among the calls: it delays a
driver, or refuses it before its first read. -/

namespace Heurema

open Serde Hnsw Digest

open Outcome (refuse ofResult)

/-- A program of calls on a backend. -/
abbrev Driver (α : Type) := Program Call.Reply HeuremaError α

/-- Whether a call only reads. -/
def Call.Reads (call : Call) : Prop := ∀ write, call ≠ .write write

namespace Driver

/-- One call of a backend. -/
def call (c : Call) : Driver c.Reply := .perform c

def readHead (index : IndexIdentity) : Driver (Option Bytes) := call (.readHead index)

def readVersion (index : IndexIdentity) (version : IndexVersion) : Driver (Option Bytes) :=
  call (.readVersion index version)

def readOperation (index : IndexIdentity) (key : OperationKey) : Driver (Option Bytes) :=
  call (.readOperation index key)

def readStaging (index : IndexIdentity) : Driver (Option (IndexVersion × Bytes)) :=
  call (.readStaging index)

def commit (write : Write) : Driver Unit := call (.write write)

end Driver

/-- What `Staged.publish` writes. -/
inductive StagedWrite where
  | version (expectedHead : Option Bytes) (version : IndexVersion) (marker : Bytes)
  | destroy (expectedHead : Bytes) (versions : List IndexVersion)

/-- What is left to write once a write is staged. -/
def PlannedWrite.staged : PlannedWrite → StagedWrite
  | .version expectedHead target marker _ => .version expectedHead target marker
  | .destroy expectedHead versions => .destroy expectedHead versions

/-- A validated operation whose writes are encoded and not yet staged. -/
structure Prepared (R : Type) where
  plan : Plan R
  write : PlannedWrite

/-- A staged operation, not yet published. -/
structure Staged (R : Type) where
  plan : Plan R
  write : StagedWrite

/-- What `prepare` found. -/
inductive Preparation (R : Type) where
  | replayed (receipt : PublishReceipt R)
  | ready (prepared : Prepared R)

section Writes

variable {R : Type}

namespace Prepared

/-- The stage of a version; a destroy stages nothing. -/
def stage (prepared : Prepared R) : Driver (Staged R) :=
  match prepared.write with
  | .version expectedHead version marker payload => do
    Driver.commit (.stage {
      index := prepared.plan.index
      version
      key := prepared.plan.operation.key
      expectedHead
      marker
      payload
      headLen := prepared.plan.head.length
      operationLen := prepared.plan.record.length })
    return ⟨prepared.plan, prepared.write.staged⟩
  | .destroy _ _ => return ⟨prepared.plan, prepared.write.staged⟩

end Prepared

namespace Staged

/-- The write of the publish point. -/
def publishing (staged : Staged R) : Write :=
  match staged.write with
  | .version expectedHead version marker => .publish {
      index := staged.plan.index
      version
      key := staged.plan.operation.key
      expectedHead
      marker
      head := staged.plan.head
      operation := staged.plan.record }
  | .destroy expectedHead versions => .destroy {
      index := staged.plan.index
      key := staged.plan.operation.key
      expectedHead
      head := staged.plan.head
      operation := staged.plan.record
      versions }

def publish (staged : Staged R) : Driver (PublishReceipt R) := do
  Driver.commit staged.publishing
  return {
    index := staged.plan.index
    operation := staged.plan.operation
    transition := staged.plan.transition
    state := staged.plan.resulting
    replayed := false }

end Staged

end Writes

namespace Driver

variable {M P R : Type} [MemberIdentity M] [ProvenanceReference P] [RetentionReference R]
  [SerdeJson] [Unicode] [Sha256]

/-- The head record of an index. -/
def record (index : IndexIdentity) : Driver (Option (IndexRecord R)) := do
  match ← readHead index with
  | none => return none
  | some bytes =>
    let record ← .lift (decodeHead bytes index)
    return some record

/-- The recorded outcome when the key of the operation is recorded for its index. -/
def replay (checked : CheckedOperation M P R) : Driver (Option (PublishReceipt R)) := do
  match ← readOperation checked.operation.index checked.operation.key with
  | none => return none
  | some bytes =>
    let receipt ← .lift (replayed checked bytes)
    return some receipt

/-- The payload of the version that `head` names, or nothing when the index was destroyed
since `head` was read. -/
def activePayload (index : IndexIdentity) (version : IndexVersion) (head : IndexRecord R) :
    Driver (Option (VersionPayload M P)) := do
  match ← readVersion index version with
  | none =>
    let again : Option (IndexRecord R) ← record index
    match again.map IndexRecord.state with
    | some (.active _) => .lift (refuse (corrupt ("head of index " ++ index.display ++
        " names version " ++ version.display ++ ", whose payload is missing")))
    | _ => return none
  | some bytes =>
    let payload ← .lift (decodeActive bytes index version head)
    return some payload

/-- The active version of a head that was read. -/
def current (index : IndexIdentity) : Option (IndexRecord R) → Driver (Current M P R)
  | none => return none
  | some record =>
    match record.state with
    | .active version => do
      match ← activePayload index version record with
      | some payload => return some (record, payload)
      | none => .lift (refuse (.headChanged index))
    | .destroyed _ _ _ => return none

def refuseStaged (index : IndexIdentity) : Driver Unit := do
  match ← readStaging index with
  | some (version, _) => .lift (refuse (.stagedStateExists index version))
  | none => return ()

variable [VectorMath]

/-- The writes of an operation on the head that was read. -/
def build (checked : CheckedOperation M P R) (expectedHead : Option Bytes) :
    Driver (Prepared R) := do
  let index := checked.operation.index
  let head : Option (IndexRecord R) ← .lift (expectedHead.mapM fun bytes => decodeHead bytes index)
  let current ← current index head
  let validated ← .lift (checked.permit head)
  refuseStaged index
  let successor ← .lift (Apply.successor validated current)
  let (plan, write) ← .lift (ofResult (encodePlan successor expectedHead
    validated.checked.operation))
  return ⟨plan, write⟩

/-- Every step of an operation that writes nothing. -/
def prepare (operation : LifecycleOperation M P R) : Driver (Preparation R) := do
  let checked ← .lift (CheckedOperation.check operation)
  let expectedHead ← readHead checked.operation.index
  match ← replay checked with
  | some receipt => return .replayed receipt
  | none =>
    let prepared ← build checked expectedHead
    return .ready prepared

/-- Validates, stages and publishes an operation, or returns its recorded outcome. -/
def apply (operation : LifecycleOperation M P R) : Driver (PublishReceipt R) := do
  match ← prepare operation with
  | .replayed receipt => return receipt
  | .ready prepared =>
    let staged ← prepared.stage
    staged.publish

omit [VectorMath] in
/-- The active version of an index, read whole. -/
def index (R : Type) [RetentionReference R] (index : IndexIdentity) :
    Driver (PublishedIndex M P) := do
  match ← readHead index with
  | none => .lift (refuse (.indexNotFound index.display))
  | some bytes =>
    let head : IndexRecord R ← .lift (decodeHead bytes index)
    match head.state with
    | .active version =>
      match ← activePayload index version head with
      | some payload => return .fromPayload payload
      | none => .lift (refuse (.indexNotFound index.display))
    | .destroyed _ _ _ => .lift (refuse (.indexNotFound index.display))

/-! ## What only reads -/

section Reads

omit [ProvenanceReference P] [MemberIdentity M] [RetentionReference R] [SerdeJson] [Unicode]
  [Sha256] [VectorMath]

theorem readHead_reads (index : IndexIdentity) : (readHead index).Makes Call.Reads :=
  .perform fun _ h => by cases h

theorem readVersion_reads (index : IndexIdentity) (version : IndexVersion) :
    (readVersion index version).Makes Call.Reads := .perform fun _ h => by cases h

theorem readOperation_reads (index : IndexIdentity) (key : OperationKey) :
    (readOperation index key).Makes Call.Reads := .perform fun _ h => by cases h

theorem readStaging_reads (index : IndexIdentity) : (readStaging index).Makes Call.Reads :=
  .perform fun _ h => by cases h

theorem refuseStaged_reads (index : IndexIdentity) : (refuseStaged index).Makes Call.Reads := by
  refine (readStaging_reads index).bind ?_
  intro staging
  split <;> exact .done _

end Reads

section Reads

omit [MemberIdentity M] [ProvenanceReference P] [Sha256] [VectorMath]

theorem record_reads (index : IndexIdentity) :
    (record index : Driver (Option (IndexRecord R))).Makes Call.Reads := by
  refine (readHead_reads index).bind ?_
  intro bytes
  split
  · exact .done _
  · exact (Program.Makes.done _).bind fun _ => .done _

end Reads

omit [VectorMath] in
theorem replay_reads (checked : CheckedOperation M P R) :
    (replay checked).Makes Call.Reads := by
  refine (readOperation_reads _ _).bind ?_
  intro bytes
  split
  · exact .done _
  · exact (Program.Makes.done _).bind fun _ => .done _

omit [Sha256] [VectorMath] in
theorem activePayload_reads (index : IndexIdentity) (version : IndexVersion)
    (head : IndexRecord R) :
    (activePayload index version head : Driver (Option (VersionPayload M P))).Makes Call.Reads := by
  refine (readVersion_reads index version).bind ?_
  intro bytes
  split
  · refine (record_reads index).bind ?_
    intro again
    split <;> exact .done _
  · exact (Program.Makes.done _).bind fun _ => .done _

omit [Sha256] [VectorMath] in
theorem current_reads (index : IndexIdentity) (head : Option (IndexRecord R)) :
    (current index head : Driver (Current M P R)).Makes Call.Reads := by
  unfold current
  split
  · exact .done _
  · split
    · refine (activePayload_reads _ _ _).bind ?_
      intro payload
      split <;> exact .done _
    · exact .done _

theorem build_reads (checked : CheckedOperation M P R) (expectedHead : Option Bytes) :
    (build checked expectedHead).Makes Call.Reads := by
  refine (Program.Makes.done _).bind fun head => ?_
  refine (current_reads _ _).bind fun current => ?_
  refine (Program.Makes.done _).bind fun validated => ?_
  refine (refuseStaged_reads _).bind fun _ => ?_
  refine (Program.Makes.done _).bind fun successor => ?_
  exact (Program.Makes.done _).bind fun _ => .done _

/-- Nothing is written before the stage. -/
theorem prepare_reads (operation : LifecycleOperation M P R) :
    (prepare operation).Makes Call.Reads := by
  refine (Program.Makes.done _).bind fun checked => ?_
  refine (readHead_reads _).bind fun expectedHead => ?_
  refine (replay_reads checked).bind fun receipt => ?_
  split
  · exact .done _
  · exact (build_reads checked expectedHead).bind fun _ => .done _

omit [Sha256] [VectorMath] in
theorem index_reads (name : IndexIdentity) :
    (index R name : Driver (PublishedIndex M P)).Makes Call.Reads := by
  refine (readHead_reads name).bind fun bytes => ?_
  split
  · exact .done _
  · refine (Program.Makes.done _).bind fun head => ?_
    split
    · refine (activePayload_reads _ _ _).bind fun payload => ?_
      split <;> exact .done _
    · exact .done _

end Driver

end Heurema
