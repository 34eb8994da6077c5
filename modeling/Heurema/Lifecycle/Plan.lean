import Heurema.Lifecycle.Effect

/-! # The writes of one operation

What an operation stages and publishes, encoded, and the reads it starts from,
decoded. -/

namespace Heurema

open Serde Hnsw Digest

open Outcome (refuse ofResult)

/-- The encoded writes and the outcome shared by every step of one operation. -/
structure Plan (R : Type) where
  index : IndexIdentity
  operation : OperationIdentity
  transition : LifecycleTransition
  resulting : IndexState R
  head : Bytes
  record : Bytes

/-- What a prepared operation writes: a version to stage and publish, or the
destruction of its index, which stages nothing. -/
inductive PlannedWrite where
  | version (expectedHead : Option Bytes) (version : IndexVersion) (marker payload : Bytes)
  | destroy (expectedHead : Bytes) (versions : List IndexVersion)

/-- The outcome of a published or replayed operation. -/
structure PublishReceipt (R : Type) where
  index : IndexIdentity
  operation : OperationIdentity
  transition : LifecycleTransition
  state : IndexState R
  replayed : Bool

/-- The versions from 1 to `last`. -/
def IndexVersion.upTo (last : IndexVersion) : Except HeuremaError (List IndexVersion) :=
  (List.finRange last.get).mapM fun i =>
    tryFrom (i.val + 1) (Nat.lt_of_le_of_lt i.isLt last.fits)

theorem IndexVersion.upTo_spec (last : IndexVersion) : ∃ versions, last.upTo = .ok versions ∧
    ∀ version, version ∈ versions ↔ version ≤ last := by
  have hfits (i : Fin last.get) : i.val + 1 < UInt64.size :=
    Nat.lt_of_le_of_lt i.isLt last.fits
  have hall : last.upTo = .ok ((List.finRange last.get).map fun i =>
      ⟨i.val + 1, Nat.succ_pos _, hfits i⟩) :=
    Outcome.mapM_of_ok fun i _ => by simp [tryFrom]
  refine ⟨_, hall, fun version => ?_⟩
  rw [List.mem_map]
  constructor
  · rintro ⟨i, -, rfl⟩
    exact IndexVersion.le_iff.mpr i.isLt
  · intro hle
    have hle := IndexVersion.le_iff.mp hle
    have hpos := version.nonzero
    refine ⟨⟨version.get - 1, by omega⟩, List.mem_finRange _, IndexVersion.ext ?_⟩
    show version.get - 1 + 1 = version.get
    omega

section Plan

variable {M P R : Type} [MemberIdentity M] [ProvenanceReference P] [RetentionReference R]

def notPermitted {T : Type} (operation : LifecycleOperation M P R) (state : IndexStateKind) :
    Except HeuremaError T :=
  .error (.transitionNotPermitted operation.index operation.change.transition state)

variable [SerdeJson] [Unicode]

/-- What `successor` stages, or what it destroys. -/
def plannedWrite (successor : Successor M P R) (expectedHead : Option Bytes)
    (operation : LifecycleOperation M P R) : Except HeuremaError PlannedWrite :=
  match successor.payload, expectedHead with
  | some payload, expectedHead => do
    let marker ← encode (StagingMarker.new payload.index payload.version
      successor.record.operation successor.record.transition)
    let bytes ← encode payload.toRaw
    return .version expectedHead payload.version marker bytes
  | none, some expectedHead =>
    match successor.head.state with
    | .destroyed lastVersion _ _ => do return .destroy expectedHead (← lastVersion.upTo)
    | .active _ => notPermitted operation .active
  | none, none => notPermitted operation .absent

/-- Encodes every write `successor` needs. -/
def encodePlan (successor : Successor M P R) (expectedHead : Option Bytes)
    (operation : LifecycleOperation M P R) : Except HeuremaError (Plan R × PlannedWrite) := do
  let write ← plannedWrite successor expectedHead operation
  let head ← encodeHead successor.head
  let record ← encode successor.record
  return ({
    index := successor.record.index
    operation := successor.record.operation
    transition := successor.record.transition
    resulting := successor.record.resulting
    head
    record }, write)

theorem encodePlan_eq_ok {successor : Successor M P R} {expectedHead : Option Bytes}
    {operation : LifecycleOperation M P R} {plan : Plan R} {write : PlannedWrite}
    (h : encodePlan successor expectedHead operation = .ok (plan, write)) :
    plannedWrite successor expectedHead operation = .ok write ∧
      encodeHead successor.head = .ok plan.head ∧ encode successor.record = .ok plan.record ∧
      plan.index = successor.record.index ∧ plan.operation = successor.record.operation ∧
      plan.transition = successor.record.transition ∧
      plan.resulting = successor.record.resulting := by
  obtain ⟨write', hwrite, h⟩ := Outcome.bind_eq_ok.mp h
  obtain ⟨head, hhead, h⟩ := Outcome.bind_eq_ok.mp h
  obtain ⟨record, hrecord, h⟩ := Outcome.bind_eq_ok.mp h
  cases h
  exact ⟨hwrite, hhead, hrecord, rfl, rfl, rfl, rfl⟩

omit [RetentionReference R] in
theorem plannedWrite_payload {successor : Successor M P R} {payload : VersionPayload M P}
    {marker bytes : Bytes} (hpayload : successor.payload = some payload)
    (hmarker : encode (StagingMarker.new payload.index payload.version
      successor.record.operation successor.record.transition) = .ok marker)
    (hbytes : encode payload.toRaw = .ok bytes) (expectedHead : Option Bytes)
    (operation : LifecycleOperation M P R) : plannedWrite successor expectedHead operation =
      .ok (.version expectedHead payload.version marker bytes) := by
  unfold plannedWrite
  rw [hpayload]
  simp only [hmarker, hbytes, Outcome.ok_bind, Outcome.pure_eq]

omit [RetentionReference R] in
/-- What is written for a version is its marker and its payload. -/
theorem plannedWrite_version {successor : Successor M P R} {payload : VersionPayload M P}
    {expectedHead : Option Bytes} {operation : LifecycleOperation M P R} {write : PlannedWrite}
    (hpayload : successor.payload = some payload)
    (h : plannedWrite successor expectedHead operation = .ok write) :
    ∃ marker bytes, write = .version expectedHead payload.version marker bytes ∧
      encode payload.toRaw = .ok bytes ∧ encode (StagingMarker.new payload.index payload.version
        successor.record.operation successor.record.transition) = .ok marker := by
  unfold plannedWrite at h
  rw [hpayload] at h
  obtain ⟨marker, hmarker, h⟩ := Outcome.bind_eq_ok.mp h
  obtain ⟨bytes, hbytes, h⟩ := Outcome.bind_eq_ok.mp h
  cases h
  exact ⟨marker, bytes, rfl, hbytes, hmarker⟩

omit [RetentionReference R] in
/-- What is written without a version is the destruction of every version. -/
theorem plannedWrite_destroy {successor : Successor M P R} {expectedHead : Option Bytes}
    {operation : LifecycleOperation M P R} {write : PlannedWrite}
    (hpayload : successor.payload = none)
    (h : plannedWrite successor expectedHead operation = .ok write) :
    ∃ expected lastVersion retention key versions, expectedHead = some expected ∧
      successor.head.state = .destroyed lastVersion retention key ∧
      lastVersion.upTo = .ok versions ∧ write = .destroy expected versions := by
  unfold plannedWrite at h
  rw [hpayload] at h
  cases expectedHead with
  | none => cases h
  | some expected =>
    cases hstate : successor.head.state with
    | active version => simp [hstate, notPermitted] at h
    | destroyed lastVersion retention key =>
      simp only [hstate] at h
      obtain ⟨versions, hversions, h⟩ := Outcome.bind_eq_ok.mp h
      cases h
      exact ⟨expected, lastVersion, retention, key, versions, rfl, rfl, hversions, rfl⟩

/-- The payload of the version that `head` names, which has its configuration. -/
def decodeActive (bytes : Bytes) (index : IndexIdentity) (version : IndexVersion)
    (head : IndexRecord R) : Run (VersionPayload M P) := do
  let payload ← decodePayload bytes index version
  if payload.config ≠ head.config then
    refuse (corrupt ("head of index " ++ index.display ++ " and the payload of version " ++
      version.display ++ " name different configurations"))
  else return payload

variable [Sha256]

/-- The recorded outcome of an operation whose key is recorded for its index. -/
def replayed (checked : CheckedOperation M P R) (bytes : Bytes) : Run (PublishReceipt R) := do
  let operation := checked.operation
  let record : OperationRecord M P R ← decodeOperation bytes operation.index operation.key
  if record.operation.digest ≠ checked.identity.digest then
    refuse (.operationConflict {
      index := operation.index
      key := operation.key
      recorded := record.operation.digest
      requested := checked.identity.digest })
  else return {
    index := record.index
    operation := record.operation
    transition := record.transition
    state := record.resulting
    replayed := true }

end Plan

end Heurema
