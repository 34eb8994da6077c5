import Heurema.Lifecycle.StorageKey
import Heurema.Data.Locked

/-! # Backends

What a lifecycle asks of the storage it runs on, and the contract of its answers. A backend
stores opaque bytes: a write compares a head and a marker, never overwrites a payload, and
takes effect whole or not at all. -/

namespace Heurema

/-! ## Writes -/

/-- What a stage writes, the head it expects, and the sizes of what its publish writes. -/
structure StageWrite where
  index : IndexIdentity
  version : IndexVersion
  key : OperationKey
  expectedHead : Option Bytes
  marker : Bytes
  payload : Bytes
  headLen : Nat
  operationLen : Nat
deriving DecidableEq

/-- What a publish writes, and the head and the staged marker it expects. -/
structure PublishWrite where
  index : IndexIdentity
  version : IndexVersion
  key : OperationKey
  expectedHead : Option Bytes
  marker : Bytes
  head : Bytes
  operation : Bytes
deriving DecidableEq

/-- What a destroy writes and removes, and the head it expects. -/
structure DestroyWrite where
  index : IndexIdentity
  key : OperationKey
  expectedHead : Bytes
  head : Bytes
  operation : Bytes
  versions : List IndexVersion
deriving DecidableEq

/-- Which staged version a quarantine moves, fenced by its marker. -/
structure QuarantineWrite where
  index : IndexIdentity
  version : IndexVersion
  marker : Bytes
deriving DecidableEq

/-! ## Listed entries -/

structure StagedEntry where
  index : IndexIdentity
  version : IndexVersion
  marker : Bytes
deriving DecidableEq

/-- A staged version moved to quarantine; the payload is absent when none was stored beside
the marker. -/
structure QuarantinedEntry where
  sequence : Nat
  index : IndexIdentity
  version : IndexVersion
  marker : Bytes
  payload : Option Bytes
deriving DecidableEq

namespace QuarantinedEntry

/-- The sequence number of the first entry a store quarantines. -/
def FIRST_SEQUENCE : Nat := 1

/-- The sequence after `last`: `checked_add(1)` of a `u64`. -/
def following (last : Nat) : Except HeuremaError Nat :=
  if last + 1 < UInt64.size then .ok (last + 1)
  else .error (.persistence .quarantineSequenceExhausted)

end QuarantinedEntry

/-! ## The trait -/

/-- A write or a read, over the state of a backend. -/
abbrev BackendM (σ α : Type) := Locked HeuremaError σ α

/-- The storage a lifecycle runs on, as the operations on its state. -/
class LifecycleBackend (σ : Type) where
  readHead : IndexIdentity → BackendM σ (Option Bytes)
  readVersion : IndexIdentity → IndexVersion → BackendM σ (Option Bytes)
  readOperation : IndexIdentity → OperationKey → BackendM σ (Option Bytes)
  readStaging : IndexIdentity → BackendM σ (Option (IndexVersion × Bytes))
  stage : StageWrite → BackendM σ Unit
  publish : PublishWrite → BackendM σ Unit
  destroy : DestroyWrite → BackendM σ Unit
  quarantine : QuarantineWrite → BackendM σ Unit
  listHeads : BackendM σ (List (IndexIdentity × Bytes))
  listStaged : BackendM σ (List StagedEntry)
  listOperations : IndexIdentity → BackendM σ (List (OperationKey × Bytes))
  listQuarantined : BackendM σ (List QuarantinedEntry)

/-- A write of the trait with its arguments. -/
inductive Write where
  | stage (write : StageWrite)
  | publish (write : PublishWrite)
  | destroy (write : DestroyWrite)
  | quarantine (write : QuarantineWrite)
deriving DecidableEq

/-- A call of the trait with its arguments. -/
inductive Call where
  | readHead (index : IndexIdentity)
  | readVersion (index : IndexIdentity) (version : IndexVersion)
  | readOperation (index : IndexIdentity) (key : OperationKey)
  | readStaging (index : IndexIdentity)
  | write (write : Write)
  | listHeads
  | listStaged
  | listOperations (index : IndexIdentity)
  | listQuarantined
deriving DecidableEq

/-- What a call returns when it is not refused. -/
abbrev Call.Reply : Call → Type
  | readHead _ | readVersion _ _ | readOperation _ _ => Option Bytes
  | readStaging _ => Option (IndexVersion × Bytes)
  | write _ => Unit
  | listHeads => List (IndexIdentity × Bytes)
  | listStaged => List StagedEntry
  | listOperations _ => List (OperationKey × Bytes)
  | listQuarantined => List QuarantinedEntry

namespace LifecycleBackend

variable {σ : Type} [LifecycleBackend σ]

/-- Runs a write on the state of a backend. -/
def commit : Write → BackendM σ Unit
  | .stage write => stage write
  | .publish write => publish write
  | .destroy write => destroy write
  | .quarantine write => quarantine write

/-- Runs a call on the state of a backend. -/
def perform : (call : Call) → BackendM σ call.Reply
  | .readHead index => readHead index
  | .readVersion index version => readVersion index version
  | .readOperation index key => readOperation index key
  | .readStaging index => readStaging index
  | .write write => commit write
  | .listHeads => listHeads
  | .listStaged => listStaged
  | .listOperations index => listOperations index
  | .listQuarantined => listQuarantined

end LifecycleBackend

/-! ## Values a backend can store -/

/-- The values whose sizes a backend that bounds them checks, before anything else. -/
def Write.sizes : Write → List (String × Nat)
  | .stage write => [("a version payload", write.payload.length),
      ("a staging marker", write.marker.length), ("a head record", write.headLen),
      ("an operation record", write.operationLen)]
  | .publish write => [("a head record", write.head.length),
      ("an operation record", write.operation.length)]
  | .destroy write => [("a head record", write.head.length),
      ("an operation record", write.operation.length)]
  | .quarantine write => [("a staging marker", write.marker.length)]

/-- Refuses the first value above a limit; a backend without one refuses none. -/
def refuseOversized (limit : Option Nat) : List (String × Nat) → Except HeuremaError Unit
  | [] => .ok ()
  | (what, len) :: rest =>
    match limit with
    | none => .ok ()
    | some limit =>
      if len > limit then .error (.persistence (.oversizedValue what len limit))
      else refuseOversized (some limit) rest

theorem refuseOversized_none (sizes : List (String × Nat)) : refuseOversized none sizes = .ok () := by
  cases sizes <;> rfl

theorem refuseOversized_eq_ok {limit : Nat} {sizes : List (String × Nat)} :
    refuseOversized (some limit) sizes = .ok () ↔ ∀ size ∈ sizes, size.2 ≤ limit := by
  induction sizes with
  | nil => simp [refuseOversized]
  | cons size sizes ih =>
    rw [refuseOversized, List.forall_mem_cons, ← ih]
    split
    · next hlarge => simp [Nat.not_le.mpr hlarge]
    · next hfits => simp [Nat.not_lt.mp hfits]

/-! ## The contract

What the adapters share, with nothing of how they store it: each kind of value by the
identifiers it is stored for, one staged version an index, and the quarantine in order. -/

/-- The contents of a backend. -/
structure Store where
  heads : IndexIdentity → Option Bytes
  payloads : IndexIdentity × IndexVersion → Option Bytes
  staged : IndexIdentity → Option (IndexVersion × Bytes)
  records : IndexIdentity × OperationKey → Option Bytes
  quarantined : List QuarantinedEntry

namespace Store

def empty : Store where
  heads _ := none
  payloads _ := none
  staged _ := none
  records _ := none
  quarantined := []

/-- The marker stored for a version of an index. -/
def markers (store : Store) (place : IndexIdentity × IndexVersion) : Option Bytes :=
  (store.staged place.1).bind fun staged => if staged.1 = place.2 then some staged.2 else none

/-! ### Checks -/

def checkHead (store : Store) (index : IndexIdentity) (expected : Option Bytes) :
    Except HeuremaError Unit :=
  if store.heads index = expected then .ok () else .error (.headChanged index)

def refuseStaged (store : Store) (index : IndexIdentity) : Except HeuremaError Unit :=
  match store.staged index with
  | none => .ok ()
  | some (version, _) => .error (.stagedStateExists index version)

def refuseStoredVersion (store : Store) (index : IndexIdentity) (version : IndexVersion) :
    Except HeuremaError Unit :=
  if (store.payloads (index, version)).isSome then .error (.versionStored index version)
  else .ok ()

def checkMarker (store : Store) (index : IndexIdentity) (version : IndexVersion) (marker : Bytes) :
    Except HeuremaError Unit :=
  if store.markers (index, version) = some marker then .ok ()
  else .error (.stagedStateMissing index version)

def checkPayload (store : Store) (index : IndexIdentity) (version : IndexVersion) :
    Except HeuremaError Unit :=
  if (store.payloads (index, version)).isSome then .ok ()
  else .error (.stagedStateMissing index version)

def refuseRecorded (store : Store) (index : IndexIdentity) (key : OperationKey) :
    Except HeuremaError Unit :=
  if (store.records (index, key)).isSome then .error (.operationRecorded index key) else .ok ()

def nextSequence (store : Store) : Except HeuremaError Nat :=
  match store.quarantined.getLast? with
  | none => .ok QuarantinedEntry.FIRST_SEQUENCE
  | some last => QuarantinedEntry.following last.sequence

/-- Whether a write is let through, in the order of the checks. -/
def check (store : Store) : Write → Except HeuremaError Unit
  | .stage write => do
    store.checkHead write.index write.expectedHead
    store.refuseStaged write.index
    store.refuseStoredVersion write.index write.version
    store.refuseRecorded write.index write.key
  | .publish write => do
    store.checkHead write.index write.expectedHead
    store.checkMarker write.index write.version write.marker
    store.checkPayload write.index write.version
    store.refuseRecorded write.index write.key
  | .destroy write => do
    store.checkHead write.index (some write.expectedHead)
    store.refuseStaged write.index
    store.refuseRecorded write.index write.key
  | .quarantine write => do
    store.checkMarker write.index write.version write.marker
    let _ ← store.nextSequence

/-- The checks of a backend that bounds the values it stores. -/
def admits (store : Store) (limit : Option Nat) (write : Write) : Except HeuremaError Unit := do
  refuseOversized limit write.sizes
  store.check write

/-! ### Changes -/

/-- The number of the entry that is quarantined next. -/
def sequence (store : Store) : Nat :=
  match store.quarantined.getLast? with
  | none => QuarantinedEntry.FIRST_SEQUENCE
  | some last => last.sequence + 1

theorem nextSequence_eq_ok (store : Store) {n : Nat} (h : store.nextSequence = .ok n) :
    n = store.sequence := by
  unfold nextSequence QuarantinedEntry.following at h
  unfold sequence
  cases hlast : store.quarantined.getLast? with
  | none =>
    rw [hlast] at h
    exact (Except.ok.inj h).symm
  | some last =>
    rw [hlast] at h
    dsimp only at h
    split_ifs at h
    exact (Except.ok.inj h).symm

/-- What a write that is let through leaves. -/
def commit (store : Store) : Write → Store
  | .stage write => { store with
      payloads := Function.update store.payloads (write.index, write.version) (some write.payload)
      staged := Function.update store.staged write.index (some (write.version, write.marker)) }
  | .publish write => { store with
      heads := Function.update store.heads write.index (some write.head)
      records := Function.update store.records (write.index, write.key) (some write.operation)
      staged := Function.update store.staged write.index none }
  | .destroy write => { store with
      heads := Function.update store.heads write.index (some write.head)
      records := Function.update store.records (write.index, write.key) (some write.operation)
      payloads := fun place =>
        if place.1 = write.index ∧ place.2 ∈ write.versions then none else store.payloads place }
  | .quarantine write => { store with
      payloads := Function.update store.payloads (write.index, write.version) none
      staged := Function.update store.staged write.index none
      quarantined := store.quarantined ++ [{
        sequence := store.sequence
        index := write.index
        version := write.version
        marker := write.marker
        payload := store.payloads (write.index, write.version) }] }

/-- A write that is refused changes nothing. -/
def perform (store : Store) (limit : Option Nat) (write : Write) :
    Except HeuremaError Unit × Store :=
  match store.admits limit write with
  | .ok () => (.ok (), store.commit write)
  | .error refusal => (.error refusal, store)

/-- What a read or a listing of a store returns. -/
def Answers (store : Store) : (call : Call) → call.Reply → Prop
  | .readHead index, reply => reply = store.heads index
  | .readVersion index version, reply => reply = store.payloads (index, version)
  | .readOperation index key, reply => reply = store.records (index, key)
  | .readStaging index, reply => reply = store.staged index
  | .write _, _ => True
  | .listHeads, reply => Listing StorageKey.head store.heads reply
  | .listStaged, reply => Listing StorageKey.versionAt store.markers
      (reply.map fun entry => ((entry.index, entry.version), entry.marker))
  | .listOperations index, reply =>
    Listing (StorageKey.operation index) (fun key => store.records (index, key)) reply
  | .listQuarantined, reply => reply = store.quarantined

/-! ### The staged version of an index -/

variable {store : Store} {index : IndexIdentity} {version : IndexVersion} {marker : Bytes}

theorem markers_eq_some :
    store.markers (index, version) = some marker ↔ store.staged index = some (version, marker) := by
  rw [markers]
  cases store.staged index with
  | none => simp
  | some staged =>
    obtain ⟨stagedVersion, stagedMarker⟩ := staged
    by_cases hversion : stagedVersion = version <;> simp [hversion]

/-- Staging for an index adds its one marker. -/
theorem markers_stage {store' : Store} (h : store.staged index = none)
    (hstaged : store'.staged = Function.update store.staged index (some (version, marker))) :
    store'.markers = Function.update store.markers (index, version) (some marker) := by
  funext place
  obtain ⟨other, v⟩ := place
  by_cases hother : other = index
  · subst hother
    by_cases hv : v = version
    · simp [markers, hstaged, hv]
    · have hv' : version ≠ v := Ne.symm hv
      simp [markers, hstaged, h, hv, hv']
  · simp [markers, hstaged, hother]

/-- What clears the staged version of an index removes its one marker. -/
theorem markers_clear {store' : Store} (h : store.markers (index, version) = some marker)
    (hstaged : store'.staged = Function.update store.staged index none) :
    store'.markers = Function.update store.markers (index, version) none := by
  have hcurrent := markers_eq_some.mp h
  funext place
  obtain ⟨other, v⟩ := place
  by_cases hother : other = index
  · subst hother
    by_cases hv : v = version
    · simp [markers, hstaged, hv]
    · have hv' : version ≠ v := Ne.symm hv
      simp [markers, hstaged, hcurrent, hv, hv']
  · simp [markers, hstaged, hother]

/-! ### The numbers of quarantine -/

/-- The entries of quarantine are numbered one after the other, within a `u64`. -/
structure Numbered (store : Store) : Prop where
  sequences : store.quarantined.map (·.sequence) =
    List.range' QuarantinedEntry.FIRST_SEQUENCE store.quarantined.length
  fits : store.quarantined.length < UInt64.size

theorem Numbered.empty : Store.empty.Numbered where
  sequences := rfl
  fits := by decide

/-- The next entry has the number after the last. -/
theorem Numbered.sequence (h : store.Numbered) :
    store.sequence = store.quarantined.length + 1 := by
  unfold Store.sequence
  cases hlast : store.quarantined.getLast? with
  | none => rw [List.getLast?_eq_none_iff.mp hlast]; rfl
  | some last =>
    have hnumber := congrArg List.getLast? h.sequences
    rw [List.getLast?_map, hlast, Option.map_some, List.getLast?_range'] at hnumber
    split at hnumber
    · cases hnumber
    · next hlen =>
      have hnumber := Option.some.inj hnumber
      unfold QuarantinedEntry.FIRST_SEQUENCE at hnumber
      show last.sequence + 1 = store.quarantined.length + 1
      omega

/-- A number an entry has is at most the number of the entries. -/
theorem Numbered.bounds (h : store.Numbered) {entry : QuarantinedEntry}
    (hentry : entry ∈ store.quarantined) :
    1 ≤ entry.sequence ∧ entry.sequence ≤ store.quarantined.length := by
  have hmem := List.mem_map_of_mem (f := QuarantinedEntry.sequence) hentry
  rw [h.sequences, List.mem_range'_1] at hmem
  unfold QuarantinedEntry.FIRST_SEQUENCE at hmem
  omega

/-! ### What the checks let through -/

theorem checkHead_eq_ok {expected : Option Bytes} :
    store.checkHead index expected = .ok () ↔ store.heads index = expected := by
  unfold checkHead
  split <;> simp [*]

theorem refuseStaged_eq_ok : store.refuseStaged index = .ok () ↔ store.staged index = none := by
  unfold refuseStaged
  cases store.staged index <;> simp

theorem refuseStoredVersion_eq_ok : store.refuseStoredVersion index version = .ok () ↔
    store.payloads (index, version) = none := by
  unfold refuseStoredVersion
  cases store.payloads (index, version) <;> simp

theorem checkMarker_eq_ok : store.checkMarker index version marker = .ok () ↔
    store.staged index = some (version, marker) := by
  rw [← markers_eq_some]
  unfold checkMarker
  split <;> simp [*]

theorem checkPayload_eq_ok : store.checkPayload index version = .ok () ↔
    ∃ payload, store.payloads (index, version) = some payload := by
  unfold checkPayload
  cases store.payloads (index, version) <;> simp

theorem refuseRecorded_eq_ok {key : OperationKey} : store.refuseRecorded index key = .ok () ↔
    store.records (index, key) = none := by
  unfold refuseRecorded
  cases store.records (index, key) <;> simp

theorem check_stage {write : StageWrite} : store.check (.stage write) = .ok () ↔
    store.heads write.index = write.expectedHead ∧ store.staged write.index = none ∧
      store.payloads (write.index, write.version) = none ∧
      store.records (write.index, write.key) = none := by
  simp only [check, Outcome.then_eq_ok, checkHead_eq_ok, refuseStaged_eq_ok,
    refuseStoredVersion_eq_ok, refuseRecorded_eq_ok]

theorem check_publish {write : PublishWrite} : store.check (.publish write) = .ok () ↔
    store.heads write.index = write.expectedHead ∧
      store.staged write.index = some (write.version, write.marker) ∧
      (∃ payload, store.payloads (write.index, write.version) = some payload) ∧
      store.records (write.index, write.key) = none := by
  simp only [check, Outcome.then_eq_ok, checkHead_eq_ok, checkMarker_eq_ok, checkPayload_eq_ok,
    refuseRecorded_eq_ok]

theorem check_destroy {write : DestroyWrite} : store.check (.destroy write) = .ok () ↔
    store.heads write.index = some write.expectedHead ∧ store.staged write.index = none ∧
      store.records (write.index, write.key) = none := by
  simp only [check, Outcome.then_eq_ok, checkHead_eq_ok, refuseStaged_eq_ok,
    refuseRecorded_eq_ok]

theorem check_quarantine {write : QuarantineWrite} : store.check (.quarantine write) = .ok () ↔
    store.staged write.index = some (write.version, write.marker) ∧
      store.nextSequence = .ok store.sequence := by
  rw [check, Outcome.then_eq_ok, checkMarker_eq_ok, Outcome.bind_eq_ok]
  constructor
  · rintro ⟨hmarker, n, hn, _⟩
    exact ⟨hmarker, store.nextSequence_eq_ok hn ▸ hn⟩
  · rintro ⟨hmarker, hn⟩
    exact ⟨hmarker, _, hn, rfl⟩

theorem staged_of_check {write : StageWrite} (h : store.check (.stage write) = .ok ()) :
    store.staged write.index = none := (check_stage.mp h).2.1

theorem marker_of_publish {write : PublishWrite} (h : store.check (.publish write) = .ok ()) :
    store.markers (write.index, write.version) = some write.marker :=
  markers_eq_some.mpr (check_publish.mp h).2.1

theorem marker_of_quarantine {write : QuarantineWrite}
    (h : store.check (.quarantine write) = .ok ()) :
    store.markers (write.index, write.version) = some write.marker :=
  markers_eq_some.mpr (check_quarantine.mp h).1

/-- A write that is let through keeps the numbers of quarantine. -/
theorem Numbered.commit (h : store.Numbered) {write : Write} (hcheck : store.check write = .ok ()) :
    (store.commit write).Numbered := by
  cases write with
  | stage write => exact ⟨h.sequences, h.fits⟩
  | publish write => exact ⟨h.sequences, h.fits⟩
  | destroy write => exact ⟨h.sequences, h.fits⟩
  | quarantine write =>
    have hnext := (check_quarantine.mp hcheck).2
    have hfits : store.sequence < UInt64.size := by
      unfold nextSequence QuarantinedEntry.following at hnext
      split at hnext
      · rw [← Except.ok.inj hnext]
        decide
      · split at hnext
        · next hlt => exact Except.ok.inj hnext ▸ hlt
        · cases hnext
    rw [h.sequence] at hfits
    constructor
    · simp only [Store.commit, List.map_append, List.map_cons, List.map_nil, List.length_append,
        List.length_cons, List.length_nil]
      rw [List.range'_concat, h.sequences, h.sequence]
      simp only [QuarantinedEntry.FIRST_SEQUENCE]
      congr 2
      omega
    · simpa [Store.commit] using hfits

/-- The markers of an index are at most one. -/
theorem lists_markers (store : Store) (index : IndexIdentity) :
    Listing (fun v => StorageKey.versionAt (index, v)) (fun v => store.markers (index, v))
      (store.staged index).toList := by
  cases hstaged : store.staged index with
  | none => exact .nil fun v => by simp [markers, hstaged]
  | some staged =>
    refine .single (markers_eq_some.mpr hstaged) fun v hv => ?_
    simp [markers, hstaged, hv.symm]

end Store

/-! ## Adapters -/

/-- An adapter keeps the contract: under `Represents`, a call answers as the contents say, and
a write is refused or takes effect as the contents say. -/
structure Adapter (σ : Type) [LifecycleBackend σ] (limit : Option Nat)
    (Represents : σ → Store → Prop) : Prop where
  read {state : σ} {store : Store} (h : Represents state store) (call : Call)
    (hread : ∀ write, call ≠ .write write) :
    ∃ reply, (LifecycleBackend.perform call).run state = (.ok reply, state) ∧
      store.Answers call reply
  refused {state : σ} {store : Store} (h : Represents state store) {write : Write}
    {refusal : HeuremaError} (hrefused : store.admits limit write = .error refusal) :
    (LifecycleBackend.commit write).run state = (.error refusal, state)
  admitted {state : σ} {store : Store} (h : Represents state store) {write : Write}
    (hadmitted : store.admits limit write = .ok ()) :
    ∃ state', (LifecycleBackend.commit write).run state = (.ok (), state') ∧
      Represents state' (store.commit write)

end Heurema
