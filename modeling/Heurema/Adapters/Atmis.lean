import Heurema.Lifecycle.Backend

/-! # The in-memory adapter

Five maps behind one lock: four keyed by storage-key text, and quarantine in sequence
order. Every write runs its checks and then its changes under that lock. -/

namespace Heurema.Atmis

/-- Every lifecycle map. -/
structure LifecycleState where
  heads : BTreeMap Str Bytes
  versions : BTreeMap Str Bytes
  staging : BTreeMap Str Bytes
  operations : BTreeMap Str Bytes
  quarantine : List QuarantinedEntry

namespace LifecycleState

/-- No lifecycle state. -/
def empty : LifecycleState where
  heads := ∅
  versions := ∅
  staging := ∅
  operations := ∅
  quarantine := []

/-- The entries of a map from the first key that is not below `start`. -/
def range (map : BTreeMap Str Bytes) (start : Str) : List (Str × Bytes) :=
  map.toList.dropWhile fun entry => entry.1 < start

/-- The first staging marker among the keys that start with a prefix. -/
def firstStaged (state : LifecycleState) (prefixed : Str) : Option (Str × Bytes) :=
  (range state.staging prefixed).head?.filter fun entry => prefixed.isPrefixOf entry.1

def checkHead (state : LifecycleState) (index : IndexIdentity) (headKey : Str)
    (expected : Option Bytes) : Except HeuremaError Unit :=
  if state.heads[headKey]? = expected then .ok () else .error (.headChanged index)

def refuseStaged [Unicode] (state : LifecycleState) (index : IndexIdentity) (prefixed : Str) :
    Except HeuremaError Unit :=
  match state.firstStaged prefixed with
  | none => .ok ()
  | some (key, _) => do
    let (_, version) ← StorageKey.parseStaging key.asBytes
    .error (.stagedStateExists index version)

def refuseStoredVersion (state : LifecycleState) (index : IndexIdentity) (version : IndexVersion)
    (versionKey : Str) : Except HeuremaError Unit :=
  if state.versions.contains versionKey then .error (.versionStored index version) else .ok ()

def checkMarker (state : LifecycleState) (index : IndexIdentity) (version : IndexVersion)
    (stagingKey : Str) (marker : Bytes) : Except HeuremaError Unit :=
  if state.staging[stagingKey]? = some marker then .ok ()
  else .error (.stagedStateMissing index version)

def checkPayload (state : LifecycleState) (index : IndexIdentity) (version : IndexVersion)
    (versionKey : Str) : Except HeuremaError Unit :=
  if state.versions.contains versionKey then .ok () else .error (.stagedStateMissing index version)

def refuseRecorded (state : LifecycleState) (index : IndexIdentity) (key : OperationKey)
    (operationKey : Str) : Except HeuremaError Unit :=
  if state.operations.contains operationKey then .error (.operationRecorded index key) else .ok ()

def nextSequence (state : LifecycleState) : Except HeuremaError Nat :=
  match state.quarantine.getLast? with
  | none => .ok QuarantinedEntry.FIRST_SEQUENCE
  | some last => QuarantinedEntry.following last.sequence

end LifecycleState

variable [Unicode]

/-! ## Reads -/

def readHead (index : IndexIdentity) : BackendM LifecycleState (Option Bytes) := do
  let key := StorageKey.head index
  return (← get).heads[key]?

def readVersion (index : IndexIdentity) (version : IndexVersion) :
    BackendM LifecycleState (Option Bytes) := do
  let key := StorageKey.version index version
  return (← get).versions[key]?

def readOperation (index : IndexIdentity) (key : OperationKey) :
    BackendM LifecycleState (Option Bytes) := do
  let key := StorageKey.operation index key
  return (← get).operations[key]?

def readStaging (index : IndexIdentity) :
    BackendM LifecycleState (Option (IndexVersion × Bytes)) := do
  let prefixed := StorageKey.indexPrefix index
  match (← get).firstStaged prefixed with
  | none => return none
  | some (key, marker) => do
    let (_, version) ← StorageKey.parseStaging key.asBytes
    return some (version, marker)

/-! ## Writes -/

def stage (write : StageWrite) : BackendM LifecycleState Unit := do
  let headKey := StorageKey.head write.index
  let prefixed := StorageKey.indexPrefix write.index
  let versionKey := StorageKey.version write.index write.version
  let stagingKey := StorageKey.staging write.index write.version
  let operationKey := StorageKey.operation write.index write.key
  let state ← get
  state.checkHead write.index headKey write.expectedHead
  state.refuseStaged write.index prefixed
  state.refuseStoredVersion write.index write.version versionKey
  state.refuseRecorded write.index write.key operationKey
  modify fun state => { state with versions := state.versions.insert versionKey write.payload }
  modify fun state => { state with staging := state.staging.insert stagingKey write.marker }

def publish (write : PublishWrite) : BackendM LifecycleState Unit := do
  let headKey := StorageKey.head write.index
  let versionKey := StorageKey.version write.index write.version
  let stagingKey := StorageKey.staging write.index write.version
  let operationKey := StorageKey.operation write.index write.key
  let state ← get
  state.checkHead write.index headKey write.expectedHead
  state.checkMarker write.index write.version stagingKey write.marker
  state.checkPayload write.index write.version versionKey
  state.refuseRecorded write.index write.key operationKey
  modify fun state => { state with heads := state.heads.insert headKey write.head }
  modify fun state =>
    { state with operations := state.operations.insert operationKey write.operation }
  modify fun state => { state with staging := state.staging.erase stagingKey }

def destroy (write : DestroyWrite) : BackendM LifecycleState Unit := do
  let headKey := StorageKey.head write.index
  let prefixed := StorageKey.indexPrefix write.index
  let operationKey := StorageKey.operation write.index write.key
  let versionKeys := write.versions.map (StorageKey.version write.index)
  let state ← get
  state.checkHead write.index headKey (some write.expectedHead)
  state.refuseStaged write.index prefixed
  state.refuseRecorded write.index write.key operationKey
  modify fun state => { state with heads := state.heads.insert headKey write.head }
  modify fun state =>
    { state with operations := state.operations.insert operationKey write.operation }
  modify fun state => { state with
    versions := versionKeys.foldl (fun versions key => versions.erase key) state.versions }

def quarantine (write : QuarantineWrite) : BackendM LifecycleState Unit := do
  let versionKey := StorageKey.version write.index write.version
  let stagingKey := StorageKey.staging write.index write.version
  let state ← get
  state.checkMarker write.index write.version stagingKey write.marker
  let sequence ← state.nextSequence
  let payload := state.versions[versionKey]?
  modify fun state => { state with versions := state.versions.erase versionKey }
  modify fun state => { state with staging := state.staging.erase stagingKey }
  modify fun state => { state with
    quarantine := state.quarantine ++ [{
      sequence, index := write.index, version := write.version, marker := write.marker, payload }] }

/-! ## Listings -/

def listHeads : BackendM LifecycleState (List (IndexIdentity × Bytes)) := do
  let heads := (← get).heads.toList
  let parsed : Except HeuremaError (List (IndexIdentity × Bytes)) :=
    heads.mapM fun (key, head) => do return (← StorageKey.parseHead key.asBytes, head)
  parsed

def listStaged : BackendM LifecycleState (List StagedEntry) := do
  let staged := (← get).staging.toList
  let parsed : Except HeuremaError (List StagedEntry) := staged.mapM fun (key, marker) => do
    let (index, version) ← StorageKey.parseStaging key.asBytes
    return { index, version, marker }
  parsed

def listOperations (index : IndexIdentity) :
    BackendM LifecycleState (List (OperationKey × Bytes)) := do
  let prefixed := StorageKey.indexPrefix index
  let operations := (LifecycleState.range (← get).operations prefixed).takeWhile fun entry =>
    prefixed.isPrefixOf entry.1
  let parsed : Except HeuremaError (List (OperationKey × Bytes)) :=
    operations.mapM fun (key, operation) => do
      let (_, key) ← StorageKey.parseOperation key.asBytes
      return (key, operation)
  parsed

def listQuarantined : BackendM LifecycleState (List QuarantinedEntry) := do
  return (← get).quarantine

instance : LifecycleBackend LifecycleState where
  readHead := readHead
  readVersion := readVersion
  readOperation := readOperation
  readStaging := readStaging
  stage := stage
  publish := publish
  destroy := destroy
  quarantine := quarantine
  listHeads := listHeads
  listStaged := listStaged
  listOperations := listOperations
  listQuarantined := listQuarantined

/-! ## The contract -/

/-- What the maps store. -/
structure Represents (state : LifecycleState) (store : Store) : Prop where
  heads : Keyed StorageKey.head state.heads store.heads
  versions : Keyed StorageKey.versionAt state.versions store.payloads
  staging : Keyed StorageKey.versionAt state.staging store.markers
  operations : Keyed StorageKey.operationAt state.operations store.records
  quarantined : state.quarantine = store.quarantined

namespace Represents

open LifecycleState StorageKey

variable {state : LifecycleState} {store : Store} {index : IndexIdentity}

omit [Unicode] in
theorem empty : Represents .empty .empty where
  heads := .empty
  versions := .empty
  staging := .empty
  operations := .empty
  quarantined := rfl

/-! ### Checks -/

omit [Unicode] in
theorem firstStaged (h : Represents state store) (index : IndexIdentity) :
    state.firstStaged (indexPrefix index) =
      (store.staged index).map fun staged => (StorageKey.version index staged.1, staged.2) := by
  obtain ⟨l, hl, hlists⟩ :=
    h.staging.scan versionAt_injective (p := indexPrefix index) (b := index) fun _ => prefix_iff
  obtain rfl := hlists.unique (store.lists_markers index)
  rw [LifecycleState.firstStaged, range, head?_filter,
    takeWhile_dropWhile_prefix (BTreeMap.toList_sorted _), hl]
  cases store.staged index <;> rfl

omit [Unicode] in
theorem checkHead (h : Represents state store) (index : IndexIdentity) (expected : Option Bytes) :
    state.checkHead index (head index) expected = store.checkHead index expected := by
  rw [LifecycleState.checkHead, Store.checkHead, h.heads.lookup]

theorem refuseStaged (h : Represents state store) (index : IndexIdentity) :
    state.refuseStaged index (indexPrefix index) = store.refuseStaged index := by
  rw [LifecycleState.refuseStaged, Store.refuseStaged, h.firstStaged]
  cases store.staged index with
  | none => rfl
  | some staged =>
    simp only [Option.map_some, parseStaging, parseVersion_version, Outcome.ok_bind]

omit [Unicode] in
theorem refuseStoredVersion (h : Represents state store) (index : IndexIdentity)
    (v : IndexVersion) : state.refuseStoredVersion index v (StorageKey.version index v) =
      store.refuseStoredVersion index v := by
  have hcontains := h.versions.contains (index, v)
  rw [versionAt] at hcontains
  rw [LifecycleState.refuseStoredVersion, Store.refuseStoredVersion, hcontains]

omit [Unicode] in
theorem checkMarker (h : Represents state store) (index : IndexIdentity) (v : IndexVersion)
    (marker : Bytes) : state.checkMarker index v (StorageKey.staging index v) marker =
      store.checkMarker index v marker := by
  have hlookup : state.staging[StorageKey.staging index v]? = _ := h.staging.lookup (index, v)
  rw [LifecycleState.checkMarker, Store.checkMarker, hlookup]

omit [Unicode] in
theorem checkPayload (h : Represents state store) (index : IndexIdentity) (v : IndexVersion) :
    state.checkPayload index v (StorageKey.version index v) = store.checkPayload index v := by
  have hcontains := h.versions.contains (index, v)
  rw [versionAt] at hcontains
  rw [LifecycleState.checkPayload, Store.checkPayload, hcontains]

omit [Unicode] in
theorem refuseRecorded (h : Represents state store) (index : IndexIdentity) (key : OperationKey) :
    state.refuseRecorded index key (operation index key) = store.refuseRecorded index key := by
  have hcontains := h.operations.contains (index, key)
  rw [operationAt] at hcontains
  rw [LifecycleState.refuseRecorded, Store.refuseRecorded, hcontains]

omit [Unicode] in
theorem nextSequence (h : Represents state store) : state.nextSequence = store.nextSequence := by
  rw [LifecycleState.nextSequence, h.quarantined]
  rfl

/-! ### Writes -/

open Locked (run_check run_get_bind)

theorem stage_run (h : Represents state store) (write : StageWrite) :
    (stage write).run state = match store.check (.stage write) with
      | .ok () => (.ok (), { state with
          versions := state.versions.insert (versionAt (write.index, write.version)) write.payload
          staging := state.staging.insert (versionAt (write.index, write.version)) write.marker })
      | .error refusal => (.error refusal, state) := by
  simp only [stage, run_get_bind, run_check, h.checkHead, h.refuseStaged, h.refuseStoredVersion,
    h.refuseRecorded, Store.check]
  cases store.checkHead write.index write.expectedHead with
  | error refusal => rfl
  | ok _ =>
    cases store.refuseStaged write.index with
    | error refusal => rfl
    | ok _ =>
      cases store.refuseStoredVersion write.index write.version with
      | error refusal => rfl
      | ok _ => cases store.refuseRecorded write.index write.key <;> rfl

omit [Unicode] in
theorem publish_run (h : Represents state store) (write : PublishWrite) :
    (publish write).run state = match store.check (.publish write) with
      | .ok () => (.ok (), { state with
          heads := state.heads.insert (head write.index) write.head
          operations := state.operations.insert (operationAt (write.index, write.key))
            write.operation
          staging := state.staging.erase (versionAt (write.index, write.version)) })
      | .error refusal => (.error refusal, state) := by
  simp only [publish, run_get_bind, run_check, h.checkHead, h.checkMarker, h.checkPayload,
    h.refuseRecorded, Store.check]
  cases store.checkHead write.index write.expectedHead with
  | error refusal => rfl
  | ok _ =>
    cases store.checkMarker write.index write.version write.marker with
    | error refusal => rfl
    | ok _ =>
      cases store.checkPayload write.index write.version with
      | error refusal => rfl
      | ok _ => cases store.refuseRecorded write.index write.key <;> rfl

theorem destroy_run (h : Represents state store) (write : DestroyWrite) :
    (destroy write).run state = match store.check (.destroy write) with
      | .ok () => (.ok (), { state with
          heads := state.heads.insert (head write.index) write.head
          operations := state.operations.insert (operationAt (write.index, write.key))
            write.operation
          versions := (write.versions.map fun v => (write.index, v)).foldl
            (fun versions place => versions.erase (versionAt place)) state.versions })
      | .error refusal => (.error refusal, state) := by
  simp only [destroy, run_get_bind, run_check, h.checkHead, h.refuseStaged, h.refuseRecorded,
    Store.check, List.foldl_map]
  cases store.checkHead write.index (some write.expectedHead) with
  | error refusal => rfl
  | ok _ =>
    cases store.refuseStaged write.index with
    | error refusal => rfl
    | ok _ => cases store.refuseRecorded write.index write.key <;> rfl

omit [Unicode] in
theorem quarantine_run (h : Represents state store) (write : QuarantineWrite) :
    (quarantine write).run state = match store.check (.quarantine write) with
      | .ok () => (.ok (), {
          state with
          versions := state.versions.erase (versionAt (write.index, write.version))
          staging := state.staging.erase (versionAt (write.index, write.version))
          quarantine := state.quarantine ++ [{
            sequence := store.sequence
            index := write.index
            version := write.version
            marker := write.marker
            payload := state.versions[versionAt (write.index, write.version)]? }] })
      | .error refusal => (.error refusal, state) := by
  simp only [quarantine, run_get_bind, run_check, h.checkMarker, h.nextSequence, Store.check]
  cases store.checkMarker write.index write.version write.marker with
  | error refusal => rfl
  | ok _ =>
    cases hsequence : store.nextSequence with
    | error refusal => rfl
    | ok sequence =>
      obtain rfl := store.nextSequence_eq_ok hsequence
      rfl

/-! ### Changes -/

omit [Unicode] in
theorem stage_store (h : Represents state store) {write : StageWrite}
    (hcheck : store.check (.stage write) = .ok ()) :
    Represents { state with
      versions := state.versions.insert (versionAt (write.index, write.version)) write.payload
      staging := state.staging.insert (versionAt (write.index, write.version)) write.marker }
      (store.commit (.stage write)) where
  heads := h.heads
  versions := h.versions.insert versionAt_injective _ _
  staging := by
    rw [Store.markers_stage (Store.staged_of_check hcheck) rfl]
    exact h.staging.insert versionAt_injective _ _
  operations := h.operations
  quarantined := h.quarantined

omit [Unicode] in
theorem publish_store (h : Represents state store) {write : PublishWrite}
    (hcheck : store.check (.publish write) = .ok ()) :
    Represents { state with
      heads := state.heads.insert (head write.index) write.head
      operations := state.operations.insert (operationAt (write.index, write.key)) write.operation
      staging := state.staging.erase (versionAt (write.index, write.version)) }
      (store.commit (.publish write)) where
  heads := h.heads.insert head_injective _ _
  versions := h.versions
  staging := by
    rw [Store.markers_clear (Store.marker_of_publish hcheck) rfl]
    exact h.staging.erase versionAt_injective _
  operations := h.operations.insert operationAt_injective _ _
  quarantined := h.quarantined

omit [Unicode] in
theorem destroy_store (h : Represents state store) (write : DestroyWrite) :
    Represents { state with
      heads := state.heads.insert (head write.index) write.head
      operations := state.operations.insert (operationAt (write.index, write.key)) write.operation
      versions := (write.versions.map fun v => (write.index, v)).foldl
        (fun versions place => versions.erase (versionAt place)) state.versions }
      (store.commit (.destroy write)) where
  heads := h.heads.insert head_injective _ _
  versions := by
    refine (h.versions.eraseAll versionAt_injective _).congr fun place => ?_
    obtain ⟨index, v⟩ := place
    simp [Store.commit, eq_comm, and_comm]
  staging := h.staging
  operations := h.operations.insert operationAt_injective _ _
  quarantined := h.quarantined

omit [Unicode] in
theorem quarantine_store (h : Represents state store) {write : QuarantineWrite}
    (hcheck : store.check (.quarantine write) = .ok ()) :
    Represents { state with
      versions := state.versions.erase (versionAt (write.index, write.version))
      staging := state.staging.erase (versionAt (write.index, write.version))
      quarantine := state.quarantine ++ [{
        sequence := store.sequence
        index := write.index
        version := write.version
        marker := write.marker
        payload := state.versions[versionAt (write.index, write.version)]? }] }
      (store.commit (.quarantine write)) where
  heads := h.heads
  versions := h.versions.erase versionAt_injective _
  staging := by
    rw [Store.markers_clear (Store.marker_of_quarantine hcheck) rfl]
    exact h.staging.erase versionAt_injective _
  operations := h.operations
  quarantined := by
    rw [Store.commit, h.quarantined, h.versions.lookup]

/-! ### Listings -/

theorem readStaging_run (h : Represents state store) (index : IndexIdentity) :
    (readStaging index).run state = (.ok (store.staged index), state) := by
  simp only [readStaging, run_get_bind, h.firstStaged]
  cases store.staged index with
  | none => rfl
  | some staged =>
    simp only [Option.map_some, run_check, parseStaging, parseVersion_version]
    rfl

theorem listHeads_run (h : Represents state store) :
    ∃ reply, listHeads.run state = (.ok reply, state) ∧ Listing head store.heads reply := by
  obtain ⟨l, hl, hlists⟩ := h.heads.lists head_injective
  refine ⟨l, ?_, hlists⟩
  have hparse (entry : IndexIdentity × Bytes) : (do
      return (← parseHead (head entry.1).asBytes, entry.2) : Except HeuremaError _) =
      .ok entry := by
    rw [parseHead_head]
    rfl
  simp only [listHeads, run_get_bind, hl]
  rw [Outcome.mapM_map_of_ok hparse, List.map_id']
  rfl

theorem listStaged_run (h : Represents state store) :
    ∃ reply, listStaged.run state = (.ok reply, state) ∧ Listing versionAt store.markers
      (reply.map fun entry => ((entry.index, entry.version), entry.marker)) := by
  obtain ⟨l, hl, hlists⟩ := h.staging.lists versionAt_injective
  refine ⟨l.map fun entry => ⟨entry.1.1, entry.1.2, entry.2⟩, ?_, ?_⟩
  · have hparse (entry : (IndexIdentity × IndexVersion) × Bytes) : (do
        let (index, version) ← parseStaging (versionAt entry.1).asBytes
        return { index, version, marker := entry.2 } : Except HeuremaError StagedEntry) =
        .ok ⟨entry.1.1, entry.1.2, entry.2⟩ := by
      rw [versionAt, parseStaging, parseVersion_version]
      rfl
    simp only [listStaged, run_get_bind, hl]
    rw [Outcome.mapM_map_of_ok hparse]
    rfl
  · rwa [List.map_map, show ((fun entry : StagedEntry => ((entry.index, entry.version),
      entry.marker)) ∘ fun entry : (IndexIdentity × IndexVersion) × Bytes =>
        StagedEntry.mk entry.1.1 entry.1.2 entry.2) = id from rfl, List.map_id]

theorem listOperations_run (h : Represents state store) (index : IndexIdentity) :
    ∃ reply, (listOperations index).run state = (.ok reply, state) ∧
      Listing (operation index) (fun key => store.records (index, key)) reply := by
  obtain ⟨l, hl, hlists⟩ :=
    h.operations.scan operationAt_injective (p := indexPrefix index) (b := index) fun _ => prefix_iff
  refine ⟨l, ?_, hlists⟩
  have hparse (entry : OperationKey × Bytes) : (do
      let (_, key) ← parseOperation (operationAt (index, entry.1)).asBytes
      return (key, entry.2) : Except HeuremaError (OperationKey × Bytes)) = .ok entry := by
    rw [operationAt, parseOperation_operation]
    rfl
  have hrange := takeWhile_dropWhile_prefix (p := indexPrefix index)
    (BTreeMap.toList_sorted state.operations)
  simp only [listOperations, run_get_bind, range]
  rw [hrange, hl, Outcome.mapM_map_of_ok hparse, List.map_id']
  rfl

end Represents

/-- The adapter keeps the contract, and stores values of any size. -/
theorem adapter : Adapter LifecycleState none Represents where
  read {state store} h call hread := by
    cases call with
    | readHead index => exact ⟨_, rfl, h.heads.lookup index⟩
    | readVersion index v => exact ⟨_, rfl, h.versions.lookup (index, v)⟩
    | readOperation index key => exact ⟨_, rfl, h.operations.lookup (index, key)⟩
    | readStaging index => exact ⟨_, h.readStaging_run index, rfl⟩
    | write write => exact absurd rfl (hread write)
    | listHeads => exact h.listHeads_run
    | listStaged => exact h.listStaged_run
    | listOperations index => exact h.listOperations_run index
    | listQuarantined => exact ⟨_, rfl, h.quarantined⟩
  refused {state store} h {write refusal} hrefused := by
    rw [Store.admits, refuseOversized_none] at hrefused
    have hcheck : store.check write = .error refusal := hrefused
    cases write with
    | stage write => exact (h.stage_run write).trans (by rw [hcheck])
    | publish write => exact (h.publish_run write).trans (by rw [hcheck])
    | destroy write => exact (h.destroy_run write).trans (by rw [hcheck])
    | quarantine write => exact (h.quarantine_run write).trans (by rw [hcheck])
  admitted {state store} h {write} hadmitted := by
    rw [Store.admits, refuseOversized_none] at hadmitted
    have hcheck : store.check write = .ok () := hadmitted
    cases write with
    | stage write => exact ⟨_, (h.stage_run write).trans (by rw [hcheck]), h.stage_store hcheck⟩
    | publish write =>
      exact ⟨_, (h.publish_run write).trans (by rw [hcheck]), h.publish_store hcheck⟩
    | destroy write =>
      exact ⟨_, (h.destroy_run write).trans (by rw [hcheck]), h.destroy_store write⟩
    | quarantine write =>
      exact ⟨_, (h.quarantine_run write).trans (by rw [hcheck]), h.quarantine_store hcheck⟩

end Heurema.Atmis
