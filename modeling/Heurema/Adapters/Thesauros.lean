import Heurema.Lifecycle.Backend

/-! # The durable adapter

Five keyspaces of one database, keyed by the bytes of storage keys. A write checks a
snapshot under the commit lock and then commits one batch, so it takes effect whole or not
at all. Quarantine keeps the marker and the payload of an entry under two keys, which a
listing pairs again by their order. -/

namespace Heurema.Thesauros

open StorageKey (QuarantinePart)

/-- A keyspace: a map in the order of the bytes of its keys. -/
abbrev Keyspace := BTreeMap Bytes Bytes

/-- The five lifecycle keyspaces. -/
structure LifecycleKeyspaces where
  heads : Keyspace
  versions : Keyspace
  staging : Keyspace
  operations : Keyspace
  quarantine : Keyspace

/-- The backend: its keyspaces, and the largest value that a write stores. -/
structure ThesaurosBackend where
  lifecycle : LifecycleKeyspaces
  valueLimit : Nat

/-- The largest value the database stores: `u32::MAX` bytes. -/
def MAX_VALUE_LEN : Nat := UInt32.size - 1

/-! ## Batches -/

/-- One of the lifecycle keyspaces. -/
inductive Target where
  | heads
  | versions
  | staging
  | operations
  | quarantine
deriving DecidableEq

/-- An entry of a write batch. -/
inductive Item where
  | insert (target : Target) (key : Str) (value : Bytes)
  | remove (target : Target) (key : Str)

namespace LifecycleKeyspaces

def modify (keyspaces : LifecycleKeyspaces) (change : Keyspace → Keyspace) :
    Target → LifecycleKeyspaces
  | .heads => { keyspaces with heads := change keyspaces.heads }
  | .versions => { keyspaces with versions := change keyspaces.versions }
  | .staging => { keyspaces with staging := change keyspaces.staging }
  | .operations => { keyspaces with operations := change keyspaces.operations }
  | .quarantine => { keyspaces with quarantine := change keyspaces.quarantine }

def apply (keyspaces : LifecycleKeyspaces) : Item → LifecycleKeyspaces
  | .insert target key value =>
    keyspaces.modify (fun keyspace => keyspace.insert key.asBytes value) target
  | .remove target key => keyspaces.modify (fun keyspace => keyspace.erase key.asBytes) target

/-! ## Reads of a snapshot -/

def get (keyspace : Keyspace) (key : Str) : Option Bytes := keyspace[key.asBytes]?

def contains (keyspace : Keyspace) (key : Str) : Bool := keyspace.contains key.asBytes

/-- The entries whose keys start with a prefix, in order. -/
def scan (keyspace : Keyspace) (start : Str) : List (Bytes × Bytes) :=
  keyspace.toList.filter fun entry => start.asBytes.isPrefixOf entry.1

/-- The first staging marker among the keys that start with a prefix. -/
def firstStaged [Unicode] (snapshot : LifecycleKeyspaces) (start : Str) :
    Except HeuremaError (Option (IndexVersion × Bytes)) :=
  match (scan snapshot.staging start).head? with
  | none => .ok none
  | some (key, marker) => do
    let (_, version) ← StorageKey.parseStaging key
    return some (version, marker)

def checkHead (snapshot : LifecycleKeyspaces) (index : IndexIdentity) (headKey : Str)
    (expected : Option Bytes) : Except HeuremaError Unit :=
  if get snapshot.heads headKey = expected then .ok () else .error (.headChanged index)

def refuseStaged [Unicode] (snapshot : LifecycleKeyspaces) (index : IndexIdentity)
    (start : Str) : Except HeuremaError Unit := do
  match ← snapshot.firstStaged start with
  | none => .ok ()
  | some (version, _) => .error (.stagedStateExists index version)

def refuseStoredVersion (snapshot : LifecycleKeyspaces) (index : IndexIdentity)
    (version : IndexVersion) (versionKey : Str) : Except HeuremaError Unit :=
  if contains snapshot.versions versionKey then .error (.versionStored index version)
  else .ok ()

def checkMarker (snapshot : LifecycleKeyspaces) (index : IndexIdentity)
    (version : IndexVersion) (stagingKey : Str) (marker : Bytes) : Except HeuremaError Unit :=
  if get snapshot.staging stagingKey = some marker then .ok ()
  else .error (.stagedStateMissing index version)

def checkPayload (snapshot : LifecycleKeyspaces) (index : IndexIdentity)
    (version : IndexVersion) (versionKey : Str) : Except HeuremaError Unit :=
  if contains snapshot.versions versionKey then .ok ()
  else .error (.stagedStateMissing index version)

def refuseRecorded (snapshot : LifecycleKeyspaces) (index : IndexIdentity)
    (key : OperationKey) (operationKey : Str) : Except HeuremaError Unit :=
  if contains snapshot.operations operationKey then .error (.operationRecorded index key)
  else .ok ()

/-- The number after that of the last key. -/
def nextSequence [Unicode] (snapshot : LifecycleKeyspaces) : Except HeuremaError Nat :=
  match snapshot.quarantine.toList.getLast? with
  | none => .ok QuarantinedEntry.FIRST_SEQUENCE
  | some (key, _) => do
    let (last, _) ← StorageKey.parseQuarantine key
    QuarantinedEntry.following last.1

end LifecycleKeyspaces

namespace ThesaurosBackend

/-- A database without lifecycle state. -/
def empty (valueLimit : Nat) : ThesaurosBackend where
  lifecycle := ⟨∅, ∅, ∅, ∅, ∅⟩
  valueLimit := valueLimit

/-- `ThesaurosBackend::open` of a new path. -/
def new : ThesaurosBackend := empty MAX_VALUE_LEN

def refuseOversized (backend : ThesaurosBackend) (what : String) (len : Nat) :
    Except HeuremaError Unit :=
  if len > backend.valueLimit then
    .error (.persistence (.oversizedValue what len backend.valueLimit))
  else .ok ()

/-- A batch takes effect item by item, all at once. -/
def commit (backend : ThesaurosBackend) (batch : List Item) : ThesaurosBackend :=
  { backend with lifecycle := batch.foldl LifecycleKeyspaces.apply backend.lifecycle }

end ThesaurosBackend

variable [Unicode]

/-! ## Reads -/

def readHead (index : IndexIdentity) : BackendM ThesaurosBackend (Option Bytes) := do
  let key := StorageKey.head index
  return LifecycleKeyspaces.get (← get).lifecycle.heads key

def readVersion (index : IndexIdentity) (version : IndexVersion) :
    BackendM ThesaurosBackend (Option Bytes) := do
  let key := StorageKey.version index version
  return LifecycleKeyspaces.get (← get).lifecycle.versions key

def readOperation (index : IndexIdentity) (key : OperationKey) :
    BackendM ThesaurosBackend (Option Bytes) := do
  let key := StorageKey.operation index key
  return LifecycleKeyspaces.get (← get).lifecycle.operations key

def readStaging (index : IndexIdentity) :
    BackendM ThesaurosBackend (Option (IndexVersion × Bytes)) := do
  let start := StorageKey.indexPrefix index
  (← get).lifecycle.firstStaged start

/-! ## Writes -/

def stage (write : StageWrite) : BackendM ThesaurosBackend Unit := do
  let headKey := StorageKey.head write.index
  let start := StorageKey.indexPrefix write.index
  let versionKey := StorageKey.version write.index write.version
  let stagingKey := StorageKey.staging write.index write.version
  let operationKey := StorageKey.operation write.index write.key
  let backend ← get
  backend.refuseOversized "a version payload" write.payload.length
  backend.refuseOversized "a staging marker" write.marker.length
  -- What the publish of this stage writes.
  backend.refuseOversized "a head record" write.headLen
  backend.refuseOversized "an operation record" write.operationLen
  let snapshot := backend.lifecycle
  snapshot.checkHead write.index headKey write.expectedHead
  snapshot.refuseStaged write.index start
  snapshot.refuseStoredVersion write.index write.version versionKey
  snapshot.refuseRecorded write.index write.key operationKey
  modify fun backend => backend.commit [
    .insert .versions versionKey write.payload,
    .insert .staging stagingKey write.marker]

def publish (write : PublishWrite) : BackendM ThesaurosBackend Unit := do
  let headKey := StorageKey.head write.index
  let versionKey := StorageKey.version write.index write.version
  let stagingKey := StorageKey.staging write.index write.version
  let operationKey := StorageKey.operation write.index write.key
  let backend ← get
  backend.refuseOversized "a head record" write.head.length
  backend.refuseOversized "an operation record" write.operation.length
  let snapshot := backend.lifecycle
  snapshot.checkHead write.index headKey write.expectedHead
  snapshot.checkMarker write.index write.version stagingKey write.marker
  snapshot.checkPayload write.index write.version versionKey
  snapshot.refuseRecorded write.index write.key operationKey
  modify fun backend => backend.commit [
    .insert .heads headKey write.head,
    .insert .operations operationKey write.operation,
    .remove .staging stagingKey]

def destroy (write : DestroyWrite) : BackendM ThesaurosBackend Unit := do
  let headKey := StorageKey.head write.index
  let start := StorageKey.indexPrefix write.index
  let operationKey := StorageKey.operation write.index write.key
  let backend ← get
  backend.refuseOversized "a head record" write.head.length
  backend.refuseOversized "an operation record" write.operation.length
  let snapshot := backend.lifecycle
  snapshot.checkHead write.index headKey (some write.expectedHead)
  snapshot.refuseStaged write.index start
  snapshot.refuseRecorded write.index write.key operationKey
  let batch := [.insert .heads headKey write.head,
    .insert .operations operationKey write.operation]
  let removals := write.versions.map fun version =>
    .remove .versions (StorageKey.version write.index version)
  modify fun backend => backend.commit (batch ++ removals)

def quarantine (write : QuarantineWrite) : BackendM ThesaurosBackend Unit := do
  let versionKey := StorageKey.version write.index write.version
  let stagingKey := StorageKey.staging write.index write.version
  let backend ← get
  backend.refuseOversized "a staging marker" write.marker.length
  let snapshot := backend.lifecycle
  snapshot.checkMarker write.index write.version stagingKey write.marker
  let payload := LifecycleKeyspaces.get snapshot.versions versionKey
  let sequence ← snapshot.nextSequence
  let marker : List Item := [.insert .quarantine
    (StorageKey.quarantine sequence write.index write.version .marker) write.marker]
  let payload := payload.toList.map fun payload => .insert .quarantine
    (StorageKey.quarantine sequence write.index write.version .payload) payload
  modify fun backend => backend.commit (marker ++ payload ++ [
    .remove .staging stagingKey,
    .remove .versions versionKey])

/-! ## Listings -/

def listHeads : BackendM ThesaurosBackend (List (IndexIdentity × Bytes)) := do
  let heads := (← get).lifecycle.heads.toList
  let parsed : Except HeuremaError (List (IndexIdentity × Bytes)) :=
    heads.mapM fun (key, head) => do return (← StorageKey.parseHead key, head)
  parsed

def listStaged : BackendM ThesaurosBackend (List StagedEntry) := do
  let staged := (← get).lifecycle.staging.toList
  let parsed : Except HeuremaError (List StagedEntry) := staged.mapM fun (key, marker) => do
    let (index, version) ← StorageKey.parseStaging key
    return { index, version, marker }
  parsed

def listOperations (index : IndexIdentity) :
    BackendM ThesaurosBackend (List (OperationKey × Bytes)) := do
  let start := StorageKey.indexPrefix index
  let operations := LifecycleKeyspaces.scan (← get).lifecycle.operations start
  let parsed : Except HeuremaError (List (OperationKey × Bytes)) :=
    operations.mapM fun (key, operation) => do
      let (_, key) ← StorageKey.parseOperation key
      return (key, operation)
  parsed

/-- A half of a quarantine entry that does not pair with its marker. -/
def unpaired (sequence : Nat) : HeuremaError :=
  .corruptSnapshot (.unpairedQuarantineEntry sequence "holds a payload without its marker")

/-- Adds one half to the entries before it: a marker starts an entry, and a payload completes
the entry before it. -/
def pair (entries : List QuarantinedEntry) (half : Bytes × Bytes) :
    Except HeuremaError (List QuarantinedEntry) := do
  let (sequence, index, version, part) ← StorageKey.parseQuarantine half.1
  match part with
  | .marker =>
    return entries ++ [{
      sequence := sequence.1, index, version, marker := half.2, payload := none }]
  | .payload =>
    match entries.getLast? with
    | some entry =>
      if entry.sequence = sequence.1 ∧ entry.index = index ∧ entry.version = version ∧
          entry.payload.isNone then
        return entries.dropLast ++ [{ entry with payload := some half.2 }]
      else .error (unpaired sequence.1)
    | none => .error (unpaired sequence.1)

def listQuarantined : BackendM ThesaurosBackend (List QuarantinedEntry) := do
  let halves := (← get).lifecycle.quarantine.toList
  let entries : Except HeuremaError (List QuarantinedEntry) := halves.foldlM pair []
  entries

instance : LifecycleBackend ThesaurosBackend where
  readHead := readHead
  readVersion := readVersion
  readOperation := readOperation
  readStaging := readStaging
  stage := stage
  publish := publish
  destroy := destroy
  quarantine := quarantine
  listHeads := listHeads
  listStaged := listStaged
  listOperations := listOperations
  listQuarantined := listQuarantined

/-! ## Keys as bytes -/

/-- The bytes of the key of a head. -/
def headBytes (index : IndexIdentity) : Bytes := (StorageKey.head index).asBytes

/-- The bytes of the key of a version, by its place. -/
def versionBytes (place : IndexIdentity × IndexVersion) : Bytes :=
  (StorageKey.versionAt place).asBytes

/-- The bytes of the key of an operation record, by its place. -/
def operationBytes (place : IndexIdentity × OperationKey) : Bytes :=
  (StorageKey.operationAt place).asBytes

omit [Unicode] in
theorem headBytes_injective : Function.Injective headBytes := fun _ _ h =>
  StorageKey.head_injective (Str.asBytes_injective h)

omit [Unicode] in
theorem versionBytes_injective : Function.Injective versionBytes := fun _ _ h =>
  StorageKey.versionAt_injective (Str.asBytes_injective h)

omit [Unicode] in
theorem operationBytes_injective : Function.Injective operationBytes := fun _ _ h =>
  StorageKey.operationAt_injective (Str.asBytes_injective h)

omit [Unicode] in
theorem headBytes_lt_iff (index other : IndexIdentity) :
    headBytes index < headBytes other ↔ StorageKey.head index < StorageKey.head other :=
  Str.Ascii.asBytes_lt_iff (StorageKey.head_ascii index) (StorageKey.head_ascii other)

omit [Unicode] in
theorem versionBytes_lt_iff (place other : IndexIdentity × IndexVersion) :
    versionBytes place < versionBytes other ↔
      StorageKey.versionAt place < StorageKey.versionAt other :=
  Str.Ascii.asBytes_lt_iff (StorageKey.version_ascii place.1 place.2)
    (StorageKey.version_ascii other.1 other.2)

omit [Unicode] in
theorem operationBytes_lt_iff (place other : IndexIdentity × OperationKey) :
    operationBytes place < operationBytes other ↔
      StorageKey.operationAt place < StorageKey.operationAt other :=
  Str.Ascii.asBytes_lt_iff (StorageKey.operation_ascii place.1 place.2)
    (StorageKey.operation_ascii other.1 other.2)

/-! ## The halves of quarantine -/

/-- The bytes of the key of one half of an entry. -/
def halfKey (entry : QuarantinedEntry) (part : QuarantinePart) : Bytes :=
  (StorageKey.quarantine entry.sequence entry.index entry.version part).asBytes

/-- What the keyspace holds for an entry. -/
def halves (entry : QuarantinedEntry) : List (Bytes × Bytes) :=
  (halfKey entry .marker, entry.marker) ::
    entry.payload.toList.map fun payload => (halfKey entry .payload, payload)

section Halves

variable {entry other : QuarantinedEntry} {part part' : QuarantinePart}

theorem parse_halfKey (hfits : entry.sequence < UInt64.size) :
    StorageKey.parseQuarantine (halfKey entry part) =
      .ok (⟨entry.sequence, hfits⟩, entry.index, entry.version, part) :=
  StorageKey.parseQuarantine_quarantine hfits entry.index entry.version part

omit [Unicode] in
theorem halfKey_lt (hentry : entry.sequence < UInt64.size) (hother : other.sequence < UInt64.size)
    (hlt : entry.sequence < other.sequence) : halfKey entry part < halfKey other part' :=
  (StorageKey.quarantine_bytes_lt_iff hentry hother).mpr (.inl hlt)

omit [Unicode] in
/-- The key of a half names the sequence of its entry. -/
theorem mem_halves {half : Bytes × Bytes} (hmem : half ∈ halves entry) :
    ∃ part, half.1 = halfKey entry part := by
  rcases List.mem_cons.mp hmem with rfl | hmem
  · exact ⟨.marker, rfl⟩
  · obtain ⟨payload, _, rfl⟩ := List.mem_map.mp hmem
    exact ⟨.payload, rfl⟩

/-- The halves of one entry make it up again. -/
theorem foldlM_halves_one (entries : List QuarantinedEntry)
    (hfits : entry.sequence < UInt64.size) :
    (halves entry).foldlM pair entries = .ok (entries ++ [entry]) := by
  obtain ⟨sequence, index, version, marker, payload⟩ := entry
  cases payload with
  | none =>
    simp only [halves, Option.toList_none, List.map_nil, List.foldlM_cons, List.foldlM_nil, pair,
      parse_halfKey hfits, Outcome.ok_bind, Outcome.pure_eq]
  | some payload =>
    simp only [halves, Option.toList_some, List.map_cons, List.map_nil, List.foldlM_cons,
      List.foldlM_nil, pair, parse_halfKey hfits, Outcome.ok_bind, Outcome.pure_eq]
    simp

/-- The halves of entries, in their order, make up the entries. -/
theorem foldlM_halves {l : List QuarantinedEntry} (hfits : ∀ entry ∈ l, entry.sequence < UInt64.size)
    (entries : List QuarantinedEntry) :
    (l.flatMap halves).foldlM pair entries = .ok (entries ++ l) := by
  induction l generalizing entries with
  | nil => simp
  | cons entry l ih =>
    obtain ⟨hentry, hl⟩ := List.forall_mem_cons.mp hfits
    rw [List.flatMap_cons, List.foldlM_append, foldlM_halves_one entries hentry, Outcome.ok_bind,
      ih hl]
    simp

end Halves

/-! ## The contract -/

/-- What the keyspaces store, under a limit on values. -/
structure Represents (limit : Nat) (backend : ThesaurosBackend) (store : Store) : Prop where
  valueLimit : backend.valueLimit = limit
  heads : Keyed headBytes backend.lifecycle.heads store.heads
  versions : Keyed versionBytes backend.lifecycle.versions store.payloads
  staging : Keyed versionBytes backend.lifecycle.staging store.markers
  operations : Keyed operationBytes backend.lifecycle.operations store.records
  quarantined : backend.lifecycle.quarantine.toList = store.quarantined.flatMap halves
  numbered : store.Numbered

namespace Represents

variable {limit : Nat} {backend : ThesaurosBackend} {store : Store} {index : IndexIdentity}

omit [Unicode] in
theorem empty (limit : Nat) : Represents limit (.empty limit) .empty where
  valueLimit := rfl
  heads := .empty
  versions := .empty
  staging := .empty
  operations := .empty
  quarantined := Std.ExtTreeMap.toList_eq_nil_iff.mpr rfl
  numbered := .empty

omit [Unicode] in
theorem entry_fits (h : Represents limit backend store) :
    ∀ entry ∈ store.quarantined, entry.sequence < UInt64.size := by
  intro entry hentry
  obtain ⟨_, hle⟩ := h.numbered.bounds hentry
  have hfits := h.numbered.fits
  omega

/-! ### Checks -/

omit [Unicode] in
/-- What a scan from the prefix of an index finds. -/
theorem scan_staging (h : Represents limit backend store) (index : IndexIdentity) :
    LifecycleKeyspaces.scan backend.lifecycle.staging (StorageKey.indexPrefix index) =
      (store.staged index).toList.map fun staged => (versionBytes (index, staged.1), staged.2) := by
  obtain ⟨l, hl, hlists⟩ := h.staging.scan versionBytes_injective
    (p := (StorageKey.indexPrefix index).asBytes) (b := index) fun place =>
      (StorageKey.prefix_bytes_iff Str.digits_padded.ascii).trans eq_comm
  obtain rfl := (hlists.reorder fun v w => versionBytes_lt_iff (index, v) (index, w)).unique
    (store.lists_markers index)
  exact hl

theorem firstStaged (h : Represents limit backend store) (index : IndexIdentity) :
    backend.lifecycle.firstStaged (StorageKey.indexPrefix index) = .ok (store.staged index) := by
  rw [LifecycleKeyspaces.firstStaged, h.scan_staging]
  cases store.staged index with
  | none => rfl
  | some staged =>
    simp only [Option.toList_some, List.map_cons, List.map_nil, List.head?_cons, versionBytes,
      StorageKey.versionAt, StorageKey.parseStaging, StorageKey.parseVersion_version,
      Outcome.ok_bind, Outcome.pure_eq]

omit [Unicode] in
theorem checkHead (h : Represents limit backend store) (index : IndexIdentity)
    (expected : Option Bytes) :
    backend.lifecycle.checkHead index (StorageKey.head index) expected =
      store.checkHead index expected := by
  have hlookup : LifecycleKeyspaces.get backend.lifecycle.heads (StorageKey.head index) = _ :=
    h.heads.lookup index
  rw [LifecycleKeyspaces.checkHead, Store.checkHead, hlookup]

theorem refuseStaged (h : Represents limit backend store) (index : IndexIdentity) :
    backend.lifecycle.refuseStaged index (StorageKey.indexPrefix index) =
      store.refuseStaged index := by
  cases hstaged : store.staged index <;>
    simp only [LifecycleKeyspaces.refuseStaged, Store.refuseStaged, h.firstStaged, hstaged,
      Outcome.ok_bind]

omit [Unicode] in
theorem refuseStoredVersion (h : Represents limit backend store) (index : IndexIdentity)
    (v : IndexVersion) :
    backend.lifecycle.refuseStoredVersion index v (StorageKey.version index v) =
      store.refuseStoredVersion index v := by
  have hcontains : LifecycleKeyspaces.contains backend.lifecycle.versions
      (StorageKey.version index v) = _ := h.versions.contains (index, v)
  rw [LifecycleKeyspaces.refuseStoredVersion, Store.refuseStoredVersion, hcontains]

omit [Unicode] in
theorem checkMarker (h : Represents limit backend store) (index : IndexIdentity)
    (v : IndexVersion) (marker : Bytes) :
    backend.lifecycle.checkMarker index v (StorageKey.staging index v) marker =
      store.checkMarker index v marker := by
  have hlookup : LifecycleKeyspaces.get backend.lifecycle.staging
      (StorageKey.staging index v) = _ := h.staging.lookup (index, v)
  rw [LifecycleKeyspaces.checkMarker, Store.checkMarker, hlookup]

omit [Unicode] in
theorem checkPayload (h : Represents limit backend store) (index : IndexIdentity)
    (v : IndexVersion) :
    backend.lifecycle.checkPayload index v (StorageKey.version index v) =
      store.checkPayload index v := by
  have hcontains : LifecycleKeyspaces.contains backend.lifecycle.versions
      (StorageKey.version index v) = _ := h.versions.contains (index, v)
  rw [LifecycleKeyspaces.checkPayload, Store.checkPayload, hcontains]

omit [Unicode] in
theorem refuseRecorded (h : Represents limit backend store) (index : IndexIdentity)
    (key : OperationKey) :
    backend.lifecycle.refuseRecorded index key (StorageKey.operation index key) =
      store.refuseRecorded index key := by
  have hcontains : LifecycleKeyspaces.contains backend.lifecycle.operations
      (StorageKey.operation index key) = _ := h.operations.contains (index, key)
  rw [LifecycleKeyspaces.refuseRecorded, Store.refuseRecorded, hcontains]

omit [Unicode] in
/-- The last key of quarantine is a half of the last entry. -/
theorem last_half (h : Represents limit backend store) :
    match store.quarantined.getLast? with
    | none => backend.lifecycle.quarantine.toList.getLast? = none
    | some last => ∃ part value,
        backend.lifecycle.quarantine.toList.getLast? = some (halfKey last part, value) := by
  rw [h.quarantined]
  cases hlast : store.quarantined.getLast? with
  | none =>
    rw [List.getLast?_eq_none_iff.mp hlast]
    rfl
  | some last =>
    obtain ⟨front, hfront⟩ := List.getLast?_eq_some_iff.mp hlast
    have hne : halves last ≠ [] := by simp [halves]
    obtain ⟨part, hpart⟩ := mem_halves (List.getLast_mem hne)
    refine ⟨part, ((halves last).getLast hne).2, ?_⟩
    rw [hfront, List.flatMap_append, List.flatMap_singleton, List.getLast?_append_of_ne_nil _ hne,
      List.getLast?_eq_some_getLast hne, ← hpart]

theorem nextSequence (h : Represents limit backend store) :
    backend.lifecycle.nextSequence = store.nextSequence := by
  have hhalf := h.last_half
  rw [LifecycleKeyspaces.nextSequence, Store.nextSequence]
  cases hlast : store.quarantined.getLast? with
  | none =>
    simp only [hlast] at hhalf
    rw [hhalf]
  | some last =>
    simp only [hlast] at hhalf
    obtain ⟨part, value, hhalf⟩ := hhalf
    have hfits := h.entry_fits last (List.mem_of_getLast? hlast)
    rw [hhalf]
    simp only [parse_halfKey hfits, Outcome.ok_bind]

omit [Unicode] in
theorem refuseOversized_nil (limit : Option Nat) : Heurema.refuseOversized limit [] = .ok () := rfl

omit [Unicode] in
theorem refuseOversized_cons (h : Represents limit backend store) (what : String) (len : Nat)
    (sizes : List (String × Nat)) : Heurema.refuseOversized (some limit) ((what, len) :: sizes) =
      (do
        backend.refuseOversized what len
        Heurema.refuseOversized (some limit) sizes) := by
  rw [Heurema.refuseOversized, ThesaurosBackend.refuseOversized, h.valueLimit]
  split <;> rfl

/-! ### Writes -/

open Locked (run_check run_checks run_check_modify run_get_bind)

theorem stage_run (h : Represents limit backend store) (write : StageWrite) :
    (stage write).run backend = Locked.guarded (store.admits (some limit) (.stage write)) backend
      (backend.commit [
        .insert .versions (StorageKey.version write.index write.version) write.payload,
        .insert .staging (StorageKey.staging write.index write.version) write.marker]) := by
  simp only [stage, run_get_bind, run_checks, h.checkHead, h.refuseStaged,
    h.refuseStoredVersion, h.refuseRecorded, Store.admits, Write.sizes, h.refuseOversized_cons,
    refuseOversized_nil, Store.check, bind_assoc, Outcome.ok_bind]
  exact run_check_modify _ _ _

omit [Unicode] in
theorem publish_run (h : Represents limit backend store) (write : PublishWrite) :
    (publish write).run backend =
      Locked.guarded (store.admits (some limit) (.publish write)) backend (backend.commit [
        .insert .heads (StorageKey.head write.index) write.head,
        .insert .operations (StorageKey.operation write.index write.key) write.operation,
        .remove .staging (StorageKey.staging write.index write.version)]) := by
  simp only [publish, run_get_bind, run_checks, h.checkHead, h.checkMarker, h.checkPayload,
    h.refuseRecorded, Store.admits, Write.sizes, h.refuseOversized_cons,
    refuseOversized_nil, Store.check, bind_assoc, Outcome.ok_bind]
  exact run_check_modify _ _ _

theorem destroy_run (h : Represents limit backend store) (write : DestroyWrite) :
    (destroy write).run backend =
      Locked.guarded (store.admits (some limit) (.destroy write)) backend (backend.commit ([
        .insert .heads (StorageKey.head write.index) write.head,
        .insert .operations (StorageKey.operation write.index write.key) write.operation] ++
        write.versions.map fun version =>
          .remove .versions (StorageKey.version write.index version))) := by
  simp only [destroy, run_get_bind, run_checks, h.checkHead, h.refuseStaged,
    h.refuseRecorded, Store.admits, Write.sizes, h.refuseOversized_cons,
    refuseOversized_nil, Store.check, bind_assoc, Outcome.ok_bind]
  exact run_check_modify _ _ _

/-- The items of a quarantine, with the number it takes. -/
def quarantineBatch (sequence : Nat) (write : QuarantineWrite) (payload : Option Bytes) :
    List Item :=
  [.insert .quarantine
    (StorageKey.quarantine sequence write.index write.version .marker) write.marker] ++
  (payload.toList.map fun payload => .insert .quarantine
    (StorageKey.quarantine sequence write.index write.version .payload) payload) ++ [
  .remove .staging (StorageKey.staging write.index write.version),
  .remove .versions (StorageKey.version write.index write.version)]

theorem quarantine_run (h : Represents limit backend store) (write : QuarantineWrite) :
    (quarantine write).run backend =
      Locked.guarded (store.admits (some limit) (.quarantine write)) backend (backend.commit
        (quarantineBatch store.sequence write (store.payloads (write.index, write.version)))) := by
  have hpayload : LifecycleKeyspaces.get backend.lifecycle.versions
      (StorageKey.version write.index write.version) = _ :=
    h.versions.lookup (write.index, write.version)
  simp only [quarantine, run_get_bind, run_check, h.checkMarker, h.nextSequence, hpayload,
    Store.admits, Write.sizes, h.refuseOversized_cons, refuseOversized_nil, Store.check]
  cases backend.refuseOversized "a staging marker" write.marker.length with
  | error refusal => rfl
  | ok _ =>
    cases store.checkMarker write.index write.version write.marker with
    | error refusal => rfl
    | ok _ =>
      cases hsequence : store.nextSequence with
      | error refusal => rfl
      | ok sequence =>
        obtain rfl := store.nextSequence_eq_ok hsequence
        rfl

/-! ### Changes -/

section Batches

omit [Unicode]

theorem apply_insert (keyspaces : LifecycleKeyspaces) (target : Target) (key : Str) (value : Bytes) :
    keyspaces.apply (.insert target key value) =
      keyspaces.modify (fun keyspace => keyspace.insert key.asBytes value) target := rfl

theorem apply_remove (keyspaces : LifecycleKeyspaces) (target : Target) (key : Str) :
    keyspaces.apply (.remove target key) =
      keyspaces.modify (fun keyspace => keyspace.erase key.asBytes) target := rfl

theorem stage_store (h : Represents limit backend store) {write : StageWrite}
    (hcheck : store.check (.stage write) = .ok ()) :
    Represents limit (backend.commit [
      .insert .versions (StorageKey.version write.index write.version) write.payload,
      .insert .staging (StorageKey.staging write.index write.version) write.marker])
      (store.commit (.stage write)) := by
  simp only [ThesaurosBackend.commit, List.foldl_cons, List.foldl_nil, apply_insert,
    LifecycleKeyspaces.modify]
  exact {
    valueLimit := h.valueLimit
    heads := h.heads
    versions := h.versions.insert versionBytes_injective (write.index, write.version) _
    staging := by
      rw [Store.markers_stage (Store.staged_of_check hcheck) rfl]
      exact h.staging.insert versionBytes_injective (write.index, write.version) _
    operations := h.operations
    quarantined := h.quarantined
    numbered := h.numbered.commit hcheck }

theorem publish_store (h : Represents limit backend store) {write : PublishWrite}
    (hcheck : store.check (.publish write) = .ok ()) :
    Represents limit (backend.commit [
      .insert .heads (StorageKey.head write.index) write.head,
      .insert .operations (StorageKey.operation write.index write.key) write.operation,
      .remove .staging (StorageKey.staging write.index write.version)])
      (store.commit (.publish write)) := by
  simp only [ThesaurosBackend.commit, List.foldl_cons, List.foldl_nil, apply_insert,
    apply_remove, LifecycleKeyspaces.modify]
  exact {
    valueLimit := h.valueLimit
    heads := h.heads.insert headBytes_injective write.index _
    versions := h.versions
    staging := by
      rw [Store.markers_clear (Store.marker_of_publish hcheck) rfl]
      exact h.staging.erase versionBytes_injective (write.index, write.version)
    operations := h.operations.insert operationBytes_injective (write.index, write.key) _
    quarantined := h.quarantined
    numbered := h.numbered.commit hcheck }

/-- A batch of removals of versions of an index. -/
theorem foldl_removals (index : IndexIdentity) (versions : List IndexVersion)
    (keyspaces : LifecycleKeyspaces) :
    (versions.map fun version => Item.remove .versions (StorageKey.version index version)).foldl
        LifecycleKeyspaces.apply keyspaces =
      { keyspaces with
        versions := (versions.map fun version => (index, version)).foldl
          (fun keyspace place => keyspace.erase (versionBytes place)) keyspaces.versions } := by
  induction versions generalizing keyspaces with
  | nil => rfl
  | cons version versions ih =>
    rw [List.map_cons, List.map_cons, List.foldl_cons, List.foldl_cons, ih, apply_remove]
    rfl

theorem destroy_store (h : Represents limit backend store) {write : DestroyWrite}
    (hcheck : store.check (.destroy write) = .ok ()) :
    Represents limit (backend.commit ([
      .insert .heads (StorageKey.head write.index) write.head,
      .insert .operations (StorageKey.operation write.index write.key) write.operation] ++
      write.versions.map fun version =>
        .remove .versions (StorageKey.version write.index version)))
      (store.commit (.destroy write)) := by
  simp only [ThesaurosBackend.commit, List.foldl_append, foldl_removals, List.foldl_cons,
    List.foldl_nil, apply_insert, LifecycleKeyspaces.modify]
  exact {
    valueLimit := h.valueLimit
    heads := h.heads.insert headBytes_injective write.index _
    versions := by
      refine (h.versions.eraseAll versionBytes_injective _).congr fun place => ?_
      obtain ⟨index, v⟩ := place
      simp [Store.commit, eq_comm, and_comm]
    staging := h.staging
    operations := h.operations.insert operationBytes_injective (write.index, write.key) _
    quarantined := h.quarantined
    numbered := h.numbered.commit hcheck }

/-- The keyspace of quarantine with one more entry. -/
def addHalves (keyspace : Keyspace) (entry : QuarantinedEntry) : Keyspace :=
  entry.payload.toList.foldl (fun keyspace payload => keyspace.insert (halfKey entry .payload) payload)
    (keyspace.insert (halfKey entry .marker) entry.marker)

/-- An entry after every other is listed last, its marker first. -/
theorem toList_addHalves {keyspace : Keyspace} {entry : QuarantinedEntry}
    (hlast : ∀ half ∈ keyspace.toList, half.1 < halfKey entry .marker) :
    (addHalves keyspace entry).toList = keyspace.toList ++ halves entry := by
  have hmarker := BTreeMap.toList_insert_last entry.marker hlast
  unfold addHalves halves
  cases entry.payload with
  | none => simpa using hmarker
  | some payload =>
    have hparts : halfKey entry .marker < halfKey entry .payload :=
      StorageKey.marker_bytes_lt entry.sequence entry.index entry.version
    have hpayload := BTreeMap.toList_insert_last (m := keyspace.insert (halfKey entry .marker)
      entry.marker) (k := halfKey entry .payload) payload (by
        intro half hhalf
        rw [hmarker, List.mem_append, List.mem_singleton] at hhalf
        rcases hhalf with hhalf | rfl
        · exact (hlast half hhalf).trans hparts
        · exact hparts)
    rw [hmarker] at hpayload
    simpa using hpayload

theorem quarantine_store (h : Represents limit backend store) {write : QuarantineWrite}
    (hcheck : store.check (.quarantine write) = .ok ()) :
    Represents limit (backend.commit (quarantineBatch store.sequence write
      (store.payloads (write.index, write.version)))) (store.commit (.quarantine write)) := by
  have hnumbered := h.numbered.commit hcheck
  let entry : QuarantinedEntry := {
    sequence := store.sequence
    index := write.index
    version := write.version
    marker := write.marker
    payload := store.payloads (write.index, write.version) }
  have hbatch : backend.commit (quarantineBatch store.sequence write
      (store.payloads (write.index, write.version))) = { backend with
        lifecycle := { backend.lifecycle with
          quarantine := addHalves backend.lifecycle.quarantine entry
          staging := backend.lifecycle.staging.erase (versionBytes (write.index, write.version))
          versions := backend.lifecycle.versions.erase
            (versionBytes (write.index, write.version)) } } := by
    simp only [addHalves, entry, quarantineBatch]
    cases store.payloads (write.index, write.version) with
    | none =>
      simp only [ThesaurosBackend.commit, List.foldl_append, List.foldl_cons, List.foldl_nil,
        Option.toList_none, List.map_nil, apply_insert, apply_remove, LifecycleKeyspaces.modify]
      rfl
    | some payload =>
      simp only [ThesaurosBackend.commit, List.foldl_append, List.foldl_cons, List.foldl_nil,
        Option.toList_some, List.map_cons, List.map_nil, apply_insert, apply_remove,
        LifecycleKeyspaces.modify]
      rfl
  have hlast : ∀ half ∈ backend.lifecycle.quarantine.toList, half.1 < halfKey entry .marker := by
    intro half hhalf
    rw [h.quarantined, List.mem_flatMap] at hhalf
    obtain ⟨other, hother, hhalf⟩ := hhalf
    obtain ⟨part, hpart⟩ := mem_halves hhalf
    have hbounds := h.numbered.bounds hother
    have hfits : entry.sequence < UInt64.size := by
      have hlen := hnumbered.fits
      simp only [Store.commit, List.length_append, List.length_cons, List.length_nil] at hlen
      show store.sequence < UInt64.size
      rw [h.numbered.sequence]
      omega
    have hlt : other.sequence < entry.sequence := by
      show other.sequence < store.sequence
      rw [h.numbered.sequence]
      omega
    rw [hpart]
    exact halfKey_lt (h.entry_fits other hother) hfits hlt
  rw [hbatch]
  exact {
    valueLimit := h.valueLimit
    heads := h.heads
    versions := h.versions.erase versionBytes_injective (write.index, write.version)
    staging := by
      rw [Store.markers_clear (Store.marker_of_quarantine hcheck) rfl]
      exact h.staging.erase versionBytes_injective (write.index, write.version)
    operations := h.operations
    quarantined := by
      show (addHalves backend.lifecycle.quarantine entry).toList = _
      rw [toList_addHalves hlast, h.quarantined, Store.commit, List.flatMap_append,
        List.flatMap_singleton]
    numbered := hnumbered }

end Batches

/-! ### Listings -/

theorem readStaging_run (h : Represents limit backend store) (index : IndexIdentity) :
    (readStaging index).run backend = (.ok (store.staged index), backend) := by
  simp only [readStaging, run_get_bind, h.firstStaged]
  rfl

theorem listHeads_run (h : Represents limit backend store) :
    ∃ reply, listHeads.run backend = (.ok reply, backend) ∧
      Listing StorageKey.head store.heads reply := by
  obtain ⟨l, hl, hlists⟩ := h.heads.lists headBytes_injective
  refine ⟨l, ?_, hlists.reorder headBytes_lt_iff⟩
  have hparse (entry : IndexIdentity × Bytes) : (do
      return (← StorageKey.parseHead (headBytes entry.1), entry.2) : Except HeuremaError _) =
      .ok entry := by
    rw [headBytes, StorageKey.parseHead_head]
    rfl
  simp only [listHeads, run_get_bind, hl]
  rw [Outcome.mapM_map_of_ok hparse, List.map_id']
  rfl

theorem listStaged_run (h : Represents limit backend store) :
    ∃ reply, listStaged.run backend = (.ok reply, backend) ∧
      Listing StorageKey.versionAt store.markers
        (reply.map fun entry => ((entry.index, entry.version), entry.marker)) := by
  obtain ⟨l, hl, hlists⟩ := h.staging.lists versionBytes_injective
  refine ⟨l.map fun entry => ⟨entry.1.1, entry.1.2, entry.2⟩, ?_, ?_⟩
  · have hparse (entry : (IndexIdentity × IndexVersion) × Bytes) : (do
        let (index, version) ← StorageKey.parseStaging (versionBytes entry.1)
        return { index, version, marker := entry.2 } : Except HeuremaError StagedEntry) =
        .ok ⟨entry.1.1, entry.1.2, entry.2⟩ := by
      rw [versionBytes, StorageKey.versionAt, StorageKey.parseStaging,
        StorageKey.parseVersion_version]
      rfl
    simp only [listStaged, run_get_bind, hl]
    rw [Outcome.mapM_map_of_ok hparse]
    rfl
  · rw [List.map_map, show ((fun entry : StagedEntry => ((entry.index, entry.version),
      entry.marker)) ∘ fun entry : (IndexIdentity × IndexVersion) × Bytes =>
        StagedEntry.mk entry.1.1 entry.1.2 entry.2) = id from rfl, List.map_id]
    exact hlists.reorder versionBytes_lt_iff

theorem listOperations_run (h : Represents limit backend store) (index : IndexIdentity) :
    ∃ reply, (listOperations index).run backend = (.ok reply, backend) ∧
      Listing (StorageKey.operation index) (fun key => store.records (index, key)) reply := by
  obtain ⟨l, hl, hlists⟩ := h.operations.scan operationBytes_injective
    (p := (StorageKey.indexPrefix index).asBytes) (b := index) fun place =>
      (StorageKey.prefix_bytes_iff place.2.ascii).trans eq_comm
  refine ⟨l, ?_, hlists.reorder fun key other => operationBytes_lt_iff (index, key) (index, other)⟩
  have hparse (entry : OperationKey × Bytes) : (do
      let (_, key) ← StorageKey.parseOperation (operationBytes (index, entry.1))
      return (key, entry.2) : Except HeuremaError (OperationKey × Bytes)) = .ok entry := by
    rw [operationBytes, StorageKey.operationAt, StorageKey.parseOperation_operation]
    rfl
  simp only [listOperations, run_get_bind, LifecycleKeyspaces.scan]
  rw [hl, Outcome.mapM_map_of_ok hparse, List.map_id']
  rfl

theorem listQuarantined_run (h : Represents limit backend store) :
    listQuarantined.run backend = (.ok store.quarantined, backend) := by
  simp only [listQuarantined, run_get_bind, h.quarantined]
  rw [foldlM_halves h.entry_fits, List.nil_append]
  rfl

end Represents

/-- The adapter keeps the contract, and refuses values above its limit. -/
theorem adapter (limit : Nat) :
    Adapter ThesaurosBackend (some limit) (Represents limit) where
  read {backend store} h call hread := by
    cases call with
    | readHead index => exact ⟨_, rfl, h.heads.lookup index⟩
    | readVersion index v => exact ⟨_, rfl, h.versions.lookup (index, v)⟩
    | readOperation index key => exact ⟨_, rfl, h.operations.lookup (index, key)⟩
    | readStaging index => exact ⟨_, h.readStaging_run index, rfl⟩
    | write write => exact absurd rfl (hread write)
    | listHeads => exact h.listHeads_run
    | listStaged => exact h.listStaged_run
    | listOperations index => exact h.listOperations_run index
    | listQuarantined => exact ⟨_, h.listQuarantined_run, rfl⟩
  refused {backend store} h {write refusal} hrefused := by
    cases write with
    | stage write => exact (h.stage_run write).trans (by rw [hrefused]; rfl)
    | publish write => exact (h.publish_run write).trans (by rw [hrefused]; rfl)
    | destroy write => exact (h.destroy_run write).trans (by rw [hrefused]; rfl)
    | quarantine write => exact (h.quarantine_run write).trans (by rw [hrefused]; rfl)
  admitted {backend store} h {write} hadmitted := by
    obtain ⟨_, _, hcheck⟩ := Outcome.bind_eq_ok.mp hadmitted
    cases write with
    | stage write =>
      exact ⟨_, (h.stage_run write).trans (by rw [hadmitted]; rfl), h.stage_store hcheck⟩
    | publish write =>
      exact ⟨_, (h.publish_run write).trans (by rw [hadmitted]; rfl), h.publish_store hcheck⟩
    | destroy write =>
      exact ⟨_, (h.destroy_run write).trans (by rw [hadmitted]; rfl), h.destroy_store hcheck⟩
    | quarantine write =>
      exact ⟨_, (h.quarantine_run write).trans (by rw [hadmitted]; rfl), h.quarantine_store hcheck⟩

end Heurema.Thesauros
