import Heurema.Lifecycle.Version

/-! # The stored records

The bytes of heads, version payloads, staging markers and operation records. A
record whose values store is what its bytes decode to under its own key. -/

namespace Heurema

open Serde

open Outcome (refuse mapError ofResult)

/-- The `Display` form of an index. -/
def IndexIdentity.display (index : IndexIdentity) : String :=
  String.ofList (index.ns.value ++ '/' :: index.name.value)

def IndexVersion.display (version : IndexVersion) : String := toString version.get

/-- The stored form of a head. -/
structure HeadBytes (R : Type) where
  formatVersion : UInt16
  record : IndexRecord R

/-- Which operation staged a version. -/
structure StagingMarker where
  formatVersion : UInt16
  index : IndexIdentity
  version : IndexVersion
  operation : OperationIdentity
  transition : LifecycleTransition
deriving DecidableEq

def StagingMarker.new (index : IndexIdentity) (version : IndexVersion)
    (operation : OperationIdentity) (transition : LifecycleTransition) : StagingMarker :=
  { formatVersion := LIFECYCLE_FORMAT_VERSION, index, version, operation, transition }

/-- The audit record of one published operation. -/
structure OperationRecord (M P R : Type) where
  formatVersion : UInt16
  index : IndexIdentity
  operation : OperationIdentity
  transition : LifecycleTransition
  fromVersion : Option IndexVersion
  resulting : IndexState R
  previousConfig : Option IndexConfig
  changes : List (MemberChange M P)

def OperationRecord.new {M P R : Type} (index : IndexIdentity) (operation : OperationIdentity)
    (transition : LifecycleTransition) (fromVersion : Option IndexVersion)
    (resulting : IndexState R) (previousConfig : Option IndexConfig)
    (changes : List (MemberChange M P)) : OperationRecord M P R :=
  { formatVersion := LIFECYCLE_FORMAT_VERSION, index, operation, transition, fromVersion,
    resulting, previousConfig, changes }

variable [SerdeJson] [Unicode] {M P R : Type} [MemberIdentity M] [ProvenanceReference P]
  [RetentionReference R]

/-! ## Formats -/

def FORMAT_VERSION : Str := "format_version".toList

namespace HeadBytes

def FIELDS : List Str := [FORMAT_VERSION, "record".toList]

instance : Codec (HeadBytes R) where
  serialize head :=
    Serde.record "HeadBytes".toList FIELDS [serialize head.formatVersion, serialize head.record]
  deserialize := readRecord FIELDS fun found => do
    return { formatVersion := ← requiredField found 0, record := ← requiredField found 1 }

theorem stores {d : Nat} {head : HeadBytes R} (h : head.record.state.Storable d) :
    Stores (d + 7) head := by
  obtain ⟨format, hformat⟩ := stores_uint16 head.formatVersion
  obtain ⟨record, hrecord⟩ := IndexRecord.stores h
  have hitems : Items (d + 6) _ _ := .cons hformat (.cons hrecord .nil)
  exact .record rfl rfl hitems rfl (by decide) (by decide)
    (by simp [requiredField, hformat.read, hrecord.read])

end HeadBytes

namespace StagingMarker

def FIELDS : List Str :=
  [FORMAT_VERSION, "index".toList, "version".toList, "operation".toList, "transition".toList]

instance : Codec StagingMarker where
  serialize marker := record "StagingMarker".toList FIELDS [serialize marker.formatVersion,
    serialize marker.index, serialize marker.version, serialize marker.operation,
    serialize marker.transition]
  deserialize := readRecord FIELDS fun found => do
    return {
      formatVersion := ← requiredField found 0
      index := ← requiredField found 1
      version := ← requiredField found 2
      operation := ← requiredField found 3
      transition := ← requiredField found 4 }

theorem stores (marker : StagingMarker) : Stores 2 marker := by
  obtain ⟨format, hformat⟩ := stores_uint16 marker.formatVersion
  obtain ⟨index, hindex⟩ := marker.index.stores
  obtain ⟨version, hversion⟩ := marker.version.stores
  obtain ⟨operation, hoperation⟩ := marker.operation.stores
  obtain ⟨transition, htransition⟩ := marker.transition.stores
  have hitems : Items 1 _ _ := .cons hformat (.cons hindex (.cons hversion (.cons hoperation
    (.cons htransition .nil))))
  exact .record rfl rfl hitems rfl (by decide) (by decide) (by simp [requiredField, hformat.read,
    hindex.read, hversion.read, hoperation.read, htransition.read])

end StagingMarker

namespace OperationRecord

def FIELDS : List Str :=
  [FORMAT_VERSION, "index".toList, "operation".toList, "transition".toList, "from".toList,
    "resulting".toList, "previous_config".toList, "changes".toList]

instance : Codec (OperationRecord M P R) where
  serialize record := Serde.record "OperationRecord".toList FIELDS [serialize record.formatVersion,
    serialize record.index, serialize record.operation, serialize record.transition,
    serialize record.fromVersion, serialize record.resulting, serialize record.previousConfig,
    serialize record.changes]
  deserialize := readRecord FIELDS fun found => do
    return {
      formatVersion := ← requiredField found 0
      index := ← requiredField found 1
      operation := ← requiredField found 2
      transition := ← requiredField found 3
      fromVersion := ← optionalField found 4
      resulting := ← requiredField found 5
      previousConfig := ← optionalField found 6
      changes := ← requiredField found 7 }

/-- The consumer's parts of a record store. -/
structure Storable (d : Nat) (record : OperationRecord M P R) : Prop where
  resulting : record.resulting.Storable d
  changes : ∀ change ∈ record.changes, change.Storable d

theorem stores {record : OperationRecord M P R} {d : Nat} (h : record.Storable d) :
    Stores (d + 6) record := by
  obtain ⟨format, hformat⟩ := stores_uint16 record.formatVersion
  obtain ⟨index, hindex⟩ := record.index.stores
  obtain ⟨operation, hoperation⟩ := record.operation.stores
  obtain ⟨transition, htransition⟩ := record.transition.stores
  obtain ⟨fromVersion, hfrom⟩ : Stores 0 record.fromVersion :=
    .option record.fromVersion fun version _ => ⟨version.stores, version.present⟩
  obtain ⟨resulting, hresulting⟩ := IndexState.stores h.resulting
  obtain ⟨config, hconfig⟩ : Stores 5 record.previousConfig :=
    .option record.previousConfig fun config _ => ⟨config.stores, config.present⟩
  obtain ⟨changes, hchanges⟩ :=
    Stores.list fun change hmem => MemberChange.stores (h.changes change hmem)
  have hitems : Items (d + 5) _ _ := .cons hformat (.cons hindex (.cons hoperation
    (.cons htransition (.cons hfrom (.cons hresulting (.cons hconfig (.cons hchanges .nil)))))))
  exact .record rfl rfl hitems rfl (by decide) (by decide) (by
    simp [requiredField, optionalField, hformat.read, hindex.read, hoperation.read,
      htransition.read, hfrom.read, hresulting.read, hconfig.read, hchanges.read])

end OperationRecord

/-! ## Encoding -/

/-- A value the JSON writer refuses is the caller's input to fix. -/
def encode {T : Type} [Codec T] (value : T) : Except HeuremaError Bytes :=
  match toVec value with
  | .ok bytes => .ok bytes
  | .error reason => .error (.unencodableOperation reason)

def encodeHead (record : IndexRecord R) : Except HeuremaError Bytes :=
  encode ({ formatVersion := LIFECYCLE_FORMAT_VERSION, record } : HeadBytes R)

/-! ## Decoding -/

/-- Stored bytes of a record that do not decode. -/
def undecodable (record : String) : HeuremaError := .corruptSnapshot (.undecodableRecord record)

/-- `from_slice`, whose errors say which record does not decode. -/
def decodeWith {T : Type} (record : String) (read : Json → Outcome String T) (bytes : Bytes) :
    Run T :=
  mapError (fun _ => undecodable record) do
    read (← ofResult (SerdeJson.fromSlice bytes))

/-- `FormatHeader`: the format version, whatever else a record carries. -/
def readHeader (json : Json) : Outcome String UInt16 := do
  requiredField (← readStruct [FORMAT_VERSION] false json) 0

/-- Refuses a record whose format version this build does not read. -/
def checkFormat (bytes : Bytes) : Run Unit := do
  let found ← decodeWith "lifecycle record header" readHeader bytes
  if found = LIFECYCLE_FORMAT_VERSION then .ok ()
  else refuse (.unsupportedSnapshotVersion found.toNat LIFECYCLE_FORMAT_VERSION.toNat)

/-- Decodes the head stored for `index`. -/
def decodeHead (bytes : Bytes) (index : IndexIdentity) : Run (IndexRecord R) := do
  checkFormat bytes
  let head : HeadBytes R ← decodeWith "lifecycle head" deserialize bytes
  if head.record.identity ≠ index then
    refuse (corrupt ("head stored for index " ++ index.display ++ " names index " ++
      head.record.identity.display))
  else return head.record

/-- Decodes the payload stored for `version` of `index`. -/
def decodePayload (bytes : Bytes) (index : IndexIdentity) (version : IndexVersion) :
    Run (VersionPayload M P) := do
  checkFormat bytes
  let raw : RawVersionPayload M P ← decodeWith "version payload" deserialize bytes
  let payload ← ofResult (VersionPayload.tryFrom raw)
  if payload.index ≠ index ∨ payload.version ≠ version then
    refuse (corrupt ("payload stored for version " ++ version.display ++ " of index " ++
      index.display ++ " is version " ++ payload.version.display ++ " of index " ++
      payload.index.display))
  else return payload

/-- Decodes the record stored for operation `key` on `index`. -/
def decodeOperation (bytes : Bytes) (index : IndexIdentity) (key : OperationKey) :
    Run (OperationRecord M P R) := do
  checkFormat bytes
  let record : OperationRecord M P R ← decodeWith "operation record" deserialize bytes
  if record.index ≠ index ∨ record.operation.key ≠ key then
    refuse (corrupt ("operation record stored for key " ++ String.ofList key.value ++
      " of index " ++ index.display ++ " is key " ++ String.ofList record.operation.key.value ++
      " of index " ++ record.index.display))
  else return record

/-! ### What is encoded decodes again -/

section Decode

variable {T : Type} [Codec T] {value : T} {bytes : Bytes} {d : Nat}

omit [Unicode] in
theorem encode_eq_ok : encode value = .ok bytes ↔ toVec value = .ok bytes := by
  unfold encode
  cases toVec value <;> simp

omit [Unicode] in
theorem encode_stores (h : Stores d value) : ∃ bytes, encode value = .ok bytes := by
  obtain ⟨bytes, hbytes⟩ := h.toVec
  exact ⟨bytes, encode_eq_ok.mpr hbytes⟩

omit [Unicode] in
theorem decodeWith_encode (record : String) (h : Stores d value) (hd : d ≤ 127)
    (hbytes : encode value = .ok bytes) :
    decodeWith record (deserialize : Json → Outcome String T) bytes = .ok value := by
  have hread : fromSlice bytes = .ok value := h.fromSlice hd (encode_eq_ok.mp hbytes)
  exact Outcome.mapError_eq_ok.mpr hread

omit [Unicode] in
/-- The header of a record whose first field is the format version of this build. -/
theorem checkFormat_encode {name : Str} {names : List Str} {values : List Value}
    (h : Stores d value) (hd : d ≤ 127) (hbytes : encode value = .ok bytes)
    (hserialize : serialize value =
      record name (FORMAT_VERSION :: names) (serialize LIFECYCLE_FORMAT_VERSION :: values))
    (hname : name.head? ≠ some '$') (hnames : FORMAT_VERSION ∉ names) :
    checkFormat bytes = .ok () := by
  obtain ⟨json, hjson, hdepth, -⟩ := h
  have hslice : SerdeJson.fromSlice bytes = .ok json := by
    have hvec := encode_eq_ok.mp hbytes
    rw [toVec, hjson] at hvec
    cases hvec
    exact SerdeJson.fromSlice_toVec json (hdepth.trans hd)
  obtain ⟨format, hformat⟩ := stores_uint16 LIFECYCLE_FORMAT_VERSION
  rw [hserialize] at hjson
  obtain ⟨fields, rfl, hfields⟩ := toJson_record_cons hname hformat.wrote hjson
  have hheader : readHeader (.obj ((FORMAT_VERSION, format) :: fields)) =
      .ok LIFECYCLE_FORMAT_VERSION := by
    have hothers : ∀ field ∈ fields, field.1 ≠ FORMAT_VERSION := fun field hfield hsame =>
      hnames (hsame ▸ hfields field hfield)
    rw [readHeader, readStruct_head hothers, Outcome.ok_bind]
    exact hformat.read
  have hdecode : decodeWith "lifecycle record header" readHeader bytes =
      .ok LIFECYCLE_FORMAT_VERSION := by
    rw [decodeWith, hslice, Outcome.ofResult_ok, Outcome.ok_bind, hheader]
    rfl
  rw [checkFormat, hdecode, Outcome.ok_bind, if_pos rfl]

end Decode

theorem decodeHead_encodeHead {record : IndexRecord R} {bytes : Bytes}
    (h : record.state.Storable MAX_CONSUMER_JSON_DEPTH) (hbytes : encodeHead record = .ok bytes) :
    decodeHead bytes record.identity = .ok record := by
  have hstores : Stores (MAX_CONSUMER_JSON_DEPTH + 7)
      ({ formatVersion := LIFECYCLE_FORMAT_VERSION, record } : HeadBytes R) := HeadBytes.stores h
  have hformat : checkFormat bytes = .ok () :=
    checkFormat_encode hstores (by decide) hbytes rfl (by decide) (by decide)
  simp [decodeHead, hformat, decodeWith_encode "lifecycle head" hstores (by decide) hbytes]

theorem encodeHead_total {record : IndexRecord R}
    (h : record.state.Storable MAX_CONSUMER_JSON_DEPTH) :
    ∃ bytes, encodeHead record = .ok bytes := by
  have hstores : Stores (MAX_CONSUMER_JSON_DEPTH + 7)
      ({ formatVersion := LIFECYCLE_FORMAT_VERSION, record } : HeadBytes R) := HeadBytes.stores h
  exact encode_stores hstores

theorem decodePayload_encode {payload : VersionPayload M P} {bytes : Bytes} (h : payload.Sound)
    (hbytes : encode payload.toRaw = .ok bytes) :
    decodePayload bytes payload.index payload.version = .ok payload := by
  have hformat : checkFormat bytes = .ok () :=
    checkFormat_encode h.stores (by decide) hbytes (by rw [← h.format]; rfl) (by decide)
      (by decide)
  simp [decodePayload, hformat, decodeWith_encode "version payload" h.stores (by decide) hbytes,
    h.tryFrom]

theorem decodeOperation_encode {record : OperationRecord M P R} {bytes : Bytes}
    (h : record.Storable MAX_CONSUMER_JSON_DEPTH)
    (hversion : record.formatVersion = LIFECYCLE_FORMAT_VERSION)
    (hbytes : encode record = .ok bytes) :
    decodeOperation bytes record.index record.operation.key = .ok record := by
  have hformat : checkFormat bytes = .ok () :=
    checkFormat_encode (OperationRecord.stores h) (by decide) hbytes (by rw [← hversion]; rfl)
      (by decide) (by decide)
  simp [decodeOperation, hformat,
    decodeWith_encode "operation record" (OperationRecord.stores h) (by decide) hbytes]

end Heurema
