import Heurema.Data.Sorted
import Heurema.Lifecycle.Depth
import Heurema.Lifecycle.Digest

/-! # Validation before anything is written

An operation becomes a `CheckedOperation` by its stateless checks, then a
`ValidatedOperation` by the permission table and the checks that need the
index's record. Neither can be built without its checks. -/

namespace Heurema

open Serde Hnsw Digest

open Outcome (refuse mapError checkEach ofResult)

variable [SerdeJson] {M P R : Type}

/-! ## Round trips -/

/-- The deepest JSON nesting a consumer value may have. -/
def MAX_CONSUMER_JSON_DEPTH : Nat := 64

def reportedString (value : Str) : String := String.ofList (reported value)

/-- Refuses a value that does not read back as itself from its JSON bytes. -/
def jsonRoundTrip {T : Type} [Codec T] [DecidableEq T] (value : T) : Outcome String Unit :=
  match (serialize value).toJson with
  | .error error => refuse ("cannot be written as a JSON value: " ++ error)
  | .ok written =>
    let bytes := written.toVec
    let depth := jsonDepth bytes
    if depth > MAX_CONSUMER_JSON_DEPTH then
      refuse ("nests " ++ toString depth ++ " levels deep in JSON; a consumer value may nest at " ++
        "most " ++ toString MAX_CONSUMER_JSON_DEPTH ++ ", because stored records wrap it further " ++
        "and serde_json refuses to read past 128 levels")
    else
      let json := reportedString written.write
      match (fromSlice bytes : Outcome String T) with
      | .ok read =>
        if read = value then .ok ()
        else refuse ("reads back from its JSON value " ++ json ++ " as a different value")
      | .error (.refused error) =>
        refuse ("cannot be read back from its JSON value " ++ json ++ ": " ++ error)
      | .error (.panicked reason) => Outcome.panic reason

variable [MemberIdentity M] [ProvenanceReference P] [RetentionReference R]

/-- One entry of the map `serde` reads from an object, where a repeated key keeps
its last value. -/
def readByte (read : BTreeMap M Nat) (field : Str × Json) : Outcome String (BTreeMap M Nat) := do
  let key ← deserializeKey field.1
  let value ← readUint 256 field.2
  return read.insert key value

def readByteMap : Json → Outcome String (BTreeMap M Nat)
  | .obj fields => fields.foldlM readByte ∅
  | _ => refuse "invalid type"

/-- `from_str::<BTreeMap<M, u8>>`. -/
def readBack (bytes : Bytes) : Outcome String (BTreeMap M Nat) := do
  readByteMap (← ofResult (SerdeJson.fromSlice bytes))

/-- Refuses an identity that does not read back as itself from the key of an object. -/
def jsonKeyRefusal (id : M) : Outcome String Unit :=
  match (Value.map [(serialize id, .int .u8 0)]).toJson with
  | .error error => refuse ("cannot be written as a JSON object key: " ++ error)
  | .ok written =>
    let stored := reportedString written.write
    match (readBack written.toVec : Outcome String (BTreeMap M Nat)) with
    | .ok read =>
      if read.size = 1 ∧ id ∈ read then .ok ()
      else refuse ("reads back from the JSON object " ++ stored ++ " as a different identity; " ++
        "adapters store members in JSON objects keyed by identity")
    | .error (.refused error) =>
      refuse ("cannot be read back from the JSON object " ++ stored ++ ": " ++ error)
    | .error (.panicked reason) => Outcome.panic reason

def jsonValueRefusal (id : M) : Outcome String Unit :=
  mapError (· ++ "; heurēma also stores member identities as JSON values") (jsonRoundTrip id)

/-! ### What a round trip shows -/

theorem jsonRoundTrip_stores {T : Type} [Codec T] [DecidableEq T] {value : T}
    (h : jsonRoundTrip value = .ok ()) : Stores MAX_CONSUMER_JSON_DEPTH value := by
  unfold jsonRoundTrip at h
  split at h
  · cases h
  · next written hwritten =>
    simp only at h
    split at h
    · cases h
    · next hdepth =>
      rw [jsonDepth_toVec, Nat.not_lt] at hdepth
      have hread : (fromSlice written.toVec : Outcome String T) = deserialize written := by
        rw [fromSlice, SerdeJson.fromSlice_toVec _ (hdepth.trans (by decide)), Outcome.ofResult_ok,
          Outcome.ok_bind]
      rw [hread] at h
      split at h
      · next read hread =>
        split at h
        · next heq => exact ⟨written, hwritten, hdepth, heq ▸ hread⟩
        · cases h
      · cases h
      · cases h

theorem jsonKeyRefusal_stores {id : M} (h : jsonKeyRefusal id = .ok ()) : StoresKey id := by
  unfold jsonKeyRefusal at h
  cases hkey : (serialize id).toKey with
  | error error => simp [Value.toJson, Value.toEntries, hkey, refuse] at h
  | ok text =>
    have hjson : (Value.map [(serialize id, .int .u8 0)]).toJson =
        .ok (.obj [(text, .num (.ofNat 0))]) := by
      simp [Value.toJson, Value.toEntries, hkey, Value.intText, IntKind.signed]
    have hdepth : (Json.obj [(text, .num (.ofNat 0))]).depth ≤ 127 := by
      simp [Json.depth, Json.depthFields]
    have hback : readBack (Json.obj [(text, .num (.ofNat 0))]).toVec =
        (do return (∅ : BTreeMap M Nat).insert (← deserializeKey text) 0) := by
      simp [readBack, SerdeJson.fromSlice_toVec _ hdepth, readByteMap, readByte,
        readUint_ofNat (by decide : 0 < 256)]
    rw [hjson] at h
    simp only [hback] at h
    cases hread : (deserializeKey text : Outcome String M) with
    | error failure => cases failure <;> simp [hread, refuse, Outcome.panic] at h
    | ok key =>
      simp only [hread, Outcome.ok_bind, Outcome.pure_eq] at h
      split at h
      · next hid =>
        have : id = key := by simpa using BTreeMap.mem_insert_iff.mp hid.2
        exact ⟨text, hkey, this ▸ hread⟩
      · cases h

theorem jsonRoundTrip_of_stores {T : Type} [Codec T] [DecidableEq T] {value : T}
    (h : Stores MAX_CONSUMER_JSON_DEPTH value) : jsonRoundTrip value = .ok () := by
  obtain ⟨written, hwritten, hdepth, hread⟩ := h
  have hslice : (fromSlice written.toVec : Outcome String T) = .ok value := by
    rw [fromSlice, SerdeJson.fromSlice_toVec _ (hdepth.trans (by decide)), Outcome.ofResult_ok,
      Outcome.ok_bind, hread]
  simp [jsonRoundTrip, hwritten, jsonDepth_toVec, Nat.not_lt.mpr hdepth, hslice]

theorem jsonKeyRefusal_of_stores {id : M} (h : StoresKey id) : jsonKeyRefusal id = .ok () := by
  obtain ⟨text, hkey, hread⟩ := h
  have hjson : (Value.map [(serialize id, .int .u8 0)]).toJson =
      .ok (.obj [(text, .num (.ofNat 0))]) := by
    simp [Value.toJson, Value.toEntries, hkey, Value.intText, IntKind.signed]
  have hdepth : (Json.obj [(text, .num (.ofNat 0))]).depth ≤ 127 := by
    simp [Json.depth, Json.depthFields]
  have hback : (readBack (Json.obj [(text, .num (.ofNat 0))]).toVec : Outcome String (BTreeMap M Nat)) =
      .ok ((∅ : BTreeMap M Nat).insert id 0) := by
    simp [readBack, SerdeJson.fromSlice_toVec _ hdepth, readByteMap, readByte,
      readUint_ofNat (by decide : 0 < 256), hread]
  have hsize : ((∅ : BTreeMap M Nat).insert id 0).size = 1 := by
    rw [BTreeMap.size_insert_new 0 (by simp)]
    rfl
  simp only [jsonKeyRefusal, hjson, hback]
  exact if_pos ⟨hsize, BTreeMap.mem_insert_iff.mpr (.inl rfl)⟩

theorem jsonValueRefusal_of_stores {id : M} (h : Stores MAX_CONSUMER_JSON_DEPTH id) :
    jsonValueRefusal id = .ok () := by
  rw [jsonValueRefusal, jsonRoundTrip_of_stores h]
  rfl

/-- A value whose item may key a map is not written as `null`. -/
theorem toJson_ne_null : ∀ (value : Value) {item : Bytes}, encode value = .ok item →
    isKey item = true → value.toJson ≠ .ok .null
  | .failed _, _, h, _ => by simp [encode] at h
  | .bool value, _, h, hkey => by cases value <;> cases h <;> simp [Value.toJson]
  | .int kind bits, _, _, _ => by simp [Value.toJson]
  | .f32 _, _, h, _ => by simp [encode, floatRefusal] at h
  | .f64 _, _, h, _ => by simp [encode, floatRefusal] at h
  | .char _, _, _, _ => by simp [Value.toJson]
  | .str _, _, _, _ => by simp [Value.toJson]
  | .bytes _, _, _, _ => by simp [Value.toJson]
  | .none, _, h, hkey => by cases h; cases hkey
  | .some value, _, h, hkey => by
    cases hv : encode value with
    | error reason => simp [encode, hv] at h
    | ok item =>
      simp only [encode, hv, Outcome.ok_bind, Outcome.pure_eq, Except.ok.injEq] at h
      have hsome : isKey (Tag.SOME :: item) = false := rfl
      rw [← h, hsome] at hkey
      cases hkey
  | .unit, _, h, hkey => by cases h; cases hkey
  | .unitVariant _, _, _, _ => by simp [Value.toJson]
  | .newtypeStruct value, _, h, hkey => by
    rw [Value.toJson]
    exact toJson_ne_null value (by rwa [encode] at h) hkey
  | .newtypeVariant _ value, _, _, _ => by cases hv : value.toJson <;> simp [Value.toJson, hv]
  | .seq elements, _, _, _ => by cases hv : Value.toItems elements <;> simp [Value.toJson, hv]
  | .tupleVariant _ elements, _, _, _ => by
    cases hv : Value.toItems elements <;> simp [Value.toJson, hv]
  | .map entries, _, _, _ => by cases hv : Value.toEntries entries <;> simp [Value.toJson, hv]
  | .struct name fields, _, _, _ => by
    rw [Value.toJson]
    split
    · unfold Value.numberText
      split
      · split <;> simp
      · simp
    · split
      · simp
      · cases hv : Value.toFields fields <;> simp
  | .structVariant _ fields, _, _, _ => by
    cases hv : Value.toFields fields <;> simp [Value.toJson, hv]

/-! ## Stateless checks -/

/-- The first identity that the next one repeats. -/
def duplicate (sortedIds : List M) : Option M :=
  ((sortedIds.zip sortedIds.tail).find? fun pair => pair.1 = pair.2).map Prod.fst

def checkIdentity (id : M) : Outcome String Unit := do
  match memberIdentityRefusal id with
  | some reason => refuse reason
  | none => do
    jsonKeyRefusal id
    jsonValueRefusal id

/-- No identity twice, and each a string or an integer that reads back as itself. -/
def checkMemberIdentities (sortedIds : List M) : Run Unit :=
  match duplicate sortedIds with
  | some id => refuse (.duplicateMember (reportedString (MemberIdentity.debug id)))
  | none => checkEach (fun id =>
      mapError (refusal .memberIdentity (MemberIdentity.debug id)) (checkIdentity id)) sortedIds

def checkFiniteVectors (members : List (IndexMember M P)) : Run Unit :=
  checkEach (fun member =>
    match member.content with
    | .vector components => ofResult (checkFinite components)
    | .document _ => .ok ()) members

def checkIndexConfig : IndexConfig → Except HeuremaError Unit
  | .vector hnsw => checkConfig hnsw
  | .fts config => config.requireSimplePipeline

def checkFamily (expected actual : SnapshotFamily) : Run Unit :=
  if actual = expected then .ok () else refuse (.familyMismatch expected actual)

/-- Every member belongs to the family of the member with the lowest identity. -/
def checkSingleFamily (members : List (IndexMember M P)) : Run Unit :=
  match members with
  | [] => .ok ()
  | first :: _ => checkEach (fun member =>
      checkFamily first.content.family member.content.family) members

/-- The check an engine built under `config` makes of what enters it. -/
def checkContent (config : IndexConfig) (content : MemberContent) : Except HeuremaError Unit :=
  match config, content with
  | .vector hnsw, .vector components => checkVector hnsw components
  | .fts config, .document _ => config.requireSimplePipeline
  | .vector _, .document _ | .fts _, .vector _ =>
    .error (.familyMismatch config.family content.family)

/-- Every member fits an index built under `config`: the families first. -/
def checkMembersFit (config : IndexConfig) (members : List (IndexMember M P)) : Run Unit := do
  checkEach (fun member => checkFamily config.family member.content.family) members
  checkEach (fun member => ofResult (checkContent config member.content)) members

def checkChange : IndexChange M P R → Run Unit
  | .create config => ofResult (checkIndexConfig config)
  | .insert members => do
    if members.isEmpty then refuse (.emptyBatch .insert)
    else
      let members := sortedMembers members
      checkMemberIdentities (members.map IndexMember.id)
      checkFiniteVectors members
      checkSingleFamily members
  | .remove members =>
    if members.isEmpty then refuse (.emptyBatch .remove)
    else checkMemberIdentities (sortedIds members)
  | .rebuild config members => do
    let members := sortedMembers members
    checkMemberIdentities (members.map IndexMember.id)
    checkFiniteVectors members
    ofResult (checkIndexConfig config)
    checkMembersFit config members
  | .destroy _ => .ok ()

/-- Every provenance or retention value the operation stores reads back as itself. -/
def checkStoredValues : IndexChange M P R → Run Unit
  | .insert members | .rebuild _ members => checkEach (fun member => mapError (fun reason =>
      .unencodableOperation ("provenance of member " ++
        reportedString (MemberIdentity.debug member.id) ++ " " ++ reason))
      (jsonRoundTrip member.provenance)) (sortedMembers members)
  | .destroy retention =>
    mapError (fun reason => .unencodableOperation ("retention " ++ reason)) (jsonRoundTrip retention)
  | .create _ | .remove _ => .ok ()

/-! ### What the checks show -/

theorem checkIdentity_stores {id : M} (h : checkIdentity id = .ok ()) :
    StoresMember MAX_CONSUMER_JSON_DEPTH id := by
  unfold checkIdentity at h
  cases hrefusal : memberIdentityRefusal id with
  | some reason => simp [hrefusal, refuse] at h
  | none =>
    simp only [hrefusal, Outcome.then_eq_ok] at h
    obtain ⟨hkey, hvalue⟩ := h
    refine ⟨jsonKeyRefusal_stores hkey,
      jsonRoundTrip_stores (Outcome.mapError_eq_ok.mp hvalue), ?_⟩
    unfold memberIdentityRefusal at hrefusal
    split at hrefusal
    · cases hrefusal
    · next item hitem =>
      split at hrefusal
      · next hisKey => exact toJson_ne_null _ hitem hisKey
      · cases hrefusal

theorem checkMemberIdentities_stores {ids : List M} (h : checkMemberIdentities ids = .ok ()) :
    ∀ id ∈ ids, StoresMember MAX_CONSUMER_JSON_DEPTH id := by
  unfold checkMemberIdentities at h
  split at h
  · cases h
  · exact fun id hid =>
      checkIdentity_stores (Outcome.mapError_eq_ok.mp (Outcome.checkEach_eq_ok.mp h id hid))

omit [SerdeJson] in
theorem duplicate_eq_none {ids : List M} (h : ids.Pairwise (· ≤ ·)) :
    duplicate ids = none ↔ ids.Nodup := by
  have hneighbours := @Sorted.neighbours_strict M M _ (fun id => id) ids h
  have hstrict : ids.Pairwise (· < ·) ↔ ids.Nodup :=
    ⟨fun hlt => hlt.imp fun hab => hab.ne, fun hne => h.imp₂ (fun _ _ => lt_of_le_of_ne) hne⟩
  rw [← hstrict, ← hneighbours]
  simp [duplicate, List.find?_eq_none]

/-- Identities that passed, in ascending order, are distinct. -/
theorem checkMemberIdentities_nodup {ids : List M} (hsorted : ids.Pairwise (· ≤ ·))
    (h : checkMemberIdentities ids = .ok ()) : ids.Nodup := by
  rw [← duplicate_eq_none hsorted]
  unfold checkMemberIdentities at h
  split at h
  · cases h
  · next hnone => exact hnone

/-- The identities a change names. -/
def IndexChange.ids : IndexChange M P R → List M
  | .insert members | .rebuild _ members => members.map IndexMember.id
  | .remove members => members
  | .create _ | .destroy _ => []

/-- The members a change stores. -/
def IndexChange.members : IndexChange M P R → List (IndexMember M P)
  | .insert members | .rebuild _ members => members
  | .create _ | .remove _ | .destroy _ => []

omit [SerdeJson] [MemberIdentity M] [ProvenanceReference P] [RetentionReference R] in
theorem IndexChange.mem_ids {change : IndexChange M P R} {member : IndexMember M P}
    (h : member ∈ change.members) : member.id ∈ change.ids := by
  cases change with
  | create config => cases h
  | insert members => exact List.mem_map_of_mem h
  | remove ids => cases h
  | rebuild config members => exact List.mem_map_of_mem h
  | destroy retention => cases h

omit [ProvenanceReference P] [RetentionReference R] in
/-- Every identity of a checked change stores. -/
theorem checkChange_stores {change : IndexChange M P R} (h : checkChange change = .ok ()) :
    ∀ id ∈ change.ids, StoresMember MAX_CONSUMER_JSON_DEPTH id := by
  have hsorted {members : List (IndexMember M P)}
      (hids : checkMemberIdentities ((sortedMembers members).map IndexMember.id) = .ok ()) :
      ∀ id ∈ members.map IndexMember.id, StoresMember MAX_CONSUMER_JSON_DEPTH id := by
    intro id hid
    have hperm := (List.perm_insertionSort (fun left right : IndexMember M P =>
      left.id ≤ right.id) members).map IndexMember.id
    exact checkMemberIdentities_stores hids id (hperm.symm.subset hid)
  cases change with
  | create config => simp [IndexChange.ids]
  | insert members =>
    rw [checkChange] at h
    split at h
    · cases h
    · exact hsorted (Outcome.then_eq_ok.mp h).1
  | remove members =>
    rw [checkChange] at h
    split at h
    · cases h
    · exact fun id hid => checkMemberIdentities_stores h id
        ((List.perm_insertionSort (· ≤ ·) members).symm.subset hid)
  | rebuild config members => exact hsorted (Outcome.then_eq_ok.mp h).1
  | destroy retention => simp [IndexChange.ids]

omit [ProvenanceReference P] [RetentionReference R] in
/-- A checked change names no identity twice. -/
theorem checkChange_nodup {change : IndexChange M P R} (h : checkChange change = .ok ()) :
    change.ids.Nodup := by
  have hmembers {members : List (IndexMember M P)}
      (hids : checkMemberIdentities ((sortedMembers members).map IndexMember.id) = .ok ()) :
      (members.map IndexMember.id).Nodup := by
    have hperm := (Sorted.perm_byKey IndexMember.id members).map IndexMember.id
    have hsorted := List.pairwise_map.mpr (Sorted.byKey_sorted IndexMember.id members)
    exact hperm.nodup_iff.mp (checkMemberIdentities_nodup hsorted hids)
  cases change with
  | create config => exact List.nodup_nil
  | insert members =>
    rw [checkChange] at h
    split at h
    · cases h
    · exact hmembers (Outcome.then_eq_ok.mp h).1
  | remove members =>
    rw [checkChange] at h
    split at h
    · cases h
    · have hperm := Sorted.perm_byKey (fun id : M => id) members
      exact hperm.nodup_iff.mp
        (checkMemberIdentities_nodup (Sorted.byKey_sorted (fun id : M => id) members) h)
  | rebuild config members => exact hmembers (Outcome.then_eq_ok.mp h).1
  | destroy retention => exact List.nodup_nil

omit [SerdeJson] [MemberIdentity M] [ProvenanceReference P] [RetentionReference R] in
/-- Members that fit an index have content its engine admits. -/
theorem checkMembersFit_content {config : IndexConfig} {members : List (IndexMember M P)}
    (h : checkMembersFit config members = .ok ()) :
    ∀ member ∈ members, checkContent config member.content = .ok () := by
  have hcontent := (Outcome.then_eq_ok.mp h).2
  exact fun member hmem => Outcome.ofResult_eq_ok.mp (Outcome.checkEach_eq_ok.mp hcontent member hmem)

omit [ProvenanceReference P] [RetentionReference R] in
theorem checkChange_rebuild {config : IndexConfig} {members : List (IndexMember M P)}
    (h : checkChange (.rebuild config members : IndexChange M P R) = .ok ()) :
    checkIndexConfig config = .ok () ∧ checkMembersFit config (sortedMembers members) = .ok () := by
  rw [checkChange] at h
  obtain ⟨-, h⟩ := Outcome.then_eq_ok.mp h
  obtain ⟨-, h⟩ := Outcome.then_eq_ok.mp h
  obtain ⟨hconfig, hfit⟩ := Outcome.then_eq_ok.mp h
  exact ⟨Outcome.ofResult_eq_ok.mp hconfig, hfit⟩

/-- Every provenance reference and every retention reference that passed stores. -/
theorem checkStoredValues_stores {change : IndexChange M P R}
    (h : checkStoredValues change = .ok ()) :
    (∀ member ∈ change.members, Stores MAX_CONSUMER_JSON_DEPTH member.provenance) ∧
    ∀ retention, change = .destroy retention → Stores MAX_CONSUMER_JSON_DEPTH retention := by
  have hmembers {members : List (IndexMember M P)} {f : IndexMember M P → String → HeuremaError}
      (hcheck : checkEach (fun member => mapError (f member) (jsonRoundTrip member.provenance))
        (sortedMembers members) = .ok ()) :
      ∀ member ∈ members, Stores MAX_CONSUMER_JSON_DEPTH member.provenance := by
    intro member hmember
    have hsorted := (List.perm_insertionSort (fun left right : IndexMember M P =>
      left.id ≤ right.id) members).symm.subset hmember
    exact jsonRoundTrip_stores
      (Outcome.mapError_eq_ok.mp (Outcome.checkEach_eq_ok.mp hcheck member hsorted))
  cases change with
  | create config => exact ⟨by simp [IndexChange.members], by simp⟩
  | insert members => exact ⟨hmembers h, by simp⟩
  | remove members => exact ⟨by simp [IndexChange.members], by simp⟩
  | rebuild config members => exact ⟨hmembers h, by simp⟩
  | destroy retention =>
    refine ⟨by simp [IndexChange.members], fun retention' heq => ?_⟩
    cases heq
    exact jsonRoundTrip_stores (Outcome.mapError_eq_ok.mp h)

/-! ## Checked and validated operations -/

section Operations

variable [Unicode] [Sha256]

variable (M P R) in
/-- An operation that passed every check that needs no index state. -/
structure CheckedOperation where
  operation : LifecycleOperation M P R
  identity : OperationIdentity
  change : checkChange operation.change = .ok ()
  digest : operationDigest operation = .ok identity.digest
  stored : checkStoredValues operation.change = .ok ()
  key : identity.key = operation.key

def CheckedOperation.check (operation : LifecycleOperation M P R) : Run (CheckedOperation M P R) :=
  match hchange : checkChange operation.change with
  | .error failure => .error failure
  | .ok () =>
    match hdigest : operationDigest operation with
    | .error error => refuse error
    | .ok digest =>
      match hstored : checkStoredValues operation.change with
      | .error failure => .error failure
      | .ok () => .ok {
          operation
          identity := { key := operation.key, digest }
          change := hchange
          digest := hdigest
          stored := hstored
          key := rfl }

variable (M P R) in
/-- A checked operation that was permitted against the index's current record. -/
structure ValidatedOperation where
  checked : CheckedOperation M P R
  fromState : IndexStateKind
  permitted : checked.operation.transition.isPermittedFrom fromState = true

/-- The checks that need the index's current configuration. -/
def checkAgainstRecord (change : IndexChange M P R) (current : IndexConfig) : Run Unit :=
  match change with
  | .insert members => checkMembersFit current (sortedMembers members)
  | .rebuild config _ => checkFamily current.family config.family
  | .create _ | .remove _ | .destroy _ => .ok ()

/-- The checks of `permit` on the record itself. -/
def checkRecord (operation : LifecycleOperation M P R) (current : Option (IndexRecord R)) :
    Run Unit :=
  match current with
  | none => .ok ()
  | some record =>
    if record.identity = operation.index then .ok ()
    else refuse (.recordMismatch operation.index record.identity)

def stateKind (current : Option (IndexRecord R)) : IndexStateKind :=
  match current with
  | none => .absent
  | some record => record.state.kind

def CheckedOperation.permit (checked : CheckedOperation M P R) (current : Option (IndexRecord R)) :
    Run (ValidatedOperation M P R) := do
  let operation := checked.operation
  checkRecord operation current
  let fromState := stateKind current
  if h : operation.transition.isPermittedFrom fromState = true then
    match current with
    | none => .ok ()
    | some record => checkAgainstRecord operation.change record.config
    return { checked, fromState, permitted := h }
  else refuse (.transitionNotPermitted operation.index operation.transition fromState)

end Operations

end Heurema
