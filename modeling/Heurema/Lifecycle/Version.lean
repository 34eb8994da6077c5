import Heurema.Fts.Snapshot
import Heurema.Hnsw.Codec
import Heurema.Hnsw.Runs
import Heurema.Lifecycle.Validate

/-! # Versions of an index

The engine of one version, the payload that holds it with its member table, and
what a sound payload has. A sound payload stores, and its decoder gives it back. -/

namespace Heurema

open Serde Hnsw

open Outcome (refuse ofResult)

/-- The version of the encoding that every stored record carries. -/
def LIFECYCLE_FORMAT_VERSION : UInt16 := 1

/-- A `u16`. -/
instance codec_uint16 : Codec UInt16 where
  serialize n := .int .u16 n.toBitVec
  deserialize json := do return UInt16.ofNat (← readUint UInt16.size json)

theorem stores_uint16 [SerdeJson] (n : UInt16) : Stores 0 n := by
  have hnat : n.toNat < 2 ^ IntKind.u16.width := n.toNat_lt
  have hwrote := toJson_uint (show IntKind.signed .u16 = false from rfl) hnat
  have hbits : BitVec.ofNat IntKind.u16.width n.toNat = n.toBitVec :=
    BitVec.eq_of_toNat_eq ((BitVec.toNat_ofNat ..).trans (Nat.mod_eq_of_lt hnat))
  rw [hbits] at hwrote
  have hread : readUint UInt16.size (.num (.ofNat n.toNat)) = .ok n.toNat := readUint_ofNat hnat
  exact ⟨.num (.ofNat n.toNat), hwrote, Nat.le_refl 0, by simp [deserialize, hread]⟩

/-- The engine of one version, of the family its configuration names. -/
inductive VersionEngine (M : Type) [LinearOrder M] where
  | vector (engine : HnswIndex M)
  | fts (engine : Bm25Index M)

namespace VersionEngine

section Engine

variable {M P : Type} [LinearOrder M]

/-- An engine with no members, built under `config`. -/
def empty : IndexConfig → VersionEngine M
  | .vector hnsw => vector (.new hnsw)
  | .fts config => fts (.new config)

def family : VersionEngine M → SnapshotFamily
  | vector _ => .vector
  | fts _ => .fts

def isBuiltUnder (engine : VersionEngine M) (config : IndexConfig) : Bool :=
  match engine, config with
  | vector engine, .vector hnsw => engine.config = hnsw
  | fts engine, .fts config => engine.config = config
  | vector _, .fts _ | fts _, .vector _ => false

/-- The members, in ascending order. -/
def memberIds : VersionEngine M → List M
  | vector engine => engine.memberIds
  | fts engine => engine.memberIds

/-- Whether the engine holds exactly the members that `table` names. -/
def holdsExactly (engine : VersionEngine M) (table : BTreeMap M (MemberEntry P)) : Bool :=
  engine.memberIds = table.keys

variable [VectorMath] [Unicode]

/-- Inserts or replaces a member, through the engine's own checks. -/
def insert (engine : VersionEngine M) (id : M) (content : MemberContent) :
    Run (VersionEngine M) :=
  match engine, content with
  | vector engine, .vector components => do return vector (← engine.insert id components)
  | fts engine, .document document => do return fts (← engine.insert id document)
  | vector _, .document _ | fts _, .vector _ =>
    refuse (.familyMismatch engine.family content.family)

def remove (engine : VersionEngine M) (id : M) : Run (VersionEngine M) :=
  match engine with
  | vector engine => do return vector (← engine.remove id)
  | fts engine => do return fts (← engine.remove id)

omit [VectorMath] [Unicode] in
/-- What the engines' decoders check. -/
def Sound : VersionEngine M → Prop
  | vector engine => Inv engine
  | fts engine => engine.Sound

end Engine

section Codec

variable {M : Type} [MemberIdentity M] [SerdeJson]

def read (json : Json) : Outcome String (VersionEngine M) := do
  let tagged ← readVariant json
  if tagged.1 = "Vector".toList then return vector (← deserialize (← readContent tagged.2))
  else if tagged.1 = "Fts".toList then return fts (← deserialize (← readContent tagged.2))
  else refuse "unknown variant"

instance : Codec (VersionEngine M) where
  serialize
    | vector engine => .newtypeVariant "Vector".toList (serialize engine)
    | fts engine => .newtypeVariant "Fts".toList (serialize engine)
  deserialize := read

theorem stores {engine : VersionEngine M} {d : Nat} (h : engine.Sound)
    (hids : ∀ id ∈ engine.memberIds, StoresMember d id) : Stores (d + 6) engine := by
  cases engine with
  | vector engine =>
    have hengine : Stores (d + 5) engine := HnswIndex.stores h fun id hid => hids id (by
      simpa [memberIds, HnswIndex.memberIds] using hid)
    refine .newtypeVariant hengine rfl fun json hread => ?_
    show (do return vector (← deserialize json)) = _
    rw [hread]
    rfl
  | fts engine =>
    have hengine : Stores 5 engine := Bm25Index.stores h fun id hid => (hids id (by
      simpa [memberIds, Bm25Index.memberIds] using hid)).key
    refine (Stores.newtypeVariant hengine rfl fun json hread => ?_).mono (by omega)
    show (do return fts (← deserialize json)) = _
    rw [hread]
    rfl

end Codec

end VersionEngine

/-! ## Payloads -/

/-- A decoded record that contradicts its key or its own invariants. -/
def corrupt (reason : String) : HeuremaError := .corruptSnapshot (.inconsistentRecord reason)

/-- The version before `version`; none for version 1. -/
def predecessorOf (version : IndexVersion) : Option IndexVersion :=
  (IndexVersion.tryFrom (version.get - 1) (Nat.lt_of_le_of_lt (Nat.sub_le _ _) version.fits)).toOption

/-- One version of a named index: its engine and its member table. -/
structure VersionPayload (M P : Type) [LinearOrder M] where
  formatVersion : UInt16
  index : IndexIdentity
  version : IndexVersion
  predecessor : Option IndexVersion
  operation : OperationIdentity
  config : IndexConfig
  engine : VersionEngine M
  members : BTreeMap M (MemberEntry P)

/-- A payload as stored, before its invariants are checked. -/
structure RawVersionPayload (M P : Type) [LinearOrder M] where
  formatVersion : UInt16
  index : IndexIdentity
  version : IndexVersion
  predecessor : Option IndexVersion
  operation : OperationIdentity
  config : IndexConfig
  engine : VersionEngine M
  members : BTreeMap M (MemberEntry P)

namespace VersionPayload

section Payload

variable {M P : Type} [LinearOrder M]

/-- A payload for `version`, whose predecessor is the version before it. -/
def new (index : IndexIdentity) (version : IndexVersion) (operation : OperationIdentity)
    (config : IndexConfig) (engine : VersionEngine M) (members : BTreeMap M (MemberEntry P)) :
    VersionPayload M P where
  formatVersion := LIFECYCLE_FORMAT_VERSION
  index
  version
  predecessor := predecessorOf version
  operation
  config
  engine
  members

def toRaw (payload : VersionPayload M P) : RawVersionPayload M P := { payload with }

/-- Whether an entry names no version after `version`, and supersedes an earlier one. -/
def precedes (version : IndexVersion) (entry : MemberEntry P) : Bool :=
  entry.introduced ≤ version && entry.supersedes.all (· < entry.introduced)

def tryFrom (raw : RawVersionPayload M P) : Except HeuremaError (VersionPayload M P) :=
  if raw.formatVersion ≠ LIFECYCLE_FORMAT_VERSION then
    .error (.unsupportedSnapshotVersion raw.formatVersion.toNat LIFECYCLE_FORMAT_VERSION.toNat)
  else if !raw.engine.isBuiltUnder raw.config then
    .error (corrupt "version payload engine was built under another configuration")
  else if !raw.engine.holdsExactly raw.members then
    .error (corrupt "version payload engine members differ from its member table")
  else if raw.predecessor ≠ predecessorOf raw.version then
    .error (corrupt "version payload predecessor is not the version before it")
  else if !raw.members.toList.all fun entry => precedes raw.version entry.2 then
    .error (corrupt
      "version payload member entry names a version after the one it belongs to")
  else .ok { raw with }

end Payload

variable {M P : Type} [MemberIdentity M] [ProvenanceReference P]

section Codec

variable [SerdeJson] [Unicode]

def FIELDS : List Str :=
  ["format_version".toList, "index".toList, "version".toList, "predecessor".toList,
    "operation".toList, "config".toList, "engine".toList, "members".toList]

/-- The member table, which names each member once. -/
def readTable (found : List (Option Json)) (i : Nat) :
    Outcome String (BTreeMap M (MemberEntry P)) :=
  match found[i]?.join with
  | some json => readMap (fun id => "member table names " ++
      reportedString (MemberIdentity.debug id) ++ " twice") deserialize json
  | none => refuse "missing field"

/-- A payload is written by its `Serialize`, and read back before its invariants
are checked. -/
instance : Codec (RawVersionPayload M P) where
  serialize payload := record "VersionPayload".toList FIELDS [serialize payload.formatVersion,
    serialize payload.index, serialize payload.version, serialize payload.predecessor,
    serialize payload.operation, serialize payload.config, serialize payload.engine,
    serialize payload.members]
  deserialize := readRecord FIELDS fun found => do
    return {
      formatVersion := ← requiredField found 0
      index := ← requiredField found 1
      version := ← requiredField found 2
      predecessor := ← optionalField found 3
      operation := ← requiredField found 4
      config := ← requiredField found 5
      engine := ← requiredField found 6
      members := ← readTable found 7 }

end Codec

/-! ### Sound payloads -/

/-- What the decoder checks of a payload, and what its parts were checked for when
they entered it. -/
structure Sound [SerdeJson] (payload : VersionPayload M P) : Prop where
  format : payload.formatVersion = LIFECYCLE_FORMAT_VERSION
  engine : payload.engine.Sound
  config : checkIndexConfig payload.config = .ok ()
  built : payload.engine.isBuiltUnder payload.config = true
  members : payload.engine.holdsExactly payload.members = true
  predecessor : payload.predecessor = predecessorOf payload.version
  entries : ∀ (id : M) (entry : MemberEntry P), payload.members[id]? = some entry →
    precedes payload.version entry = true
  ids : ∀ id ∈ payload.members, StoresMember MAX_CONSUMER_JSON_DEPTH id
  provenance : ∀ (id : M) (entry : MemberEntry P), payload.members[id]? = some entry →
    Stores MAX_CONSUMER_JSON_DEPTH entry.provenance

variable [SerdeJson]

/-- The decoder accepts a sound payload. -/
theorem Sound.tryFrom {payload : VersionPayload M P} (h : payload.Sound) :
    tryFrom payload.toRaw = .ok payload := by
  have hentries : (payload.members.toList.all fun entry => precedes payload.version entry.2) = true :=
    List.all_eq_true.mpr fun entry hmem => h.entries entry.1 entry.2 (BTreeMap.mem_toList.mp hmem)
  simp only [VersionPayload.tryFrom, toRaw, h.format, h.built, h.members, h.predecessor, hentries]
  simp [← h.format, ← h.predecessor]

theorem Sound.ids_engine {payload : VersionPayload M P} (h : payload.Sound) {id : M} :
    id ∈ payload.engine.memberIds ↔ id ∈ payload.members := by
  have hkeys : payload.engine.memberIds = payload.members.keys := of_decide_eq_true h.members
  rw [hkeys, Std.ExtTreeMap.mem_keys]

theorem Sound.stores [Unicode] {payload : VersionPayload M P} (h : payload.Sound) :
    Stores (MAX_CONSUMER_JSON_DEPTH + 7) payload.toRaw := by
  obtain ⟨format, hformat⟩ := stores_uint16 payload.formatVersion
  obtain ⟨index, hindex⟩ := payload.index.stores
  obtain ⟨version, hversion⟩ := payload.version.stores
  obtain ⟨predecessor, hpredecessor⟩ : Stores 0 payload.predecessor :=
    .option payload.predecessor fun version _ => ⟨version.stores, version.present⟩
  obtain ⟨operation, hoperation⟩ := payload.operation.stores
  obtain ⟨config, hconfig⟩ := payload.config.stores
  obtain ⟨engine, hengine⟩ := VersionEngine.stores h.engine fun id hid =>
    h.ids id (h.ids_engine.mp hid)
  have hids : ∀ id ∈ payload.members, StoresKey id := fun id hid => (h.ids id hid).key
  have hentries : ∀ (id : M) (entry : MemberEntry P), payload.members[id]? = some entry →
      Stores (MAX_CONSUMER_JSON_DEPTH + 1) entry :=
    fun id entry hentry => MemberEntry.stores (h.provenance id entry hentry)
  obtain ⟨members, hmembers⟩ := Stores.map hids hentries
  have htable : readTable [some format, some index, some version, some predecessor,
      some operation, some config, some engine, some members] 7 = .ok payload.members := by
    obtain ⟨json, hjson, -, hread⟩ := serializeMap_stores (fun id => "member table names " ++
      reportedString (MemberIdentity.debug id) ++ " twice") hids hentries
    have hsame : json = members := Except.ok.inj (hjson.symm.trans hmembers.wrote)
    exact hsame ▸ hread
  have hitems : Items (MAX_CONSUMER_JSON_DEPTH + 6) _ _ :=
    .cons hformat (.cons hindex (.cons hversion (.cons hpredecessor (.cons hoperation
      (.cons hconfig (.cons hengine (.cons hmembers .nil)))))))
  refine .record rfl rfl hitems rfl (by decide) (by decide) ?_
  simp [requiredField, optionalField, hformat.read, hindex.read, hversion.read,
    hpredecessor.read, hoperation.read, hconfig.read, hengine.read, htable, toRaw]

end VersionPayload

end Heurema
