import Heurema.Lifecycle.Scalars

/-! # Operations and records

What a caller asks to change about a named index, and the records that the
lifecycle keeps of it, with their `serde` impls. -/

namespace Heurema

open Serde Hnsw

/-- The consumer-owned identity of a member. -/
class MemberIdentity (M : Type) extends LinearOrder M, KeyCodec M where
  /-- The `Debug` form. -/
  debug : M → Str

/-- A consumer-owned value: a provenance or a retention reference. -/
class Reference (T : Type) extends Codec T where
  decEq : DecidableEq T

instance decidableEq_reference {T : Type} [Reference T] : DecidableEq T := Reference.decEq

abbrev ProvenanceReference := Reference

abbrev RetentionReference := Reference

inductive MemberContent where
  | vector (components : List F32)
  | document (text : Str)
deriving DecidableEq

def MemberContent.family : MemberContent → SnapshotFamily
  | vector _ => .vector
  | document _ => .fts

structure IndexMember (M P : Type) where
  id : M
  provenance : P
  content : MemberContent

inductive IndexConfig where
  | vector (hnsw : HnswConfig)
  | fts (config : FtsConfig)
deriving DecidableEq

def IndexConfig.family : IndexConfig → SnapshotFamily
  | vector _ => .vector
  | fts _ => .fts

inductive IndexChange (M P R : Type) where
  | create (config : IndexConfig)
  | insert (members : List (IndexMember M P))
  | remove (members : List M)
  | rebuild (config : IndexConfig) (members : List (IndexMember M P))
  | destroy (retention : R)

def IndexChange.transition {M P R : Type} : IndexChange M P R → LifecycleTransition
  | create _ => .create
  | insert _ => .insert
  | remove _ => .remove
  | rebuild _ _ => .rebuild
  | destroy _ => .destroy

structure LifecycleOperation (M P R : Type) where
  index : IndexIdentity
  key : OperationKey
  change : IndexChange M P R

def LifecycleOperation.transition {M P R : Type} (operation : LifecycleOperation M P R) :
    LifecycleTransition :=
  operation.change.transition

/-- The permission table. -/
def LifecycleTransition.isPermittedFrom : LifecycleTransition → IndexStateKind → Bool
  | create, .absent => true
  | insert, .active | remove, .active | rebuild, .active | destroy, .active => true
  | publish, .absent | publish, .active => true
  | recover, .absent | recover, .active | recover, .destroyed => true
  | create, .active | create, .destroyed => false
  | insert, .absent | remove, .absent | rebuild, .absent | destroy, .absent => false
  | insert, .destroyed | remove, .destroyed | rebuild, .destroyed | destroy, .destroyed => false
  | publish, .destroyed => false

inductive IndexState (R : Type) where
  | active (version : IndexVersion)
  | destroyed (lastVersion : IndexVersion) (retention : R) (operation : OperationKey)
deriving DecidableEq

def IndexState.kind {R : Type} : IndexState R → IndexStateKind
  | active _ => .active
  | destroyed _ _ _ => .destroyed

structure IndexRecord (R : Type) where
  identity : IndexIdentity
  config : IndexConfig
  state : IndexState R
deriving DecidableEq

/-- One member of a version: its provenance, the version that introduced it and
the one whose entry it replaced. -/
structure MemberEntry (P : Type) where
  provenance : P
  introduced : IndexVersion
  supersedes : Option IndexVersion
deriving DecidableEq

/-- How one operation changed one member, with the entry it displaced. -/
inductive MemberChange (M P : Type) where
  | inserted (id : M)
  | replaced (id : M) (previous : MemberEntry P)
  | removed (id : M) (previous : MemberEntry P)
  | absentOnRemove (id : M)
  | dropped (id : M) (previous : MemberEntry P)
  | retired (id : M) (previous : MemberEntry P)
deriving DecidableEq

/-! ## Encodings -/

variable [SerdeJson] {d : Nat}

namespace IndexConfig

def read (json : Json) : Outcome String IndexConfig := do
  let tagged ← readVariant json
  if tagged.1 = "Vector".toList then return vector (← deserialize (← readContent tagged.2))
  else if tagged.1 = "Fts".toList then return fts (← deserialize (← readContent tagged.2))
  else Outcome.refuse "unknown variant"

instance : Codec IndexConfig where
  serialize
    | vector hnsw => .newtypeVariant "Vector".toList (serialize hnsw)
    | fts config => .newtypeVariant "Fts".toList (serialize config)
  deserialize := read

theorem stores (config : IndexConfig) : Stores 5 config := by
  cases config with
  | vector hnsw =>
    refine (Stores.newtypeVariant hnsw.stores rfl fun json hread => ?_).mono (by omega)
    show (do return vector (← deserialize json)) = _
    rw [hread]
    rfl
  | fts config =>
    refine .newtypeVariant config.stores rfl fun json hread => ?_
    show (do return fts (← deserialize json)) = _
    rw [hread]
    rfl

theorem present (config : IndexConfig) : Present config := by
  cases config with
  | vector hnsw => exact present_newtypeVariant rfl
  | fts config => exact present_newtypeVariant rfl

end IndexConfig

variable {M P R : Type}

namespace MemberEntry

variable [ProvenanceReference P]

def FIELDS : List Str := ["provenance".toList, "introduced".toList, "supersedes".toList]

instance : Codec (MemberEntry P) where
  serialize entry := record "MemberEntry".toList FIELDS
    [serialize entry.provenance, serialize entry.introduced, serialize entry.supersedes]
  deserialize := readRecord FIELDS fun found => do
    return {
      provenance := ← requiredField found 0
      introduced := ← requiredField found 1
      supersedes := ← optionalField found 2 }

theorem stores {entry : MemberEntry P} (h : Stores d entry.provenance) :
    Stores (d + 1) entry := by
  obtain ⟨provenance, hprovenance⟩ := h
  obtain ⟨introduced, hintroduced⟩ := entry.introduced.stores
  obtain ⟨supersedes, hsupersedes⟩ := Stores.option entry.supersedes
    fun version _ => ⟨version.stores, version.present⟩
  refine .record rfl rfl (.cons hprovenance (.cons hintroduced (.cons hsupersedes .nil))) rfl
    (by decide) (by decide) ?_
  simp [requiredField, optionalField, hprovenance.read, hintroduced.read, hsupersedes.read]

end MemberEntry

namespace MemberChange

variable [MemberIdentity M] [ProvenanceReference P]

def id : MemberChange M P → M
  | inserted id | replaced id _ | removed id _ | absentOnRemove id | dropped id _ | retired id _ => id

def ALONE : List Str := ["id".toList]

def DISPLACED : List Str := ["id".toList, "previous".toList]

def readAlone (build : M → MemberChange M P) : Json → Outcome String (MemberChange M P) :=
  readRecord ALONE fun found => do return build (← requiredField found 0)

def readDisplaced (build : M → MemberEntry P → MemberChange M P) :
    Json → Outcome String (MemberChange M P) :=
  readRecord DISPLACED fun found => do
    return build (← requiredField found 0) (← requiredField found 1)

def read (json : Json) : Outcome String (MemberChange M P) := do
  let tagged ← readVariant json
  let content ← readContent tagged.2
  if tagged.1 = "Inserted".toList then readAlone inserted content
  else if tagged.1 = "Replaced".toList then readDisplaced replaced content
  else if tagged.1 = "Removed".toList then readDisplaced removed content
  else if tagged.1 = "AbsentOnRemove".toList then readAlone absentOnRemove content
  else if tagged.1 = "Dropped".toList then readDisplaced dropped content
  else if tagged.1 = "Retired".toList then readDisplaced retired content
  else Outcome.refuse "unknown variant"

instance : Codec (MemberChange M P) where
  serialize
    | inserted id => .structVariant "Inserted".toList (ALONE.zip [serialize id])
    | replaced id previous =>
      .structVariant "Replaced".toList (DISPLACED.zip [serialize id, serialize previous])
    | removed id previous =>
      .structVariant "Removed".toList (DISPLACED.zip [serialize id, serialize previous])
    | absentOnRemove id => .structVariant "AbsentOnRemove".toList (ALONE.zip [serialize id])
    | dropped id previous =>
      .structVariant "Dropped".toList (DISPLACED.zip [serialize id, serialize previous])
    | retired id previous =>
      .structVariant "Retired".toList (DISPLACED.zip [serialize id, serialize previous])
  deserialize := read

/-- The consumer's parts of a change store. -/
def Storable (d : Nat) : MemberChange M P → Prop
  | inserted id | absentOnRemove id => Stores d id
  | replaced id previous | removed id previous | dropped id previous | retired id previous =>
    Stores d id ∧ Stores d previous.provenance

theorem stores_alone {change : MemberChange M P} {id : M} {variant : Str}
    {build : M → MemberChange M P} (h : Stores d id)
    (hserialize : serialize change = .structVariant variant (ALONE.zip [serialize id]))
    (hread : ∀ content, deserialize (.obj [(variant, content)]) = readAlone build content)
    (hbuild : build id = change) : Stores (d + 3) change := by
  obtain ⟨json, hjson⟩ := h
  refine (Stores.structVariant hserialize hread (.cons hjson .nil) rfl (by decide) ?_).mono
    (Nat.le_succ (d + 2))
  simp [requiredField, hjson.read, hbuild]

theorem stores_displaced {change : MemberChange M P} {id : M} {previous : MemberEntry P}
    {variant : Str} {build : M → MemberEntry P → MemberChange M P}
    (h : Stores d id ∧ Stores d previous.provenance)
    (hserialize : serialize change =
      .structVariant variant (DISPLACED.zip [serialize id, serialize previous]))
    (hread : ∀ content, deserialize (.obj [(variant, content)]) = readDisplaced build content)
    (hbuild : build id previous = change) : Stores (d + 3) change := by
  obtain ⟨json, hjson⟩ := h.1
  obtain ⟨entry, hentry⟩ := MemberEntry.stores h.2
  refine .structVariant hserialize hread (.cons hjson (.cons hentry .nil)) rfl (by decide) ?_
  simp [requiredField, hjson.read, hentry.read, hbuild]

theorem stores {change : MemberChange M P} (h : change.Storable d) : Stores (d + 3) change := by
  cases change with
  | inserted id => exact stores_alone h rfl (fun _ => rfl) rfl
  | replaced id previous => exact stores_displaced h rfl (fun _ => rfl) rfl
  | removed id previous => exact stores_displaced h rfl (fun _ => rfl) rfl
  | absentOnRemove id => exact stores_alone h rfl (fun _ => rfl) rfl
  | dropped id previous => exact stores_displaced h rfl (fun _ => rfl) rfl
  | retired id previous => exact stores_displaced h rfl (fun _ => rfl) rfl

end MemberChange

variable [Unicode]

namespace IndexState

variable [RetentionReference R]

def ACTIVE : List Str := ["version".toList]

def DESTROYED : List Str := ["last_version".toList, "retention".toList, "operation".toList]

def read (json : Json) : Outcome String (IndexState R) := do
  let tagged ← readVariant json
  if tagged.1 = "Active".toList then
    readRecord ACTIVE (fun found => do return active (← requiredField found 0)) (← readContent tagged.2)
  else if tagged.1 = "Destroyed".toList then
    readRecord DESTROYED (fun found => do
      return destroyed (← requiredField found 0) (← requiredField found 1) (← requiredField found 2))
      (← readContent tagged.2)
  else Outcome.refuse "unknown variant"

instance : Codec (IndexState R) where
  serialize
    | active version => .structVariant "Active".toList (ACTIVE.zip [serialize version])
    | destroyed lastVersion retention operation => .structVariant "Destroyed".toList
      (DESTROYED.zip [serialize lastVersion, serialize retention, serialize operation])
  deserialize := read

/-- The consumer's part of a state stores. -/
def Storable (d : Nat) : IndexState R → Prop
  | active _ => True
  | destroyed _ retention _ => Stores d retention

theorem stores {state : IndexState R} (h : state.Storable d) : Stores (d + 2) state := by
  cases state with
  | active version =>
    obtain ⟨version, hversion⟩ := version.stores
    exact .structVariant rfl (fun _ => rfl) (.cons hversion .nil) rfl (by decide)
      (by simp [requiredField, hversion.read])
  | destroyed lastVersion retention operation =>
    obtain ⟨last, hlast⟩ := lastVersion.stores
    obtain ⟨kept, hkept⟩ : Stores d retention := h
    obtain ⟨key, hkey⟩ := operation.stores
    exact .structVariant rfl (fun _ => rfl) (.cons hlast (.cons hkept (.cons hkey .nil))) rfl
      (by decide) (by simp [requiredField, hlast.read, hkept.read, hkey.read])

end IndexState

namespace IndexRecord

variable [RetentionReference R]

def FIELDS : List Str := ["identity".toList, "config".toList, "state".toList]

instance : Codec (IndexRecord R) where
  serialize record := Serde.record "IndexRecord".toList FIELDS
    [serialize record.identity, serialize record.config, serialize record.state]
  deserialize := readRecord FIELDS fun found => do
    return {
      identity := ← requiredField found 0
      config := ← requiredField found 1
      state := ← requiredField found 2 }

theorem stores {record : IndexRecord R} (h : record.state.Storable d) :
    Stores (d + 6) record := by
  obtain ⟨identity, hidentity⟩ := record.identity.stores
  obtain ⟨config, hconfig⟩ := record.config.stores
  obtain ⟨state, hstate⟩ := IndexState.stores h
  have hitems : Items (d + 5) _ _ := .cons hidentity (.cons hconfig (.cons hstate .nil))
  exact .record rfl rfl hitems rfl (by decide) (by decide)
    (by simp [requiredField, hidentity.read, hconfig.read, hstate.read])

end IndexRecord

end Heurema
