import Heurema.Lifecycle.Encoding
import Heurema.Lifecycle.Engine

/-! # What an operation publishes

The successor version's engine and member table, the new head and the audit
record, built in memory before anything is staged. Members are applied in
ascending identity order. -/

namespace Heurema

open Serde Hnsw Digest

open Outcome (refuse ofResult)

/-- What publishing one validated operation writes. Destroy publishes no version. -/
structure Successor (M P R : Type) [LinearOrder M] where
  head : IndexRecord R
  record : OperationRecord M P R
  payload : Option (VersionPayload M P)

/-- The head an operation was permitted from and the payload of its active version. -/
abbrev Current (M P R : Type) [LinearOrder M] := Option (IndexRecord R × VersionPayload M P)

/-- A new version an operation built, before it is encoded. -/
structure Built (M P : Type) [LinearOrder M] where
  fromVersion : Option IndexVersion
  target : IndexVersion
  config : IndexConfig
  engine : VersionEngine M
  members : BTreeMap M (MemberEntry P)
  changes : List (MemberChange M P)
  previousConfig : Option IndexConfig

namespace Apply

variable {M P R : Type}

/-- The entry a member gets at `target`, linked to the entry it replaces, and the
change that records it. -/
def written (member : IndexMember M P) (target : IndexVersion) (previous : Option (MemberEntry P)) :
    MemberEntry P × MemberChange M P :=
  let entry := {
    provenance := member.provenance
    introduced := target
    supersedes := previous.map MemberEntry.introduced }
  let change := match previous with
    | some previous => .replaced member.id previous
    | none => .inserted member.id
  (entry, change)

section Batch

variable [LinearOrder M] [VectorMath] [Unicode]

/-- The engine, the member table and the changes of a batch so far. -/
structure Batch (M P : Type) [LinearOrder M] where
  engine : VersionEngine M
  members : BTreeMap M (MemberEntry P)
  changes : List (MemberChange M P)

def insertMember (target : IndexVersion) (batch : Batch M P) (member : IndexMember M P) :
    Run (Batch M P) := do
  let engine ← batch.engine.insert member.id member.content
  let written := written member target batch.members[member.id]?
  return {
    engine
    members := (batch.members.erase member.id).insert member.id written.1
    changes := batch.changes ++ [written.2] }

/-- An identity that is not in the table is recorded and otherwise ignored. -/
def removeMember (batch : Batch M P) (id : M) : Run (Batch M P) :=
  match batch.members[id]? with
  | some previous => do
    let engine ← batch.engine.remove id
    return {
      engine
      members := batch.members.erase id
      changes := batch.changes ++ [.removed id previous] }
  | none => return { batch with changes := batch.changes ++ [.absentOnRemove id] }

/-- The engine, the two member tables and the changes of a rebuild so far. -/
structure Rebuild (M P : Type) [LinearOrder M] where
  engine : VersionEngine M
  previous : BTreeMap M (MemberEntry P)
  members : BTreeMap M (MemberEntry P)
  changes : BTreeMap M (MemberChange M P)

def rebuildMember (target : IndexVersion) (rebuild : Rebuild M P) (member : IndexMember M P) :
    Run (Rebuild M P) := do
  let engine ← rebuild.engine.insert member.id member.content
  let written := written member target rebuild.previous[member.id]?
  return {
    engine
    previous := rebuild.previous.erase member.id
    members := rebuild.members.insert member.id written.1
    changes := rebuild.changes.insert member.id written.2 }

/-- Records every member a rebuild left out. -/
def dropRest (previous : BTreeMap M (MemberEntry P)) (changes : BTreeMap M (MemberChange M P)) :
    BTreeMap M (MemberChange M P) :=
  previous.toList.foldl (fun changes entry =>
    changes.insert entry.1 (.dropped entry.1 entry.2)) changes

/-- `into_values`: the changes in ascending order of their identities. -/
def inOrder (changes : BTreeMap M (MemberChange M P)) : List (MemberChange M P) :=
  changes.toList.map Prod.snd

/-- Every member of a version as it is retired. -/
def retireAll (members : BTreeMap M (MemberEntry P)) : List (MemberChange M P) :=
  members.toList.map fun entry => .retired entry.1 entry.2

end Batch

variable [MemberIdentity M] [ProvenanceReference P] [RetentionReference R]

section Built

variable [VectorMath] [Unicode]

/-- Inserts or replaces `members` in the active version. -/
def insert (members : List (IndexMember M P)) (current : VersionPayload M P) :
    Run (Built M P) := do
  let target ← ofResult current.version.successor
  let batch ← (sortedMembers members).foldlM (insertMember target)
    { engine := current.engine, members := current.members, changes := [] }
  return {
    fromVersion := some current.version
    target
    config := current.config
    engine := batch.engine
    members := batch.members
    changes := batch.changes
    previousConfig := none }

/-- Removes `members` from the active version. -/
def remove (members : List M) (current : VersionPayload M P) : Run (Built M P) := do
  let target ← ofResult current.version.successor
  let batch ← (sortedIds members).foldlM removeMember
    { engine := current.engine, members := current.members, changes := [] }
  return {
    fromVersion := some current.version
    target
    config := current.config
    engine := batch.engine
    members := batch.members
    changes := batch.changes
    previousConfig := none }

/-- Builds a fresh engine under `config` that holds exactly `members`. -/
def rebuild (config : IndexConfig) (members : List (IndexMember M P))
    (current : VersionPayload M P) : Run (Built M P) := do
  let target ← ofResult current.version.successor
  let rebuild ← (sortedMembers members).foldlM (rebuildMember target)
    { engine := .empty config, previous := current.members, members := ∅, changes := ∅ }
  return {
    fromVersion := some current.version
    target
    config
    engine := rebuild.engine
    members := rebuild.members
    changes := inOrder (dropRest rebuild.previous rebuild.changes)
    previousConfig := some current.config }

end Built

/-- A destroyed head, and a record that retires every member of the last version. -/
def destroy (operation : LifecycleOperation M P R) (identity : OperationIdentity) (retention : R)
    (head : IndexRecord R) (current : VersionPayload M P) : Successor M P R :=
  let state := .destroyed current.version retention identity.key
  let changes := retireAll current.members
  { head := { identity := operation.index, config := head.config, state }
    record := .new operation.index identity .destroy (some current.version) state none changes
    payload := none }

/-- What publishing a new version writes. -/
def published (operation : LifecycleOperation M P R) (identity : OperationIdentity)
    (built : Built M P) : Successor M P R :=
  let state := .active built.target
  { head := { identity := operation.index, config := built.config, state }
    record := .new operation.index identity operation.change.transition built.fromVersion state
      built.previousConfig built.changes
    payload := some (.new operation.index built.target identity built.config built.engine
      built.members) }

variable [SerdeJson] [Unicode] [Sha256] [VectorMath]

/-- What `validated` publishes on top of `current`. -/
def successor (validated : ValidatedOperation M P R) (current : Current M P R) :
    Run (Successor M P R) :=
  let operation := validated.checked.operation
  let identity := validated.checked.identity
  match operation.change, current with
  | .create config, none => return published operation identity {
      fromVersion := none
      target := .FIRST
      config
      engine := .empty config
      members := ∅
      changes := []
      previousConfig := none }
  | .insert members, some (_, current) => do
    return published operation identity (← insert members current)
  | .remove members, some (_, current) => do
    return published operation identity (← remove members current)
  | .rebuild config members, some (_, current) => do
    return published operation identity (← rebuild config members current)
  | .destroy retention, some (record, current) =>
    return destroy operation identity retention record current
  | change, current => refuse (.transitionNotPermitted operation.index change.transition
      (if current.isSome then .active else .absent))

end Apply

end Heurema
