import Heurema.Lifecycle.Sample

/-! # What a history explains

The records of a history undo its tables one by one, and every entry of a table
names the operation that wrote it. -/

namespace Heurema

open Serde Hnsw Digest

section Audit

variable {M P R : Type}

section Change

variable [LinearOrder M]

/-- The members a change touches: those it names, and for a rebuild and a destroy
every member there was. -/
def IndexChange.Touches (change : IndexChange M P R)
    (table : BTreeMap M (MemberEntry P)) (id : M) : Prop :=
  match change with
  | .create _ => False
  | .insert members => id ∈ members.map IndexMember.id
  | .remove ids => id ∈ ids
  | .rebuild _ members => id ∈ members.map IndexMember.id ∨ id ∈ table
  | .destroy _ => id ∈ table

theorem audit_isSome {change : IndexChange M P R} {table : BTreeMap M (MemberEntry P)} {id : M} :
    (change.audit id table[id]?).isSome = true ↔ change.Touches table id := by
  have hmem : id ∈ table ↔ table[id]?.isSome = true := Std.ExtTreeMap.mem_iff_isSome_getElem?
  cases change with
  | create config => simp [IndexChange.audit, IndexChange.Touches]
  | insert members =>
    rw [IndexChange.audit, IndexChange.Touches, Option.isSome_map, ← not_iff_not,
      Bool.not_eq_true, Option.isSome_eq_false_iff, Option.isNone_iff_eq_none,
      Sorted.find?_key_eq_none]
  | remove ids => by_cases hid : id ∈ ids <;> simp [IndexChange.audit, IndexChange.Touches, hid]
  | rebuild config members =>
    rw [IndexChange.Touches, hmem, IndexChange.audit]
    cases hfind : members.find? (·.id = id) with
    | none =>
      rw [or_iff_right (Sorted.find?_key_eq_none.mp hfind), Option.isSome_map]
    | some member =>
      have hid : id ∈ members.map IndexMember.id := by
        by_contra hnot
        rw [Sorted.find?_key_eq_none.mpr hnot] at hfind
        cases hfind
      simp [hid]
  | destroy retention => rw [IndexChange.Touches, hmem, IndexChange.audit, Option.isSome_map]

end Change

variable [MemberIdentity M] [ProvenanceReference P] [RetentionReference R]

/-- The tables and the configurations that the records of a history lead back to, the
last first. -/
def reconstruct : List (OperationRecord M P R) → BTreeMap M (MemberEntry P) →
    Option IndexConfig → List (BTreeMap M (MemberEntry P) × Option IndexConfig)
  | [], _, _ => []
  | record :: earlier, table, config => (table, config) ::
    reconstruct earlier (MemberChange.undoAll record.changes table) (record.previousConfig.or config)

variable [SerdeJson] [Unicode] [Sha256]

/-- The member table a history leaves. -/
def memberTable (log : List (Publication M P R)) : BTreeMap M (MemberEntry P) :=
  (currentVersion log).table

/-- The configuration of the head a history leaves. -/
def configuration (log : List (Publication M P R)) : Option IndexConfig :=
  (currentHead log).map IndexRecord.config

/-- The table and the configuration after each operation of a history. -/
def versions : List (Publication M P R) → List (BTreeMap M (MemberEntry P) × Option IndexConfig)
  | [] => []
  | publication :: log =>
    (memberTable (publication :: log), configuration (publication :: log)) :: versions log

variable [VectorMath] {index : IndexIdentity} {log : List (Publication M P R)}
  {publication : Publication M P R}

/-- A step of a history, member by member. -/
structure Audited (log : List (Publication M P R)) (publication : Publication M P R) : Prop where
  sorted : publication.next.record.changes.Pairwise fun left right => left.id < right.id
  changes : ∀ audit, audit ∈ publication.next.record.changes ↔
    publication.checked.operation.change.audit audit.id (memberTable log)[audit.id]? = some audit
  entries : ∃ target : IndexVersion,
    (∀ id : M, (memberTable (publication :: log))[id]? =
      publication.checked.operation.change.entry target id (memberTable log)[id]?) ∧
    ∀ (id : M) (member : IndexMember M P),
      publication.checked.operation.change.effect id = some (some member) →
      target.get = log.length + 1 ∧
      ∃ payload, publication.next.payload = some payload ∧ payload.version = target
  held : ∀ id : M, (currentVersion (publication :: log)).held id =
    publication.checked.operation.change.held id ((currentVersion log).held id)
  config : configuration (publication :: log) =
    publication.checked.operation.change.configAfter (configuration log)
  previousConfig : publication.next.record.previousConfig =
    publication.checked.operation.change.replacedConfig (configuration log)

/-- An operation starts from the configuration of the version it changes. -/
theorem Published.configuration (history : History index log) (h : Published index log publication) :
    configuration log = (currentVersion log).map fun current => current.2.config := by
  rcases h.start history with habsent | hactive
  · obtain ⟨rfl, -⟩ := habsent
    rfl
  · obtain ⟨record, payload, hcurrent, -⟩ := hactive
    obtain ⟨hhead, -, hconfig, -⟩ := history.readable.standing.active_record hcurrent
    rw [Heurema.configuration, hhead, hcurrent]
    exact congrArg some hconfig

theorem History.audited (h : History index (publication :: log)) : Audited log publication := by
  obtain ⟨history, hpublished⟩ := h.published
  have hconfig := hpublished.configuration history
  have hversion := @History.version _ _ _ _ _ _ _ _ _ _ _ _ h
  obtain ⟨checked, next, plan, write⟩ := publication
  have hpublishes : Publishes checked.operation checked.identity (currentVersion log) next :=
    hpublished.publishes
  cases hpublishes with
  | version hextends =>
    refine ⟨hextends.sorted, hextends.changes, ⟨_, hextends.members, ?_⟩, hextends.held, ?_, ?_⟩
    · intro id member heffect
      exact ⟨hversion rfl, _, rfl, rfl⟩
    · rw [hconfig]
      exact hextends.config
    · rw [hconfig]
      exact hextends.previousConfig
  | @destroy retention record payload hop hactive =>
    have hchange : checked.operation.change = .destroy retention := hop
    have htable : memberTable log = payload.members := by
      rw [memberTable, hactive]
      rfl
    refine ⟨?_, fun audit => ?_, ⟨payload.version, fun id => ?_, ?_⟩, fun id => ?_, ?_, ?_⟩
    · show (payload.members.toList.map _).Pairwise _
      exact List.pairwise_map.mpr payload.members.toList_sorted
    · show audit ∈ payload.members.toList.map _ ↔ checked.operation.change.audit _ _ = _
      rw [hchange, htable]
      constructor
      · intro hmem
        obtain ⟨entry, hentry, rfl⟩ := List.mem_map.mp hmem
        exact Option.map_eq_some_iff.mpr ⟨_, BTreeMap.mem_toList.mp hentry, rfl⟩
      · intro haudit
        obtain ⟨entry, hentry, heq⟩ := Option.map_eq_some_iff.mp haudit
        exact List.mem_map.mpr ⟨(audit.id, entry), BTreeMap.mem_toList.mpr hentry, heq⟩
    · show (∅ : BTreeMap M (MemberEntry P))[id]? = checked.operation.change.entry _ _ _
      rw [hchange]
      exact Std.ExtTreeMap.getElem?_empty
    · intro id member heffect
      have heffect : checked.operation.change.effect id = some (some member) := heffect
      rw [hchange] at heffect
      cases heffect
    · show none = checked.operation.change.held _ _
      rw [hchange]
      rfl
    · show some record.config = checked.operation.change.configAfter _
      rw [hchange, hconfig, hactive]
      exact congrArg some (history.readable.standing.active_record hactive).2.2.1
    · show none = checked.operation.change.replacedConfig _
      rw [hchange]
      rfl

/-! ## The audit trail -/

/-- How the record of an operation explains the version before it. -/
structure Explained (log : List (Publication M P R)) (publication : Publication M P R) : Prop where
  undone : MemberChange.undoAll publication.next.record.changes (memberTable (publication :: log)) =
    memberTable log
  config : log ≠ [] → publication.next.record.previousConfig.or
    (configuration (publication :: log)) = configuration log
  sorted : publication.next.record.changes.Pairwise fun left right => left.id < right.id
  touched : ∀ id : M, id ∈ publication.next.record.changes.map MemberChange.id ↔
    publication.checked.operation.change.Touches (memberTable log) id
  fromVersion : publication.next.record.fromVersion =
    (currentVersion log).map fun current => current.2.version
  resulting : publication.next.record.resulting = publication.next.head.state
  numbered : ∀ version, publication.next.record.resulting = .active version →
    version.get = log.length + 1

omit [VectorMath] in
/-- A record names the version it changed and the state it left. -/
theorem Published.record_linked (h : Published index log publication) :
    publication.next.record.fromVersion =
      ((currentVersion log).map fun current => current.2.version) ∧
    publication.next.record.resulting = publication.next.head.state := by
  obtain ⟨checked, next, plan, write⟩ := publication
  have hpublishes : Publishes checked.operation checked.identity (currentVersion log) next :=
    h.publishes
  cases hpublishes with
  | version hextends => exact ⟨hextends.fromVersion, rfl⟩
  | destroy hop hactive =>
    rw [hactive]
    exact ⟨rfl, rfl⟩

omit [VectorMath] in
/-- The record of a rebuild keeps the configuration it replaced, and no other operation
on an index changes it. -/
theorem Audited.config_explained (h : Audited log publication) (hlog : log ≠ [])
    (hcreate : ∀ config, publication.checked.operation.change ≠ .create config) :
    publication.next.record.previousConfig.or (configuration (publication :: log)) =
      configuration log := by
  obtain ⟨config, hsome⟩ : ∃ config, configuration log = some config := by
    cases log with
    | nil => exact absurd rfl hlog
    | cons publication log => exact ⟨_, rfl⟩
  rw [h.previousConfig, h.config]
  cases hchange : publication.checked.operation.change with
  | create config => exact absurd hchange (hcreate config)
  | insert members => rfl
  | remove ids => rfl
  | rebuild config members =>
    rw [hsome]
    rfl
  | destroy retention => rfl

theorem History.explained (h : History index (publication :: log)) :
    Explained log publication := by
  obtain ⟨history, hpublished⟩ := h.published
  obtain ⟨hfrom, hresulting⟩ := hpublished.record_linked
  have haudited := h.audited
  obtain ⟨target, hentries, -⟩ := haudited.entries
  have hundone := undoAll_eq hentries haudited.sorted haudited.changes
  refine ⟨hundone, fun hlog => ?_, haudited.sorted, fun id => ?_, hfrom, hresulting, ?_⟩
  · refine haudited.config_explained hlog fun config hcreate => ?_
    rcases hpublished.start history with habsent | hactive
    · exact hlog habsent.1
    · obtain ⟨record, payload, -, -, hother, -⟩ := hactive
      exact hother config hcreate
  · rw [← audit_isSome]
    constructor
    · intro hmem
      obtain ⟨audit, haudit, rfl⟩ := List.mem_map.mp hmem
      rw [(haudited.changes audit).mp haudit]
      rfl
    · intro hsome
      obtain ⟨audit, haudit⟩ := Option.isSome_iff_exists.mp hsome
      have hid := IndexChange.audit_id haudit
      subst hid
      exact List.mem_map_of_mem ((haudited.changes audit).mpr haudit)
  · intro version hactive
    rw [hresulting] at hactive
    exact h.active_version hactive

/-- The records that a history's bytes decode to. -/
theorem History.records (h : History index log) : List.Forall₂
    (fun (publication : Publication M P R) record => decodeOperation publication.plan.record index
      publication.checked.operation.key = .ok record)
    log (log.map fun publication => publication.next.record) := by
  induction log with
  | nil => exact .nil
  | cons publication log ih =>
    obtain ⟨history, hpublished⟩ := h.published
    have hdecodes := encodePlan_decodes hpublished.publishes history.readable.standing.sound
      hpublished.encoded
    refine .cons ?_ (ih history)
    rw [← hpublished.indexed]
    exact hdecodes.record

/-- The records lead from what a history leaves back to every version of it. -/
theorem History.reconstruct (h : History index log) : reconstruct
    (log.map fun publication => publication.next.record) (memberTable log) (configuration log) =
      versions log := by
  induction log with
  | nil => rfl
  | cons publication log ih =>
    obtain ⟨history, -⟩ := h.published
    have hexplained := h.explained
    rw [List.map_cons, Heurema.reconstruct, versions, hexplained.undone]
    congr 1
    by_cases hlog : log = []
    · subst hlog
      rfl
    · rw [hexplained.config hlog]
      exact ih history

/-- The audit trail explains every version: the stored records undo, from the active
table and the head's configuration, every table and every configuration of the index,
and each names in ascending order exactly the members its operation touched. -/
theorem audit_trail (h : History index log) :
    (∃ (head : Option (IndexRecord R)) (current : Current M P R)
      (records : List (OperationRecord M P R)),
      readCurrent index (headBytes log) (payloadBytes log) = .ok (head, current) ∧
      List.Forall₂ (fun (publication : Publication M P R) record =>
        decodeOperation publication.plan.record index publication.checked.operation.key =
          .ok record) log records ∧
      reconstruct records current.table (head.map IndexRecord.config) = versions log) ∧
    ∀ (earlier : List (Publication M P R)) (publication : Publication M P R),
      publication :: earlier <:+ log → Explained earlier publication := by
  refine ⟨⟨_, _, _, h.readable.read, h.records, h.reconstruct⟩, ?_⟩
  intro earlier publication hsuffix
  obtain ⟨later, rfl⟩ := hsuffix
  exact h.suffix.explained

end Audit

section Witness

attribute [local instance] Consumer.identity Consumer.reference SerdeJson.compact Unicode.ascii
  Consumer.sha256 Line.math

theorem audit_trail_removal : ∃ (log : List (Publication Str Str Str))
    (head : Option (IndexRecord Str)) (current : Current Str Str Str)
    (records : List (OperationRecord Str Str Str)),
    (log.map fun publication => publication.checked.operation) =
      [Consumer.removed, Consumer.inserted, Consumer.created] ∧
    readCurrent Consumer.index (headBytes log) (payloadBytes log) = .ok (head, current) ∧
    reconstruct records current.table (head.map IndexRecord.config) = versions log := by
  obtain ⟨log, record, payload, history, hoperations, -⟩ := Consumer.history
  obtain ⟨⟨head, current, records, hread, -, hreconstruct⟩, -⟩ := audit_trail history
  exact ⟨log, head, current, records, hoperations, hread, hreconstruct⟩

end Witness

/-! ## Provenance -/

section Provenance

variable {M P R : Type} [MemberIdentity M] [ProvenanceReference P] [RetentionReference R]
  [SerdeJson] [Unicode] [Sha256]

/-- The operation an entry of a table names, and what the table was before it. -/
structure Origin (log : List (Publication M P R)) (id : M) (entry : MemberEntry P)
    (later : List (Publication M P R)) (writer : Publication M P R)
    (earlier : List (Publication M P R)) : Prop where
  split : log = later ++ writer :: earlier
  introduced : entry.introduced.get = earlier.length + 1
  published : ∃ payload, writer.next.payload = some payload ∧ payload.version = entry.introduced
  wrote : ∃ member, writer.checked.operation.change.effect id = some (some member) ∧
    member.provenance = entry.provenance ∧ (currentVersion log).held id = some member.content.held
  untouched : ∀ publication ∈ later, publication.checked.operation.change.effect id = none
  supersedes : (memberTable earlier)[id]?.map MemberEntry.introduced = entry.supersedes

variable [VectorMath] {index : IndexIdentity} {log : List (Publication M P R)}

/-- Every entry of the table a history leaves has its origin there. -/
theorem History.origin (h : History index log) {id : M} {entry : MemberEntry P}
    (hentry : (memberTable log)[id]? = some entry) :
    ∃ later writer earlier, Origin log id entry later writer earlier := by
  induction log with
  | nil => cases Std.ExtTreeMap.getElem?_empty.symm.trans hentry
  | cons publication log ih =>
    obtain ⟨history, -⟩ := h.published
    obtain ⟨target, hentries, htarget⟩ := h.audited.entries
    have hheld := h.audited.held id
    rw [hentries, IndexChange.entry] at hentry
    rw [IndexChange.held] at hheld
    cases heffect : publication.checked.operation.change.effect id with
    | none =>
      rw [heffect] at hentry hheld
      obtain ⟨later, writer, earlier, horigin⟩ := ih history hentry
      refine ⟨publication :: later, writer, earlier, ?_, horigin.introduced, horigin.published, ?_, ?_,
        horigin.supersedes⟩
      · exact congrArg (publication :: ·) horigin.split
      · rw [hheld]
        exact horigin.wrote
      · intro other hmem
        rcases List.mem_cons.mp hmem with rfl | hmem
        · exact heffect
        · exact horigin.untouched other hmem
    | some effect =>
      cases effect with
      | none =>
        rw [heffect] at hentry
        cases hentry
      | some member =>
        rw [heffect] at hentry hheld
        cases hentry
        obtain ⟨hnumber, hpublished⟩ := htarget id member heffect
        exact ⟨[], publication, log, rfl, hnumber, hpublished, ⟨member, heffect, rfl, hheld⟩,
          by simp, rfl⟩

/-- Provenance and supersession are true of the history: each entry of a published version
names the operation that wrote it, which no later one touched, and the entry it
replaced, and the engine still holds what was written. -/
theorem provenance_true (h : History index log) (upTo : List (Publication M P R))
    (hupTo : upTo <:+ log) (head : Option (IndexRecord R)) (record : IndexRecord R)
    (payload : VersionPayload M P)
    (hread : readCurrent index (headBytes upTo) (payloadBytes upTo) =
      .ok (head, some (record, payload))) :
    payload.version.get = upTo.length ∧ payload.engine.memberIds = payload.members.keys ∧
    ∀ (id : M) (entry : MemberEntry P), payload.members[id]? = some entry →
      entry.introduced ≤ payload.version ∧
      payload.engine.held id = (currentVersion upTo).held id ∧
      ∃ later writer earlier, Origin upTo id entry later writer earlier := by
  obtain ⟨_, rfl⟩ := hupTo
  have history := h.suffix
  have hcurrent := history.current_of_read hread
  have hsound := history.readable.standing.sound record payload hcurrent
  refine ⟨history.version hcurrent, of_decide_eq_true hsound.members, fun id entry hentry => ?_⟩
  have hprecedes := hsound.entries id entry hentry
  simp only [VersionPayload.precedes, Bool.and_eq_true, decide_eq_true_eq] at hprecedes
  refine ⟨hprecedes.1, by rw [hcurrent]; rfl, history.origin ?_⟩
  rw [memberTable, hcurrent]
  exact hentry

end Provenance

section Witness

attribute [local instance] Consumer.identity Consumer.reference SerdeJson.compact Unicode.ascii
  Consumer.sha256 Line.math

theorem provenance_true_removal : ∃ (log : List (Publication Str Str Str))
    (payload : VersionPayload Str Str),
    (log.map fun publication => publication.checked.operation) =
      [Consumer.removed, Consumer.inserted, Consumer.created] ∧
    payload.version.get = 3 ∧ payload.engine.memberIds = payload.members.keys := by
  obtain ⟨log, record, payload, history, hoperations, hcurrent, -⟩ := Consumer.history
  have hread := history.readable.read
  rw [hcurrent] at hread
  obtain ⟨hversion, hids, -⟩ := provenance_true history log (List.suffix_refl log) _ _ _ hread
  have hlength : log.length = 3 := by simpa using congrArg List.length hoperations
  exact ⟨log, payload, hoperations, hversion.trans hlength, hids⟩

end Witness

end Heurema
