import Heurema.Lifecycle.Audit

/-! # Chains of an index

A chain is the operations an index published over whatever payloads were staged under their
markers, the last first. A marker names its operation by a digest alone, so that a chain is
a history only as far as digests tell operations apart. Its heads and its version numbers do
not depend on that. -/

namespace Heurema

open Serde Hnsw Digest

open Outcome (refuse ofResult)

/-- Whether a write stages a version. -/
def PlannedWrite.Names (write : PlannedWrite) (version : IndexVersion) : Prop :=
  match write with
  | .version _ staged _ _ => staged = version
  | .destroy _ _ => False

instance (write : PlannedWrite) (version : IndexVersion) : Decidable (write.Names version) := by
  unfold PlannedWrite.Names
  cases write <;> infer_instance

section Definitions

variable {M P R : Type} [MemberIdentity M] [ProvenanceReference P] [RetentionReference R]
  [SerdeJson] [Unicode] [Sha256]

variable (M P R) in
/-- A published operation and the payload that was staged when it was published. -/
structure Commit extends Publication M P R where
  stored : Option Bytes

namespace Chain

/-- The bytes of the head. -/
def head (log : List (Commit M P R)) : Option Bytes :=
  log.head?.map fun commit => commit.plan.head

/-- The bytes that were staged when a version was published. -/
def published (log : List (Commit M P R)) (version : IndexVersion) : Option Bytes :=
  log.findSome? fun commit => if commit.write.Names version then commit.stored else none

/-- The bytes of a published version, until a destroy removes every payload. -/
def payload (log : List (Commit M P R)) (version : IndexVersion) : Option Bytes :=
  match log with
  | [] => none
  | commit :: earlier =>
    match commit.write with
    | .destroy _ _ => none
    | .version _ _ _ _ => published (commit :: earlier) version

/-- The bytes of the record stored under a key. -/
def record (log : List (Commit M P R)) (key : OperationKey) : Option Bytes :=
  (log.find? fun commit => commit.checked.operation.key = key).map fun commit =>
    commit.plan.record

end Chain

variable [VectorMath] (issued : LifecycleOperation M P R → Prop)

/-- An issued operation that a head and payloads let through to its encoded writes. -/
structure Builds (index : IndexIdentity) (head : Option Bytes)
    (payload : IndexVersion → Option Bytes) (publication : Publication M P R) : Prop where
  issued : issued publication.checked.operation
  indexed : publication.checked.operation.index = index
  built : ∃ record current validated, readCurrent index head payload = .ok (record, current) ∧
    publication.checked.permit record = .ok validated ∧
    Apply.successor validated current = .ok publication.next ∧
    encodePlan publication.next head publication.checked.operation =
      .ok (publication.plan, publication.write)

/-- A marker and a payload that some operation stages on a chain. -/
def Stageable (index : IndexIdentity) (log : List (Commit M P R)) (version : IndexVersion)
    (marker payload : Bytes) : Prop :=
  ∃ twin : Publication M P R, Builds issued index (Chain.head log) (Chain.payload log) twin ∧
    twin.write = .version (Chain.head log) version marker payload

/-- What was staged when a commit was published has its version and its marker. -/
def Commit.Found (index : IndexIdentity) (log : List (Commit M P R)) (commit : Commit M P R) :
    Prop :=
  match commit.write with
  | .version _ version marker _ =>
    ∃ payload, commit.stored = some payload ∧
      Stageable issued index log version marker payload
  | .destroy _ _ => commit.stored = none

/-- The operations an index published, the last first, each under a key of its own. -/
inductive Chain (index : IndexIdentity) : List (Commit M P R) → Prop where
  | nil : Chain index []
  | commit {log : List (Commit M P R)} {commit : Commit M P R} (chain : Chain index log)
      (fresh : ∀ earlier ∈ log, earlier.checked.operation.key ≠ commit.checked.operation.key)
      (builds : Builds issued index (Chain.head log) (Chain.payload log) commit.toPublication)
      (found : commit.Found issued index log) : Chain index (commit :: log)

end Definitions

variable {M P R : Type} [MemberIdentity M] [ProvenanceReference P] [RetentionReference R]
  [SerdeJson] [Unicode] [Sha256] {issued : LifecycleOperation M P R → Prop}
  {index : IndexIdentity} {log : List (Commit M P R)} {publication : Publication M P R}

/-! ## What a chain leaves -/

/-- The head of a chain and the payload it names. -/
inductive Top (index : IndexIdentity) (log : List (Commit M P R)) : Prop where
  | absent (empty : log = [])
  | active {head bytes : Bytes} {config : IndexConfig} {version : IndexVersion}
      {payload : VersionPayload M P} (headed : Chain.head log = some head)
      (decoded : decodeHead head index =
        .ok (⟨index, config, .active version⟩ : IndexRecord R))
      (numbered : version.get = log.length) (stored : Chain.payload log version = some bytes)
      (read : decodePayload bytes index version = .ok payload) (sound : payload.Sound)
  | destroyed {head : Bytes} {config : IndexConfig} {last : IndexVersion} {retention : R}
      {key : OperationKey} (headed : Chain.head log = some head)
      (decoded : decodeHead head index =
        .ok (⟨index, config, .destroyed last retention key⟩ : IndexRecord R))
      (numbered : last.get + 1 = log.length) (none : ∀ version, Chain.payload log version = none)
      (stores : Stores MAX_CONSUMER_JSON_DEPTH retention)

omit [Sha256] [RetentionReference R] in
theorem decodePayload_named {bytes : Bytes} {version : IndexVersion} {payload : VersionPayload M P}
    (h : decodePayload bytes index version = .ok payload) :
    payload.index = index ∧ payload.version = version := by
  rw [decodePayload] at h
  obtain ⟨_, h⟩ := Outcome.then_eq_ok.mp h
  obtain ⟨raw, _, h⟩ := Outcome.bind_eq_ok.mp h
  obtain ⟨decoded, _, h⟩ := Outcome.bind_eq_ok.mp h
  split at h
  · cases h
  · next hnamed =>
    cases h
    simpa [not_or] using hnamed

omit [Sha256] in
theorem decodeOperation_named {bytes : Bytes} {key : OperationKey} {record : OperationRecord M P R}
    (h : decodeOperation bytes index key = .ok record) :
    record.index = index ∧ record.operation.key = key := by
  rw [decodeOperation] at h
  obtain ⟨_, h⟩ := Outcome.then_eq_ok.mp h
  obtain ⟨decoded, _, h⟩ := Outcome.bind_eq_ok.mp h
  split at h
  · cases h
  · next hnamed =>
    cases h
    simpa [not_or] using hnamed

/-- What is read of a chain agrees with itself. -/
theorem Top.standing (h : Top index log) {record : Option (IndexRecord R)}
    {current : Current M P R}
    (hread : readCurrent index (Chain.head log) (Chain.payload log) = .ok (record, current)) :
    Standing index record current := by
  cases h with
  | absent hempty =>
    subst hempty
    cases hread
    exact .absent
  | @active head bytes config version payload hhead hdecoded hnumbered hstored hpayload hsound =>
    obtain ⟨hindex, hversion⟩ := decodePayload_named hpayload
    simp only [readCurrent, hhead, hdecoded, Outcome.ok_bind, hstored, decodeActive, hpayload]
      at hread
    split at hread
    · cases hread
    · next hconfig =>
      cases hread
      obtain rfl : payload.config = config := not_not.mp hconfig
      obtain rfl := hversion
      exact .active hsound hindex
  | destroyed hhead hdecoded hnumbered hnone hstores =>
    simp only [readCurrent, hhead, hdecoded, Outcome.ok_bind] at hread
    cases hread
    exact .destroyed hstores

/-- The active version that is read of a chain is its last one. -/
theorem Top.read_active (h : Top index log) {record : Option (IndexRecord R)}
    {active : IndexRecord R} {payload : VersionPayload M P}
    (hread : readCurrent index (Chain.head log) (Chain.payload log) =
      .ok (record, some (active, payload))) :
    payload.version.get = log.length ∧ ∃ head config, Chain.head log = some head ∧
      decodeHead head index = .ok (⟨index, config, .active payload.version⟩ : IndexRecord R) := by
  cases h with
  | absent hempty =>
    subst hempty
    cases hread
  | @active head bytes config version stored hhead hdecoded hnumbered hstored hpayload hsound =>
    obtain ⟨hindex, hversion⟩ := decodePayload_named hpayload
    simp only [readCurrent, hhead, hdecoded, Outcome.ok_bind, hstored, decodeActive, hpayload]
      at hread
    split at hread
    · cases hread
    · cases hread
      rw [hversion]
      exact ⟨hnumbered, head, config, hhead, hdecoded⟩
  | destroyed hhead hdecoded hnumbered hnone hstores =>
    simp only [readCurrent, hhead, hdecoded, Outcome.ok_bind] at hread
    cases hread

theorem Top.read_absent (h : Top index log) {current : Current M P R}
    (hread : readCurrent index (Chain.head log) (Chain.payload log) = .ok (none, current)) :
    log = [] := by
  cases h with
  | absent hempty => exact hempty
  | active hhead hdecoded hnumbered hstored hpayload hsound =>
    simp only [readCurrent, hhead, hdecoded, Outcome.ok_bind, hstored, decodeActive, hpayload]
      at hread
    split at hread <;> cases hread
  | destroyed hhead hdecoded hnumbered hnone hstores =>
    simp only [readCurrent, hhead, hdecoded, Outcome.ok_bind] at hread
    cases hread

/-! ## What an operation adds to a chain -/

variable [VectorMath]

/-- What an operation on a chain writes: its next version, or the removal of all of them. -/
inductive Advances (index : IndexIdentity) (log : List (Commit M P R))
    (publication : Publication M P R) : Prop where
  | version {version : IndexVersion} {marker bytes : Bytes} {payload : VersionPayload M P}
      (write : publication.write = .version (Chain.head log) version marker bytes)
      (numbered : version.get = log.length + 1)
      (standing : ∀ head, Chain.head log = some head → ∃ config active,
        decodeHead head index = .ok (⟨index, config, .active active⟩ : IndexRecord R))
      (headed : decodeHead publication.plan.head index =
        .ok (⟨index, payload.config, .active version⟩ : IndexRecord R))
      (read : decodePayload bytes index version = .ok payload) (sound : payload.Sound)
      (marked : fromSlice marker = (.ok (StagingMarker.new index version
        publication.checked.identity publication.checked.operation.transition) :
          Outcome String StagingMarker))
  | destroy {head : Bytes} {versions : List IndexVersion} {config config' : IndexConfig}
      {last : IndexVersion} {retention : R} {key : OperationKey}
      (write : publication.write = .destroy head versions) (headed : Chain.head log = some head)
      (decoded : decodeHead head index =
        .ok (⟨index, config, .active last⟩ : IndexRecord R))
      (numbered : last.get = log.length) (versions : ∀ version, version ∈ versions ↔ version ≤ last)
      (destroyed : decodeHead publication.plan.head index =
        .ok (⟨index, config', .destroyed last retention key⟩ : IndexRecord R))
      (stores : Stores MAX_CONSUMER_JSON_DEPTH retention)

omit [VectorMath] in
/-- A version expects the head of the chain and has the next number. -/
theorem Advances.expected_version (h : Advances index log publication) {expected : Option Bytes}
    {version : IndexVersion} {marker bytes : Bytes}
    (hwrite : publication.write = .version expected version marker bytes) :
    expected = Chain.head log ∧ version.get = log.length + 1 := by
  cases h with
  | version hwrite' hnumbered =>
    rw [hwrite] at hwrite'
    cases hwrite'
    exact ⟨rfl, hnumbered⟩
  | destroy hwrite' =>
    rw [hwrite] at hwrite'
    cases hwrite'

omit [VectorMath] in
/-- A version goes on from an active version, or from none. -/
theorem Advances.standing_version (h : Advances index log publication) {expected : Option Bytes}
    {version : IndexVersion} {marker bytes head : Bytes}
    (hwrite : publication.write = .version expected version marker bytes)
    (hhead : Chain.head log = some head) : ∃ config active,
      decodeHead head index = .ok (⟨index, config, .active active⟩ : IndexRecord R) := by
  cases h with
  | version hwrite' hnumbered hstanding => exact hstanding head hhead
  | destroy hwrite' =>
    rw [hwrite] at hwrite'
    cases hwrite'

omit [VectorMath] in
/-- A destroy expects the head of the chain and removes every version up to its last. -/
theorem Advances.expected_destroy (h : Advances index log publication) {expected : Bytes}
    {versions : List IndexVersion} (hwrite : publication.write = .destroy expected versions) :
    Chain.head log = some expected ∧ ∀ version, version ∈ versions ↔ version.get ≤ log.length := by
  cases h with
  | version hwrite' =>
    rw [hwrite] at hwrite'
    cases hwrite'
  | destroy hwrite' hheaded hdecoded hnumbered hversions =>
    rw [hwrite] at hwrite'
    cases hwrite'
    refine ⟨hheaded, fun version => ?_⟩
    rw [hversions, IndexVersion.le_iff, hnumbered]

/-- What an operation on a chain starts from and publishes. -/
theorem Builds.publishes (h : Builds issued index (Chain.head log) (Chain.payload log) publication)
    (htop : Top index log) : ∃ record current validated,
      readCurrent index (Chain.head log) (Chain.payload log) = .ok (record, current) ∧
      publication.checked.permit record = .ok validated ∧ Standing index record current ∧
      Publishes publication.checked.operation publication.checked.identity current
        publication.next ∧
      encodePlan publication.next (Chain.head log) publication.checked.operation =
        .ok (publication.plan, publication.write) := by
  obtain ⟨record, current, validated, hread, hpermit, hbuilt, hencoded⟩ := h.built
  have hstanding := htop.standing hread
  exact ⟨record, current, validated, hread, hpermit, hstanding,
    successor_publishes hstanding hpermit hbuilt, hencoded⟩

theorem Builds.advances (h : Builds issued index (Chain.head log) (Chain.payload log) publication)
    (htop : Top index log) : Advances index log publication := by
  obtain ⟨record, current, validated, hread, hpermit, hstanding, hpublishes, hencoded⟩ :=
    h.publishes htop
  have hdecodes := encodePlan_decodes hpublishes hstanding.sound hencoded
  have hwrite := (encodePlan_eq_ok hencoded).1
  have hindexed := h.indexed
  have hhead := hdecodes.head
  obtain ⟨checked, next, plan, write⟩ := publication
  subst hindexed
  have hpublishes : Publishes checked.operation checked.identity current next := hpublishes
  cases hpublishes with
  | @version built hextends =>
    obtain ⟨expected, marker, bytes, hwritten, hpayload, hmarker⟩ := hdecodes.version _ rfl
    have hsound := hextends.payload_sound hstanding.sound checked.change checked.stored
      checked.operation.index checked.identity
    have hexpected : expected = Chain.head log := by
      obtain ⟨marker', bytes', hplanned, -⟩ := plannedWrite_version rfl hwrite
      rw [show write = _ from hwritten] at hplanned
      exact (PlannedWrite.version.inj hplanned).1
    rw [hexpected] at hwritten
    let payload := VersionPayload.new checked.operation.index built.target checked.identity
      built.config built.engine built.members
    have hheaded : decodeHead plan.head checked.operation.index =
        .ok (⟨checked.operation.index, payload.config, .active payload.version⟩ : IndexRecord R) :=
      hhead
    have htarget := hextends.target
    rcases permitted_cases hstanding hpermit with habsent | hactive
    · obtain ⟨rfl, rfl, -⟩ := habsent
      obtain rfl := htop.read_absent hread
      refine .version hwritten (congrArg IndexVersion.get htarget) ?_ hheaded hpayload hsound hmarker
      intro head hnone
      cases hnone
    · obtain ⟨active, previous, rfl, -⟩ := hactive
      obtain ⟨hnumbered, head, config, hstanding', hdecoded⟩ := htop.read_active hread
      have hnext := IndexVersion.next?_get (IndexVersion.successor_eq_ok.mp htarget)
      refine .version hwritten (hnext.trans (congrArg (· + 1) hnumbered)) ?_ hheaded hpayload
        hsound hmarker
      intro head' hheaded'
      rw [hstanding'] at hheaded'
      cases hheaded'
      exact ⟨config, previous.version, hdecoded⟩
  | @destroy retention active payload hop hactive =>
    subst hactive
    obtain ⟨hnumbered, head, config, hheaded, hdecoded⟩ := htop.read_active hread
    obtain ⟨expected, last, retention', key, versions, hexpected, hstate, hupTo, hwritten⟩ :=
      plannedWrite_destroy rfl hwrite
    rw [hheaded] at hexpected
    cases hexpected
    cases hstate
    obtain ⟨versions', hupTo', hversions⟩ := payload.version.upTo_spec
    rw [hupTo] at hupTo'
    cases hupTo'
    exact .destroy hwritten hheaded hdecoded hnumbered hversions hhead
      ((checkStoredValues_stores checked.stored).2 _ hop)

/-- What is stored of a publication is the record of its own outcome. -/
theorem Builds.recorded (h : Builds issued index (Chain.head log) (Chain.payload log) publication)
    (htop : Top index log) :
    decodeOperation publication.plan.record index publication.checked.operation.key =
        .ok publication.next.record ∧
      publication.next.record.index = index ∧
      publication.next.record.operation = publication.checked.identity ∧
      publication.plan.index = index ∧ publication.plan.operation = publication.checked.identity ∧
      publication.plan.transition = publication.next.record.transition ∧
      publication.plan.resulting = publication.next.record.resulting := by
  obtain ⟨record, current, validated, hread, hpermit, hstanding, hpublishes, hencoded⟩ :=
    h.publishes htop
  have hdecodes := encodePlan_decodes hpublishes hstanding.sound hencoded
  obtain ⟨-, -, -, hindex, hoperation, htransition, hresulting⟩ := encodePlan_eq_ok hencoded
  obtain ⟨-, hnamed, hidentity⟩ := hpublishes.record_format
  have hrecord := hdecodes.record
  rw [h.indexed] at hrecord hnamed
  exact ⟨hrecord, hnamed, hidentity, hindex.trans hnamed, hoperation.trans hidentity, htransition,
    hresulting⟩

/-! ## Chains -/

section Payloads

variable {commit : Commit M P R} {expected : Option Bytes} {version : IndexVersion}
  {marker bytes : Bytes}

omit [VectorMath] in
theorem Chain.payload_version (h : commit.write = .version expected version marker bytes)
    (other : IndexVersion) :
    Chain.payload (commit :: log) other = Chain.published (commit :: log) other := by
  simp only [Chain.payload, h]

omit [VectorMath] in
theorem Chain.payload_destroy {head : Bytes} {versions : List IndexVersion}
    (h : commit.write = .destroy head versions) (other : IndexVersion) :
    Chain.payload (commit :: log) other = none := by
  simp only [Chain.payload, h]

omit [VectorMath] in
/-- The payload of a version that was just published is what was staged for it. -/
theorem Chain.payload_published {stored : Bytes}
    (h : commit.write = .version expected version marker bytes)
    (hstored : commit.stored = some stored) :
    Chain.payload (commit :: log) version = some stored := by
  rw [payload_version h]
  simp [published, h, hstored, PlannedWrite.Names]

end Payloads

theorem Top.commit (htop : Top index log) {commit : Commit M P R}
    (hbuilds : Builds issued index (Chain.head log) (Chain.payload log) commit.toPublication)
    (hfound : commit.Found issued index log) : Top index (commit :: log) := by
  cases hbuilds.advances htop with
  | @version version marker bytes payload hwrite hnumbered hstanding hheaded hread hsound hmarked =>
    rw [Commit.Found, hwrite] at hfound
    obtain ⟨stored, hstored, twin, htwin, hstaged⟩ := hfound
    -- What was staged is the version of an operation that the same chain let through.
    cases htwin.advances htop with
    | version hwrite' hnumbered' hstanding' hheaded' hread' hsound' hmarked' =>
      rw [hstaged] at hwrite'
      cases hwrite'
      exact .active rfl hheaded hnumbered (Chain.payload_published hwrite hstored) hread' hsound'
    | destroy hwrite' _ _ _ _ _ _ =>
      rw [hstaged] at hwrite'
      cases hwrite'
  | @destroy head versions config config' last retention key hwrite hheaded hdecoded hnumbered
      hversions hdestroyed hstores =>
    refine .destroyed rfl hdestroyed (congrArg (· + 1) hnumbered) ?_ hstores
    exact fun version => Chain.payload_destroy hwrite version

theorem Chain.top (h : Chain issued index log) : Top index log := by
  induction h with
  | nil => exact .absent rfl
  | commit chain fresh builds found ih => exact ih.commit builds found

/-- How the last commit of a chain went on from those before it. -/
theorem Chain.advances {commit : Commit M P R} (h : Chain issued index (commit :: log)) :
    Chain issued index log ∧ Advances index log commit.toPublication := by
  cases h with
  | commit chain fresh builds found => exact ⟨chain, builds.advances chain.top⟩

theorem Chain.suffix {later : List (Commit M P R)} (h : Chain issued index (later ++ log)) :
    Chain issued index log := by
  induction later with
  | nil => exact h
  | cons commit later ih => exact ih h.advances.1

/-- The head of a chain is never that of a longer one. -/
theorem Chain.head_fresh {later : List (Commit M P R)} (h : Chain issued index (later ++ log))
    (hhead : Chain.head (later ++ log) = Chain.head log) : later = [] := by
  cases later with
  | nil => rfl
  | cons commit later =>
    exfalso
    have hadvances : Advances index (later ++ log) commit.toPublication := h.advances.2
    have hlength : (later ++ log).length = later.length + log.length := List.length_append
    have hlast : Chain.head (commit :: later ++ log) = some commit.plan.head := rfl
    rw [hlast] at hhead
    have hsame {record record' : IndexRecord R}
        (hrecord : decodeHead commit.plan.head index = .ok record)
        (hrecord' : decodeHead commit.plan.head index = .ok record') : record = record' := by
      rw [hrecord] at hrecord'
      exact Except.ok.inj hrecord'
    cases h.suffix.top with
    | absent hempty =>
      rw [hempty] at hhead
      cases hhead
    | active hheaded hdecoded hnumbered =>
      rw [hheaded] at hhead
      cases hhead
      cases hadvances with
      | version hwrite hnumbered' hstanding hheaded' =>
        cases hsame hheaded' hdecoded
        omega
      | destroy hwrite hheaded' hdecoded' hnumbered' hversions hdestroyed =>
        cases hsame hdestroyed hdecoded
    | destroyed hheaded hdecoded hnumbered =>
      rw [hheaded] at hhead
      cases hhead
      cases hadvances with
      | version hwrite hnumbered' hstanding hheaded' => cases hsame hheaded' hdecoded
      | destroy hwrite hheaded' hdecoded' hnumbered' hversions hdestroyed =>
        cases hsame hdestroyed hdecoded
        omega

end Heurema
