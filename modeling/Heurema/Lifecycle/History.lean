import Heurema.Lifecycle.Successor

/-! # Histories of an index

A history is the operations an index published, the last first, each prepared from
the bytes that the one before left. Its head and its active payload decode to the
values they were encoded from, so it is a history of values as well. -/

namespace Heurema

open Serde Hnsw Digest

open Outcome (refuse)

/-- The payload that a write stages under a version. -/
def PlannedWrite.stages (write : PlannedWrite) (version : IndexVersion) : Option Bytes :=
  match write with
  | .version _ staged _ bytes => if staged = version then some bytes else none
  | .destroy _ _ => none

section Definitions

variable {M P R : Type} [MemberIdentity M] [ProvenanceReference P] [RetentionReference R]
  [SerdeJson] [Unicode] [Sha256]

variable (M P R) in
/-- One published operation: what was checked, what it built and its encoded writes. -/
structure Publication where
  checked : CheckedOperation M P R
  next : Successor M P R
  plan : Plan R
  write : PlannedWrite

/-- The bytes of the head. -/
def headBytes (log : List (Publication M P R)) : Option Bytes :=
  log.head?.map fun publication => publication.plan.head

/-- The bytes of a published version, until a destroy removes every payload. -/
def payloadBytes (log : List (Publication M P R)) (version : IndexVersion) : Option Bytes :=
  match log with
  | [] => none
  | publication :: earlier =>
    match publication.write with
    | .destroy _ _ => none
    | .version _ _ _ _ =>
      (publication :: earlier).findSome? fun publication => publication.write.stages version

/-- The head and the active payload that a preparation decodes. -/
def readCurrent (index : IndexIdentity) (head : Option Bytes)
    (payload : IndexVersion → Option Bytes) : Run (Option (IndexRecord R) × Current M P R) :=
  match head with
  | none => return (none, none)
  | some bytes => do
    let record ← decodeHead bytes index
    match record.state with
    | .active version =>
      match payload version with
      | some bytes => do
        let payload ← decodeActive bytes index version record
        return (some record, some (record, payload))
      | none => refuse (corrupt ("head of index " ++ index.display ++ " names version " ++
          version.display ++ ", whose payload is missing"))
    | .destroyed _ _ _ => return (some record, none)

variable [VectorMath]

/-- The operations an index published, the last first, each under a key of its own. -/
inductive History (index : IndexIdentity) : List (Publication M P R) → Prop where
  | nil : History index []
  | publish {log : List (Publication M P R)} {publication : Publication M P R}
      {head : Option (IndexRecord R)} {current : Current M P R}
      {validated : ValidatedOperation M P R} (history : History index log)
      (indexed : publication.checked.operation.index = index)
      (fresh : ∀ earlier ∈ log,
        earlier.checked.operation.key ≠ publication.checked.operation.key)
      (read : readCurrent index (headBytes log) (payloadBytes log) = .ok (head, current))
      (permitted : publication.checked.permit head = .ok validated)
      (built : Apply.successor validated current = .ok publication.next)
      (encoded : encodePlan publication.next (headBytes log) publication.checked.operation =
        .ok (publication.plan, publication.write)) :
      History index (publication :: log)

end Definitions

variable {M P R : Type} [MemberIdentity M] [ProvenanceReference P] [RetentionReference R]
  [SerdeJson] [Unicode] [Sha256]

/-! ## A history of values -/

/-- The head a history leaves. -/
def currentHead (log : List (Publication M P R)) : Option (IndexRecord R) :=
  log.head?.map fun publication => publication.next.head

/-- The active version a history leaves. -/
def currentVersion (log : List (Publication M P R)) : Current M P R :=
  log.head?.bind fun publication => publication.next.current

variable [VectorMath] {index : IndexIdentity} {log : List (Publication M P R)}
  {publication : Publication M P R}

/-- What a publication leaves decodes. -/
structure Readable (index : IndexIdentity) (log : List (Publication M P R)) : Prop where
  standing : Standing index (currentHead log) (currentVersion log)
  read : readCurrent index (headBytes log) (payloadBytes log) =
    .ok (currentHead log, currentVersion log)

omit [VectorMath] in
theorem Readable.nil : Readable index ([] : List (Publication M P R)) := ⟨.absent, rfl⟩

omit [VectorMath] [Sha256] in
theorem readCurrent_active {record : IndexRecord R}
    {payload : VersionPayload M P} {head bytes : Bytes} {payloads : IndexVersion → Option Bytes}
    (hhead : decodeHead head index = .ok record) (hstate : record.state = .active payload.version)
    (hconfig : payload.config = record.config) (hstored : payloads payload.version = some bytes)
    (hpayload : decodePayload bytes index payload.version = .ok payload) :
    readCurrent index (some head) payloads = .ok (some record, some (record, payload)) := by
  have hactive : decodeActive bytes index payload.version record = .ok payload := by
    rw [decodeActive, hpayload, Outcome.ok_bind]
    exact if_neg (not_not.mpr hconfig)
  simp only [readCurrent, hhead, Outcome.ok_bind, hstate, hstored, hactive, Outcome.pure_eq]

omit [VectorMath] in
/-- The payload a publication staged is stored under its version. -/
theorem payloadBytes_staged {expectedHead : Option Bytes} {version : IndexVersion}
    {marker bytes : Bytes}
    (h : publication.write = .version expectedHead version marker bytes) :
    payloadBytes (publication :: log) version = some bytes := by
  simp [payloadBytes, h, PlannedWrite.stages]

omit [VectorMath] in
/-- A publication leaves an index readable. -/
theorem Readable.publish {checked : CheckedOperation M P R} {next : Successor M P R}
    {plan : Plan R} {write : PlannedWrite} {current : Current M P R} {expectedHead : Option Bytes}
    (indexed : checked.operation.index = index) (hsound : current.Sound)
    (h : Publishes checked.operation checked.identity current next)
    (hencoded : encodePlan next expectedHead checked.operation = .ok (plan, write)) :
    Readable index (⟨checked, next, plan, write⟩ :: log) := by
  subst indexed
  have hdecodes := encodePlan_decodes h hsound hencoded
  have hhead := hdecodes.head
  refine ⟨h.standing hsound, ?_⟩
  show readCurrent _ (some plan.head) _ = .ok (some next.head, next.current)
  cases h with
  | version hextends =>
    obtain ⟨_, marker, bytes, hwrite, hpayload, -⟩ := hdecodes.version _ rfl
    exact readCurrent_active hhead rfl rfl (payloadBytes_staged hwrite) hpayload
  | destroy hop hactive =>
    simp only [readCurrent, hhead, Outcome.ok_bind]
    rfl

/-- A step of a history, on the values that its bytes decode to. -/
structure Published (index : IndexIdentity) (log : List (Publication M P R))
    (publication : Publication M P R) : Prop where
  indexed : publication.checked.operation.index = index
  fresh : ∀ earlier ∈ log, earlier.checked.operation.key ≠ publication.checked.operation.key
  permitted : ∃ validated, publication.checked.permit (currentHead log) = .ok validated
  publishes : Publishes publication.checked.operation publication.checked.identity
    (currentVersion log) publication.next
  encoded : encodePlan publication.next (headBytes log) publication.checked.operation =
    .ok (publication.plan, publication.write)

theorem History.readable (h : History index log) : Readable index log := by
  induction h with
  | nil => exact .nil
  | publish history indexed fresh read permitted built encoded ih =>
    rw [ih.read] at read
    cases read
    exact .publish indexed ih.standing.sound (successor_publishes ih.standing permitted built) encoded

theorem History.current_of_read (h : History index log) {head : Option (IndexRecord R)}
    {current : Current M P R}
    (hread : readCurrent index (headBytes log) (payloadBytes log) = .ok (head, current)) :
    currentVersion log = current := by
  rw [h.readable.read] at hread
  injection hread with hpair
  exact congrArg Prod.snd hpair

theorem History.published (h : History index (publication :: log)) :
    History index log ∧ Published index log publication := by
  cases h with
  | publish history indexed fresh read permitted built encoded =>
    have hreadable := history.readable
    rw [hreadable.read] at read
    cases read
    exact ⟨history, indexed, fresh, ⟨_, permitted⟩,
      successor_publishes hreadable.standing permitted built, encoded⟩

omit [Sha256] [VectorMath] [Unicode] in
/-- The head an operation starts from names its active version. -/
theorem Standing.active_record {head : Option (IndexRecord R)} {current : Current M P R}
    (hstanding : Standing index head current) {record : IndexRecord R}
    {payload : VersionPayload M P} (hactive : current = some (record, payload)) :
    head = some record ∧ record.identity = index ∧ record.config = payload.config ∧
      record.state = .active payload.version := by
  cases hstanding with
  | absent => cases hactive
  | active hsound hnamed =>
    cases hactive
    exact ⟨rfl, rfl, rfl, rfl⟩
  | destroyed hstored => cases hactive

theorem History.suffix {earlier later : List (Publication M P R)}
    (h : History index (later ++ earlier)) : History index earlier := by
  induction later with
  | nil => exact h
  | cons publication later ih => exact ih h.published.1

/-- What a step of a history starts from: nothing, or an active version. -/
theorem Published.start (history : History index log) (h : Published index log publication) :
    (log = [] ∧ ∃ config, publication.checked.operation.change = .create config) ∨
    ∃ record payload, currentVersion log = some (record, payload) ∧ payload.Sound ∧
      (∀ config, publication.checked.operation.change ≠ .create config) ∧
      checkAgainstRecord publication.checked.operation.change payload.config = .ok () := by
  obtain ⟨validated, hpermit⟩ := h.permitted
  rcases permitted_cases history.readable.standing hpermit with habsent | hactive
  · obtain ⟨hhead, -, hcreate⟩ := habsent
    exact .inl ⟨by simpa [currentHead] using hhead, hcreate⟩
  · exact .inr hactive

/-- A version is numbered by the operations up to it. -/
theorem History.version (h : History index log) {record : IndexRecord R}
    {payload : VersionPayload M P} (hcurrent : currentVersion log = some (record, payload)) :
    payload.version.get = log.length := by
  induction log generalizing record payload with
  | nil => cases hcurrent
  | cons publication log ih =>
    obtain ⟨history, hpublished⟩ := h.published
    obtain ⟨checked, next, plan, write⟩ := publication
    have hnext : next.current = some (record, payload) := hcurrent
    have hpublishes : Publishes checked.operation checked.identity (currentVersion log) next :=
      hpublished.publishes
    cases hpublishes with
    | version hextends =>
      cases hnext
      have htarget := hextends.target
      rcases hpublished.start history with habsent | hactive
      · obtain ⟨rfl, -⟩ := habsent
        exact congrArg IndexVersion.get htarget
      · obtain ⟨record, payload, hprevious, -⟩ := hactive
        rw [hprevious] at htarget
        have hget := IndexVersion.next?_get (IndexVersion.successor_eq_ok.mp htarget)
        rw [ih history hprevious] at hget
        exact hget
    | destroy hop hactive => cases hnext

/-- A head names the version that the operations before it built. -/
theorem History.active_version (h : History index (publication :: log)) {version : IndexVersion}
    (hactive : publication.next.head.state = .active version) : version.get = log.length + 1 := by
  obtain ⟨-, hpublished⟩ := h.published
  have hversion := @History.version _ _ _ _ _ _ _ _ _ _ _ _ h
  obtain ⟨checked, next, plan, write⟩ := publication
  have hpublishes : Publishes checked.operation checked.identity (currentVersion log) next :=
    hpublished.publishes
  cases hpublishes with
  | version hextends =>
    cases hactive
    exact hversion rfl
  | destroy hop hcurrent => cases hactive

/-! ## The operations of a history -/

/-- What follows a history: an operation it permits is applied and encoded, or a counter
of its index is exhausted. -/
theorem History.total (h : History index log) {checked : CheckedOperation M P R}
    {validated : ValidatedOperation M P R}
    (hpermit : checked.permit (currentHead log) = .ok validated) :
    (∃ next plan write, Apply.successor validated (currentVersion log) = .ok next ∧
      encodePlan next (headBytes log) checked.operation = .ok (plan, write)) ∨
    ∃ failure, Apply.successor validated (currentVersion log) = .error failure ∧
      Exhausts checked.operation (currentVersion log) failure := by
  have hreadable := h.readable
  rcases successor_total hreadable.standing hpermit with hnext | hfailed
  · obtain ⟨next, hnext, hpublishes, -⟩ := hnext
    have hexpected : (currentVersion log).isSome = (headBytes log).isSome := by
      rcases permitted_cases hreadable.standing hpermit with habsent | hactive
      · obtain ⟨hhead, hcurrent, -⟩ := habsent
        have hnil : log = [] := by simpa [currentHead] using hhead
        rw [hnil]
        rfl
      · obtain ⟨record, payload, hcurrent, -⟩ := hactive
        cases log with
        | nil => cases hcurrent
        | cons publication log => simp [hcurrent, headBytes]
    obtain ⟨plan, write, hplan⟩ := encodePlan_total hpublishes hreadable.standing.sound hexpected
    exact .inl ⟨next, plan, write, hnext, hplan⟩
  · exact .inr hfailed

/-- A permitted operation under a new key continues a history. -/
theorem History.extend (h : History index log) {checked : CheckedOperation M P R}
    {validated : ValidatedOperation M P R} (hindex : checked.operation.index = index)
    (hfresh : ∀ earlier ∈ log, earlier.checked.operation.key ≠ checked.operation.key)
    (hpermit : checked.permit (currentHead log) = .ok validated)
    (hroom : ∀ failure, ¬ Exhausts checked.operation (currentVersion log) failure) :
    ∃ publication : Publication M P R, publication.checked = checked ∧
      History index (publication :: log) := by
  rcases h.total hpermit with hnext | hfailed
  · obtain ⟨next, plan, write, hnext, hplan⟩ := hnext
    exact ⟨⟨checked, next, plan, write⟩, rfl,
      .publish h hindex hfresh h.readable.read hpermit hnext hplan⟩
  · obtain ⟨failure, -, hexhausts⟩ := hfailed
    exact absurd hexhausts (hroom failure)

omit [VectorMath] in
/-- An operation on an active index is permitted when its change fits the record. -/
theorem permit_active {checked : CheckedOperation M P R} {record : IndexRecord R}
    {version : IndexVersion} (hindex : record.identity = checked.operation.index)
    (hstate : record.state = .active version)
    (htransition : checked.operation.transition.isPermittedFrom .active = true)
    (hagainst : checkAgainstRecord checked.operation.change record.config = .ok ()) :
    ∃ validated, checked.permit (some record) = .ok validated := by
  have hkind : stateKind (some record) = .active := by
    rw [stateKind, hstate]
    rfl
  have hpermitted : checked.operation.transition.isPermittedFrom (stateKind (some record)) = true :=
    hkind ▸ htransition
  refine ⟨⟨checked, _, hpermitted⟩, ?_⟩
  rw [CheckedOperation.permit, checkRecord, if_pos hindex, Outcome.ok_bind, dif_pos hpermitted]
  dsimp only
  rw [hagainst]
  rfl

omit [VectorMath] in
/-- An operation that destroys nothing leaves an active version. -/
theorem Published.active (h : Published index log publication)
    (hchange : ∀ retention, publication.checked.operation.change ≠ .destroy retention) :
    ∃ record payload, currentVersion (publication :: log) = some (record, payload) ∧
      some payload.config = publication.checked.operation.change.configAfter
        ((currentVersion log).map fun current => current.2.config) := by
  obtain ⟨checked, next, plan, write⟩ := publication
  have hpublishes : Publishes checked.operation checked.identity (currentVersion log) next :=
    h.publishes
  cases hpublishes with
  | version hextends => exact ⟨_, _, rfl, hextends.config⟩
  | destroy hop hactive => exact absurd hop (hchange _)

/-- The creation of an index starts a history. -/
theorem History.start {checked : CheckedOperation M P R} {config : IndexConfig}
    (hindex : checked.operation.index = index) (hcreate : checked.operation.change = .create config) :
    ∃ publication : Publication M P R, publication.checked = checked ∧
      History index [publication] ∧ ∃ record payload,
        currentVersion [publication] = some (record, payload) ∧ payload.config = config ∧
        payload.engine = .empty config := by
  have hstanding : Standing index none (none : Current M P R) := .absent
  have hexpected : (none : Current M P R).isSome = (none : Option Bytes).isSome := rfl
  have hpermitted : checked.operation.transition.isPermittedFrom .absent = true := by
    rw [LifecycleOperation.transition, hcreate]
    rfl
  have hpermit : checked.permit none = .ok ⟨checked, _, hpermitted⟩ := by
    rw [CheckedOperation.permit, checkRecord, Outcome.ok_bind, stateKind, dif_pos hpermitted]
    rfl
  let next := Apply.published checked.operation checked.identity {
    fromVersion := none
    target := .FIRST
    config
    engine := .empty config
    members := ∅
    changes := []
    previousConfig := none }
  have hnext : Apply.successor ⟨checked, _, hpermitted⟩ none = .ok next := by
    simp only [Apply.successor, hcreate]
    rfl
  have hpublishes := successor_publishes hstanding hpermit hnext
  obtain ⟨plan, write, hplan⟩ := encodePlan_total hpublishes hstanding.sound hexpected
  have hhistory : History index [⟨checked, next, plan, write⟩] :=
    .publish .nil hindex (fun _ hmem => by cases hmem) rfl hpermit hnext hplan
  exact ⟨_, rfl, hhistory, _, _, rfl, rfl, rfl⟩

/-- An operation that fits an active index, under a new key, continues its history. -/
theorem History.extend_active (h : History index log) {record : IndexRecord R}
    {payload : VersionPayload M P} (hcurrent : currentVersion log = some (record, payload))
    (hlength : log.length + 1 < UInt64.size) {checked : CheckedOperation M P R}
    (hindex : checked.operation.index = index)
    (hfresh : ∀ earlier ∈ log, earlier.checked.operation.key ≠ checked.operation.key)
    (hagainst : checkAgainstRecord checked.operation.change payload.config = .ok ())
    (htransition : checked.operation.transition.isPermittedFrom .active = true)
    (htokens : payload.engine.tokens + checked.operation.change.tokens < usizeLimit) :
    ∃ publication : Publication M P R, publication.checked = checked ∧
      History index (publication :: log) := by
  obtain ⟨hhead, hidentity, hconfig, hstate⟩ := h.readable.standing.active_record hcurrent
  obtain ⟨validated, hpermit⟩ := permit_active (hidentity.trans hindex.symm) hstate htransition
    (hconfig ▸ hagainst)
  rw [← hhead] at hpermit
  refine h.extend hindex hfresh hpermit fun failure hexhausts => ?_
  rw [hcurrent] at hexhausts
  have hversion : payload.version.get + 1 < UInt64.size := by
    rw [h.version hcurrent]
    exact hlength
  have hnext : payload.version.next? = some _ := dif_pos hversion
  have hsound := h.readable.standing.sound record payload hcurrent
  exact not_exhausts hnext (IndexChange.hasRoom_of_fits hsound.engine htokens) failure hexhausts

end Heurema
