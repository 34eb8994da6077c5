import Heurema.Lifecycle.Plan

/-! # What a permitted operation publishes

An operation that was checked and permitted builds its successor and encodes it,
unless the version counter or the token count of a corpus is exhausted. What it
publishes is sound, stores, and is what its bytes decode to. -/

namespace Heurema

open Serde Hnsw Digest

open Outcome (refuse ofResult)

/-- The refusal of a version counter that has no next version. -/
def exhausted (version : IndexVersion) : HeuremaError :=
  refusal .indexVersion (toString version.get).toList "version counter exhausted"

/-- A version without a next one. -/
theorem next?_of_error {version : IndexVersion} {e : HeuremaError}
    (h : version.successor = .error e) : version.next? = none ∧ e = exhausted version := by
  unfold IndexVersion.successor at h
  split at h
  · cases h
  · next hlast => exact ⟨hlast, (Except.error.inj h).symm⟩

variable {M P R : Type} [MemberIdentity M] [Unicode]

/-- What an index is left with. -/
def Successor.current (next : Successor M P R) : Current M P R :=
  next.payload.map fun payload => (next.head, payload)

/-- The tokens of the corpus that a change builds fit a `usize`: those of an insertion after
each of its members, in the order they go in, and those of a rebuild's members together. -/
def IndexChange.HasRoom (change : IndexChange M P R) (engine : VersionEngine M) : Prop :=
  match change with
  | .insert members => engine.HasRoom (sortedMembers members)
  | .rebuild _ members => (members.map fun member => member.content.tokens).sum < usizeLimit
  | .create _ | .remove _ | .destroy _ => True

/-- Members whose tokens fit beside the whole corpus have room. -/
theorem IndexChange.hasRoom_of_fits {engine : VersionEngine M} (h : engine.Sound)
    {change : IndexChange M P R} (hfits : engine.tokens + change.tokens < usizeLimit) :
    change.HasRoom engine := by
  cases change with
  | insert members =>
    rw [IndexChange.tokens, ← tokens_sortedMembers] at hfits
    exact h.hasRoom hfits
  | rebuild config members => exact Nat.lt_of_le_of_lt (Nat.le_add_left _ _) hfits
  | create config => trivial
  | remove ids => trivial
  | destroy retention => trivial

/-- How a permitted operation fails to build: the version it would follow is the last one, or
there is a next one and the tokens of its corpus have no room. -/
inductive Exhausts (operation : LifecycleOperation M P R) :
    Current M P R → Failure HeuremaError → Prop where
  | version {record : IndexRecord R} {payload : VersionPayload M P}
      (builds : ∀ retention, operation.change ≠ .destroy retention)
      (last : payload.version.next? = none) :
    Exhausts operation (some (record, payload)) (.refused (exhausted payload.version))
  | tokens {record : IndexRecord R} {payload : VersionPayload M P} {target : IndexVersion}
      (next : payload.version.next? = some target)
      (full : ¬ operation.change.HasRoom payload.engine) :
    Exhausts operation (some (record, payload)) (.panicked "attempt to add with overflow")

/-- An operation is exhausted in one way. -/
theorem Exhausts.unique {operation : LifecycleOperation M P R}
    {current : Current M P R} {failure failure' : Failure HeuremaError}
    (h : Exhausts operation current failure) (h' : Exhausts operation current failure') :
    failure = failure' := by
  cases h with
  | version builds last =>
    cases h' with
    | version builds' last' => rfl
    | tokens next full =>
      rw [last] at next
      cases next
  | tokens next full =>
    cases h' with
    | version builds last =>
      rw [last] at next
      cases next
    | tokens next' full' => rfl

/-- A version that has a next one, whose corpus has room, exhausts nothing. -/
theorem not_exhausts {operation : LifecycleOperation M P R} {record : IndexRecord R}
    {payload : VersionPayload M P} {target : IndexVersion}
    (hnext : payload.version.next? = some target)
    (hroom : operation.change.HasRoom payload.engine) (failure : Failure HeuremaError) :
    ¬ Exhausts operation (some (record, payload)) failure := by
  intro h
  cases h with
  | version builds last =>
    rw [last] at hnext
    cases hnext
  | tokens next full => exact full hroom

/-- The successors an operation can have. -/
inductive Publishes (operation : LifecycleOperation M P R) (identity : OperationIdentity)
    (current : Current M P R) : Successor M P R → Prop where
  | version {built : Built M P} (extends' : Extends operation.change current built) :
    Publishes operation identity current (Apply.published operation identity built)
  | destroy {retention : R} {record : IndexRecord R} {payload : VersionPayload M P}
      (change : operation.change = .destroy retention) (active : current = some (record, payload)) :
    Publishes operation identity current
      (Apply.destroy operation identity retention record payload)

/-- The version a change starts from has no next one, so that nothing is built, or the tokens
of what is built have room. -/
def IndexChange.Fits (change : IndexChange M P R) (current : Current M P R) : Prop :=
  ∀ record payload target, current = some (record, payload) →
    payload.version.next? = some target → change.HasRoom payload.engine

/-- The counter of the tokens overflows exactly where a change does not fit. -/
theorem exhausts_panicked {operation : LifecycleOperation M P R} {current : Current M P R} :
    Exhausts operation current (.panicked "attempt to add with overflow") ↔
      ¬ operation.change.Fits current := by
  constructor
  · intro h hfits
    cases h with
    | tokens next full => exact full (hfits _ _ _ rfl next)
  · intro h
    simp only [IndexChange.Fits, not_forall] at h
    obtain ⟨record, payload, target, rfl, hnext, hfull⟩ := h
    exact .tokens hnext hfull

/-- A change that fits is exhausted by the version counter alone. -/
theorem Exhausts.version_of_fits {operation : LifecycleOperation M P R} {current : Current M P R}
    {failure : Failure HeuremaError} (h : Exhausts operation current failure)
    (hfits : operation.change.Fits current) : ∃ record payload, current = some (record, payload) ∧
      payload.version.next? = none ∧ failure = .refused (exhausted payload.version) := by
  cases h with
  | version builds last => exact ⟨_, _, rfl, last, rfl⟩
  | tokens next full => exact absurd (hfits _ _ _ rfl next) full

/-- What building comes to: a version that extends the current one when nothing is
exhausted, and otherwise how it is. -/
def Comes {α : Type} (operation : LifecycleOperation M P R) (current : Current M P R)
    (good : α → Prop) (build : Run α) : Prop :=
  (∃ built, build = .ok built ∧ good built ∧ ∀ failure, ¬ Exhausts operation current failure) ∨
    ∃ failure, build = .error failure ∧ Exhausts operation current failure

/-- An operation that builds a version publishes it. -/
theorem publishes_built {operation : LifecycleOperation M P R} {identity : OperationIdentity}
    {current : Current M P R} {build : Run (Built M P)}
    (h : Comes operation current (Extends operation.change current) build) :
    Comes operation current (Publishes operation identity current)
      (do return Apply.published operation identity (← build)) := by
  rcases h with hbuilt | hfailed
  · obtain ⟨built, rfl, hextends, hroom⟩ := hbuilt
    exact .inl ⟨_, rfl, .version hextends, hroom⟩
  · obtain ⟨failure, rfl, hexhausts⟩ := hfailed
    exact .inr ⟨failure, rfl, hexhausts⟩

section Building

variable [VectorMath]

/-- A rebuild of an active version, under a configuration that admits the members. -/
theorem rebuild_built {record : IndexRecord R} {payload : VersionPayload M P}
    {config : IndexConfig} {members : List (IndexMember M P)}
    (hids : (members.map IndexMember.id).Nodup) (hconfig : checkIndexConfig config = .ok ())
    (hfit : checkMembersFit config (sortedMembers members) = .ok ())
    {operation : LifecycleOperation M P R} (hop : operation.change = .rebuild config members) :
    Comes operation (some (record, payload))
      (Extends operation.change (some (record, payload))) (Apply.rebuild config members payload) := by
  cases hnext : payload.version.successor with
  | error e =>
    obtain ⟨hlast, rfl⟩ := next?_of_error hnext
    exact .inr ⟨_, by rw [Apply.rebuild, hnext]; rfl, .version (by simp [hop]) hlast⟩
  | ok target =>
    have htarget := IndexVersion.successor_eq_ok.mp hnext
    rcases rebuild_total hids hconfig hfit hnext with hok | hover
    · obtain ⟨hroom, built, hbuilt⟩ := hok
      exact .inl ⟨built, hbuilt, hop ▸ rebuild_extends hconfig hids hbuilt,
        not_exhausts htarget (by rw [hop]; exact hroom)⟩
    · obtain ⟨hlimit, hpanic⟩ := hover
      exact .inr ⟨_, hpanic, .tokens htarget (by rw [hop]; exact Nat.not_lt.mpr hlimit)⟩

variable [ProvenanceReference P] [SerdeJson]

/-- An insertion into an active version that admits the members. -/
theorem insert_built {record : IndexRecord R} {payload : VersionPayload M P}
    {members : List (IndexMember M P)} (hsound : payload.Sound)
    (hids : (members.map IndexMember.id).Nodup)
    (hfit : checkMembersFit payload.config (sortedMembers members) = .ok ())
    {operation : LifecycleOperation M P R} (hop : operation.change = .insert members) :
    Comes operation (some (record, payload))
      (Extends operation.change (some (record, payload))) (Apply.insert members payload) := by
  have hconfig := VersionEngine.isBuiltUnder_iff.mp hsound.built
  cases hnext : payload.version.successor with
  | error e =>
    obtain ⟨hlast, rfl⟩ := next?_of_error hnext
    exact .inr ⟨_, by rw [Apply.insert, hnext]; rfl, .version (by simp [hop]) hlast⟩
  | ok target =>
    have htarget := IndexVersion.successor_eq_ok.mp hnext
    rcases insert_total hsound.engine hconfig hids hfit hnext with hok | hover
    · obtain ⟨hroom, built, hbuilt⟩ := hok
      exact .inl ⟨built, hbuilt, hop ▸ insert_extends hsound.engine hconfig hids hbuilt,
        not_exhausts htarget (by rw [hop]; exact hroom)⟩
    · obtain ⟨hfull, hpanic⟩ := hover
      exact .inr ⟨_, hpanic, .tokens htarget (by rw [hop]; exact hfull)⟩

/-- A removal from an active version. -/
theorem remove_built {record : IndexRecord R} {payload : VersionPayload M P} {ids : List M}
    (hsound : payload.Sound) (hids : ids.Nodup) {operation : LifecycleOperation M P R}
    (hop : operation.change = .remove ids) :
    Comes operation (some (record, payload))
      (Extends operation.change (some (record, payload))) (Apply.remove ids payload) := by
  have hconfig := VersionEngine.isBuiltUnder_iff.mp hsound.built
  cases hnext : payload.version.successor with
  | error e =>
    obtain ⟨hlast, rfl⟩ := next?_of_error hnext
    exact .inr ⟨_, by rw [Apply.remove, hnext]; rfl, .version (by simp [hop]) hlast⟩
  | ok target =>
    have htarget := IndexVersion.successor_eq_ok.mp hnext
    obtain ⟨built, hbuilt, hextends⟩ :=
      remove_extends hsound.engine hconfig hsound.config hsound.members hids hnext
    exact .inl ⟨built, hbuilt, hop ▸ hextends, not_exhausts htarget (by rw [hop]; trivial)⟩

end Building

variable [ProvenanceReference P] [RetentionReference R] [SerdeJson]

/-- The decoded head of an index and the payload it names agree. -/
inductive Standing (index : IndexIdentity) : Option (IndexRecord R) → Current M P R → Prop where
  | absent : Standing index none none
  | active {payload : VersionPayload M P} (sound : payload.Sound) (named : payload.index = index) :
    Standing index (some ⟨index, payload.config, .active payload.version⟩)
      (some (⟨index, payload.config, .active payload.version⟩, payload))
  | destroyed {config : IndexConfig} {last : IndexVersion} {retention : R} {key : OperationKey}
      (stored : Stores MAX_CONSUMER_JSON_DEPTH retention) :
    Standing index (some ⟨index, config, .destroyed last retention key⟩) none

/-- A version an operation may start from is sound. -/
def Current.Sound (current : Current M P R) : Prop :=
  ∀ record payload, current = some (record, payload) → payload.Sound

omit [Unicode] in
theorem Standing.sound {index : IndexIdentity} {head : Option (IndexRecord R)}
    {current : Current M P R} (hstanding : Standing index head current) : current.Sound := by
  cases hstanding with
  | absent => exact fun record payload h => by cases h
  | active hsound hnamed =>
    intro record payload h
    cases h
    exact hsound
  | destroyed hstored => exact fun record payload h => by cases h

/-! ## What a version inherits -/

section Inherits

variable {change : IndexChange M P R} {current : Current M P R} {built : Built M P}

omit [RetentionReference R] [Unicode] in
theorem Current.Sound.held (h : current.Sound) (id : M) :
    (current.held id).isSome = current.table[id]?.isSome := by
  cases current with
  | none => simp [Current.held, Current.table]
  | some active =>
    obtain ⟨record, payload⟩ := active
    exact VersionEngine.holdsExactly_iff.mp (h record payload rfl).members id

omit [RetentionReference R] [Unicode] in
theorem Current.Sound.id (h : current.Sound) {id : M} {entry : MemberEntry P}
    (hentry : current.table[id]? = some entry) :
    StoresMember MAX_CONSUMER_JSON_DEPTH id ∧ Stores MAX_CONSUMER_JSON_DEPTH entry.provenance := by
  cases current with
  | none => simp [Current.table] at hentry
  | some active =>
    obtain ⟨record, payload⟩ := active
    have hsound := h record payload rfl
    exact ⟨hsound.ids id (BTreeMap.mem_iff.mpr ⟨entry, hentry⟩), hsound.provenance id entry hentry⟩

omit [RetentionReference R] in
/-- Every entry an operation starts from was introduced before what it publishes. -/
theorem Extends.older (h : Extends change current built) (hsound : current.Sound) {id : M}
    {entry : MemberEntry P} (hentry : current.table[id]? = some entry) :
    entry.introduced < built.target ∧ entry.supersedes.all (· < entry.introduced) = true := by
  cases current with
  | none => simp [Current.table] at hentry
  | some active =>
    obtain ⟨record, payload⟩ := active
    have hprecedes := (hsound record payload rfl).entries id entry hentry
    simp only [VersionPayload.precedes, Bool.and_eq_true, decide_eq_true_eq] at hprecedes
    have htarget := IndexVersion.next?_get (IndexVersion.successor_eq_ok.mp h.target)
    refine ⟨IndexVersion.lt_iff.mpr ?_, hprecedes.2⟩
    have hle := IndexVersion.le_iff.mp hprecedes.1
    omega

omit [RetentionReference R] in
theorem Extends.config_valid (h : Extends change current built) (hsound : current.Sound)
    (hchange : checkChange change = .ok ()) : checkIndexConfig built.config = .ok () := by
  have hold (hconfig : some built.config = current.map fun current => current.2.config) :
      checkIndexConfig built.config = .ok () := by
    obtain ⟨active, rfl, heq⟩ := Option.map_eq_some_iff.mp hconfig.symm
    exact heq ▸ (hsound active.1 active.2 rfl).config
  have hconfig := h.config
  cases change with
  | create config =>
    cases hconfig
    exact Outcome.ofResult_eq_ok.mp hchange
  | insert members => exact hold hconfig
  | remove ids => exact hold hconfig
  | rebuild config members =>
    cases Option.some.inj hconfig
    exact (checkChange_rebuild hchange).1
  | destroy retention => exact hold hconfig

/-- The version an operation builds is sound. -/
theorem Extends.payload_sound (h : Extends change current built) (hsound : current.Sound)
    (hchange : checkChange change = .ok ()) (hstored : checkStoredValues change = .ok ())
    (index : IndexIdentity) (identity : OperationIdentity) :
    (VersionPayload.new index built.target identity built.config built.engine
      built.members).Sound := by
  have hids := checkChange_stores hchange
  have hprovenance := (checkStoredValues_stores hstored).1
  -- An entry is inherited, or written for a member of the change.
  have hentry {id : M} {entry : MemberEntry P} (hmember : built.members[id]? = some entry) :
      current.table[id]? = some entry ∨ ∃ member ∈ change.members, member.id = id ∧
        (Apply.written member built.target current.table[id]?).1 = entry := by
    rw [h.members, IndexChange.entry] at hmember
    split at hmember
    · exact .inl hmember
    · cases hmember
    · next member heffect =>
      obtain ⟨hmem, hid⟩ := IndexChange.effect_member heffect
      exact .inr ⟨member, hmem, hid, Option.some.inj hmember⟩
  refine ⟨rfl, h.sound, ?_, VersionEngine.isBuiltUnder_iff.mpr h.engineConfig, ?_, rfl, ?_, ?_, ?_⟩
  · exact h.config_valid hsound hchange
  · refine VersionEngine.holdsExactly_iff.mpr fun id => ?_
    show (built.engine.held id).isSome = built.members[id]?.isSome
    rw [h.held, h.members, IndexChange.held, IndexChange.entry]
    cases change.effect id with
    | none => exact hsound.held id
    | some effect => cases effect <;> rfl
  · intro id entry hmember
    simp only [VersionPayload.precedes, Bool.and_eq_true, decide_eq_true_eq]
    rcases hentry hmember with hold | hnew
    · obtain ⟨holder, hsupersedes⟩ := h.older hsound hold
      exact ⟨holder.le, hsupersedes⟩
    · obtain ⟨member, -, -, rfl⟩ := hnew
      refine ⟨le_refl _, ?_⟩
      cases hprevious : current.table[id]? with
      | none => rfl
      | some previous =>
        have holder := (h.older hsound hprevious).1
        exact decide_eq_true holder
  · intro id hid
    obtain ⟨entry, hmember⟩ := BTreeMap.mem_iff.mp hid
    rcases hentry hmember with hold | hnew
    · exact (hsound.id hold).1
    · obtain ⟨member, hwritten, rfl, -⟩ := hnew
      exact hids member.id (IndexChange.mem_ids hwritten)
  · intro id entry hmember
    rcases hentry hmember with hold | hnew
    · exact (hsound.id hold).2
    · obtain ⟨member, hmem, -, rfl⟩ := hnew
      exact hprovenance member hmem

omit [Unicode] [RetentionReference R] in
/-- What a record says of an identity stores when the identity and its entry do. -/
theorem audit_storable {d : Nat} {id : M} {previous : Option (MemberEntry P)}
    {audit : MemberChange M P} (h : change.audit id previous = some audit)
    (hid : id ∈ change.ids → Stores d id)
    (hprevious : ∀ entry, previous = some entry → Stores d id ∧ Stores d entry.provenance) :
    audit.Storable d := by
  have hdisplacing (hmem : id ∈ change.ids) : (MemberChange.displacing id previous).Storable d := by
    cases previous with
    | none => exact hid hmem
    | some entry => exact hprevious entry rfl
  cases change with
  | create config => cases h
  | insert members =>
    obtain ⟨hmem, rfl⟩ := find?_map_const.mp h
    exact hdisplacing hmem
  | remove ids =>
    simp only [IndexChange.audit] at h
    split at h
    · next hmem =>
      cases h
      cases previous with
      | none => exact hid hmem
      | some entry => exact hprevious entry rfl
    · cases h
  | rebuild config members =>
    simp only [IndexChange.audit] at h
    split at h
    · next member hfind =>
      cases h
      have hfound := List.find?_some hfind
      have hsame : member.id = id := of_decide_eq_true hfound
      exact hdisplacing (hsame ▸ List.mem_map_of_mem (List.mem_of_find?_eq_some hfind))
    · obtain ⟨entry, rfl, rfl⟩ := Option.map_eq_some_iff.mp h
      exact hprevious entry rfl
  | destroy retention =>
    obtain ⟨entry, rfl, rfl⟩ := Option.map_eq_some_iff.mp h
    exact hprevious entry rfl

omit [RetentionReference R] in
/-- Every change that a version's record names stores. -/
theorem Extends.changes_storable (h : Extends change current built) (hsound : current.Sound)
    (hchange : checkChange change = .ok ()) :
    ∀ audit ∈ built.changes, audit.Storable MAX_CONSUMER_JSON_DEPTH := by
  intro audit hmem
  refine audit_storable ((h.changes audit).mp hmem)
    (fun hid => (checkChange_stores hchange audit.id hid).value) fun entry hentry => ?_
  obtain ⟨hid, hprovenance⟩ := hsound.id hentry
  exact ⟨hid.value, hprovenance⟩

end Inherits

variable [Sha256]

section Published

variable {checked : CheckedOperation M P R} {current : Current M P R} {next : Successor M P R}

/-- What an operation publishes is what the next one starts from. -/
theorem Publishes.standing (h : Publishes checked.operation checked.identity current next)
    (hsound : current.Sound) :
    Standing checked.operation.index (some next.head) next.current := by
  cases h with
  | version hextends =>
    exact .active (hextends.payload_sound hsound checked.change checked.stored
      checked.operation.index checked.identity) rfl
  | destroy hop hactive =>
    exact .destroyed ((checkStoredValues_stores checked.stored).2 _ hop)

/-- The record of an operation stores. -/
theorem Publishes.record_storable (h : Publishes checked.operation checked.identity current next)
    (hsound : current.Sound) : next.record.Storable MAX_CONSUMER_JSON_DEPTH := by
  cases h with
  | version hextends =>
    exact ⟨trivial, hextends.changes_storable hsound checked.change⟩
  | @destroy retention record payload hop hactive =>
    refine ⟨(checkStoredValues_stores checked.stored).2 _ hop, fun audit hmem => ?_⟩
    obtain ⟨entry, hentry, rfl⟩ := List.mem_map.mp hmem
    have hlookup : current.table[entry.1]? = some entry.2 := by
      rw [hactive]
      exact BTreeMap.mem_toList.mp hentry
    obtain ⟨hid, hprovenance⟩ := hsound.id hlookup
    exact ⟨hid.value, hprovenance⟩

theorem Publishes.record_format (h : Publishes checked.operation checked.identity current next) :
    next.record.formatVersion = LIFECYCLE_FORMAT_VERSION ∧
      next.record.index = checked.operation.index ∧ next.record.operation = checked.identity := by
  cases h <;> exact ⟨rfl, rfl, rfl⟩

theorem Publishes.head_storable (h : Publishes checked.operation checked.identity current next) :
    next.head.state.Storable MAX_CONSUMER_JSON_DEPTH := by
  cases h with
  | version hextends => exact trivial
  | destroy hop hactive => exact (checkStoredValues_stores checked.stored).2 _ hop

end Published

/-! ## Permission -/

theorem permit_eq_ok {checked : CheckedOperation M P R} {head : Option (IndexRecord R)}
    {validated : ValidatedOperation M P R} (h : checked.permit head = .ok validated) :
    validated.checked = checked ∧
      checked.operation.transition.isPermittedFrom (stateKind head) = true ∧
      ∀ record, head = some record → record.identity = checked.operation.index ∧
        checkAgainstRecord checked.operation.change record.config = .ok () := by
  rw [CheckedOperation.permit] at h
  obtain ⟨hrecord, h⟩ := Outcome.then_eq_ok.mp h
  by_cases hpermitted : checked.operation.transition.isPermittedFrom (stateKind head) = true
  · rw [dif_pos hpermitted] at h
    cases head with
    | none =>
      cases h
      exact ⟨rfl, hpermitted, by simp⟩
    | some record =>
      obtain ⟨hagainst, h⟩ := Outcome.then_eq_ok.mp h
      cases h
      refine ⟨rfl, hpermitted, fun record' heq => ?_⟩
      cases heq
      refine ⟨?_, hagainst⟩
      by_contra hne
      simp [checkRecord, hne, refuse] at hrecord
  · rw [dif_neg hpermitted] at h
    cases h

/-- A permitted operation creates an absent index, or changes an active one. -/
theorem permitted_cases {index : IndexIdentity} {head : Option (IndexRecord R)}
    {current : Current M P R} (hstanding : Standing index head current)
    {checked : CheckedOperation M P R} {validated : ValidatedOperation M P R}
    (h : checked.permit head = .ok validated) :
    (head = none ∧ current = none ∧ ∃ config, checked.operation.change = .create config) ∨
    ∃ record payload, current = some (record, payload) ∧ payload.Sound ∧
      (∀ config, checked.operation.change ≠ .create config) ∧
      checkAgainstRecord checked.operation.change payload.config = .ok () := by
  obtain ⟨-, hpermitted, hagainst⟩ := permit_eq_ok h
  simp only [LifecycleOperation.transition] at hpermitted
  cases hstanding with
  | absent =>
    left
    cases hchange : checked.operation.change with
    | create config => exact ⟨rfl, rfl, config, rfl⟩
    | insert members => rw [hchange] at hpermitted; cases hpermitted
    | remove ids => rw [hchange] at hpermitted; cases hpermitted
    | rebuild config members => rw [hchange] at hpermitted; cases hpermitted
    | destroy retention => rw [hchange] at hpermitted; cases hpermitted
  | @active payload hsound hnamed =>
    refine .inr ⟨_, payload, rfl, hsound, fun config hchange => ?_, (hagainst _ rfl).2⟩
    rw [hchange] at hpermitted
    cases hpermitted
  | destroyed stored =>
    cases hchange : checked.operation.change <;> (rw [hchange] at hpermitted; cases hpermitted)

/-! ## Building -/

variable [VectorMath] {index : IndexIdentity} {head : Option (IndexRecord R)}
  {current : Current M P R} {checked : CheckedOperation M P R}
  {validated : ValidatedOperation M P R}

/-- The successor of a permitted operation, or how its counters are exhausted. -/
theorem successor_total (hstanding : Standing index head current)
    (hpermit : checked.permit head = .ok validated) :
    Comes checked.operation current (Publishes checked.operation checked.identity current)
      (Apply.successor validated current) := by
  obtain ⟨hchecked, -⟩ := permit_eq_ok hpermit
  have hchange := checked.change
  have hnodup := checkChange_nodup hchange
  rcases permitted_cases hstanding hpermit with habsent | hactive
  · obtain ⟨-, rfl, config, hop⟩ := habsent
    rw [hop, checkChange] at hchange
    have hextends := create_extends (M := M) (P := P) (R := R) (Outcome.ofResult_eq_ok.mp hchange)
    rw [← hop] at hextends
    exact .inl ⟨_, by simp [Apply.successor, hchecked, hop], .version hextends, fun failure h => by cases h⟩
  · obtain ⟨record, payload, rfl, hsound, hother, hagainst⟩ := hactive
    simp only [Apply.successor, hchecked]
    cases hop : checked.operation.change with
    | create config => exact (hother config hop).elim
    | insert members =>
      rw [hop] at hnodup hagainst
      exact publishes_built (insert_built hsound hnodup hagainst hop)
    | remove ids =>
      rw [hop] at hnodup
      exact publishes_built (remove_built hsound hnodup hop)
    | rebuild config members =>
      rw [hop] at hnodup hchange
      obtain ⟨hconfig, hfit⟩ := checkChange_rebuild hchange
      exact publishes_built (rebuild_built hnodup hconfig hfit hop)
    | destroy retention =>
      refine .inl ⟨_, rfl, .destroy hop rfl, fun failure h => ?_⟩
      cases h with
      | version builds last => exact builds retention hop
      | tokens next full =>
        rw [hop] at full
        exact full trivial

/-- A permitted operation fails to build exactly as its counters are exhausted. -/
theorem successor_error_iff (hstanding : Standing index head current)
    (hpermit : checked.permit head = .ok validated) {failure : Failure HeuremaError} :
    Apply.successor validated current = .error failure ↔
      Exhausts checked.operation current failure := by
  rcases successor_total hstanding hpermit with hnext | hfailed
  · obtain ⟨next, hnext, -, hroom⟩ := hnext
    rw [hnext]
    exact iff_of_false (fun h => by cases h) (hroom failure)
  · obtain ⟨failure', hfailure, hexhausts⟩ := hfailed
    rw [hfailure]
    constructor
    · intro h
      cases h
      exact hexhausts
    · intro h
      rw [h.unique hexhausts]

theorem successor_publishes (hstanding : Standing index head current)
    (hpermit : checked.permit head = .ok validated) {next : Successor M P R}
    (hok : Apply.successor validated current = .ok next) :
    Publishes checked.operation checked.identity current next := by
  rcases successor_total hstanding hpermit with hnext | hfailed
  · obtain ⟨next', hnext, hpublishes, -⟩ := hnext
    rw [hok] at hnext
    cases hnext
    exact hpublishes
  · obtain ⟨failure, hfailure, -⟩ := hfailed
    rw [hok] at hfailure
    cases hfailure

/-! ## Encoding -/

/-- The writes of an operation decode to what was encoded, under its own key. -/
structure Decodes (operation : LifecycleOperation M P R) (identity : OperationIdentity)
    (next : Successor M P R) (plan : Plan R) (write : PlannedWrite) : Prop where
  head : decodeHead plan.head operation.index = .ok next.head
  record : decodeOperation plan.record operation.index operation.key = .ok next.record
  version : ∀ payload, next.payload = some payload → ∃ expectedHead marker bytes,
    write = .version expectedHead payload.version marker bytes ∧
    decodePayload bytes operation.index payload.version = .ok payload ∧
    fromSlice marker = (.ok (StagingMarker.new operation.index payload.version identity
      operation.transition) : Outcome String StagingMarker)

section Encoded

variable {next : Successor M P R} {expectedHead : Option Bytes}

omit [VectorMath] in
/-- What a permitted operation stages or destroys. -/
theorem plannedWrite_total (h : Publishes checked.operation checked.identity current next)
    (hsound : current.Sound) (hexpected : current.isSome = expectedHead.isSome) :
    ∃ write, plannedWrite next expectedHead checked.operation = .ok write := by
  cases h with
  | @version built hextends =>
    let next := Apply.published checked.operation checked.identity built
    obtain ⟨payload, hpayload, hstores⟩ : ∃ payload, next.payload = some payload ∧ payload.Sound :=
      ⟨_, rfl, hextends.payload_sound hsound checked.change checked.stored
        checked.operation.index checked.identity⟩
    obtain ⟨bytes, hbytes⟩ := encode_stores hstores.stores
    obtain ⟨marker, hmarker⟩ := encode_stores (StagingMarker.stores (.new payload.index
      payload.version next.record.operation next.record.transition))
    exact ⟨_, plannedWrite_payload hpayload hmarker hbytes expectedHead checked.operation⟩
  | @destroy retention record payload hop hactive =>
    obtain ⟨versions, hversions, -⟩ := payload.version.upTo_spec
    rw [hactive, Option.isSome_some] at hexpected
    obtain ⟨expected, rfl⟩ := Option.isSome_iff_exists.mp hexpected.symm
    refine ⟨.destroy expected versions, ?_⟩
    show (do return PlannedWrite.destroy expected (← payload.version.upTo)) = _
    rw [hversions]
    rfl

omit [VectorMath] in
/-- The writes of a permitted operation are all encoded. -/
theorem encodePlan_total (h : Publishes checked.operation checked.identity current next)
    (hsound : current.Sound) (hexpected : current.isSome = expectedHead.isSome) :
    ∃ plan write, encodePlan next expectedHead checked.operation = .ok (plan, write) := by
  obtain ⟨write, hwrite⟩ := plannedWrite_total h hsound hexpected
  obtain ⟨head, hhead⟩ := encodeHead_total h.head_storable
  obtain ⟨record, hrecord⟩ := encode_stores (OperationRecord.stores (h.record_storable hsound))
  rw [encodePlan, hwrite, Outcome.ok_bind, hhead, Outcome.ok_bind, hrecord, Outcome.ok_bind]
  exact ⟨_, write, rfl⟩

omit [VectorMath] in
theorem encodePlan_decodes {plan : Plan R} {write : PlannedWrite}
    (h : Publishes checked.operation checked.identity current next) (hsound : current.Sound)
    (hok : encodePlan next expectedHead checked.operation = .ok (plan, write)) :
    Decodes checked.operation checked.identity next plan write := by
  obtain ⟨hwrite, hhead, hrecord, -⟩ := encodePlan_eq_ok hok
  obtain ⟨hformat, hindex, hidentity⟩ := h.record_format
  refine ⟨?_, ?_, fun payload hpayload => ?_⟩
  · have hidentity : next.head.identity = checked.operation.index := by cases h <;> rfl
    rw [← hidentity]
    exact decodeHead_encodeHead h.head_storable hhead
  · have hdecoded := decodeOperation_encode (h.record_storable hsound) hformat hrecord
    rwa [hindex, hidentity, checked.key] at hdecoded
  · obtain ⟨marker, bytes, rfl, hbytes, hmarker⟩ := plannedWrite_version hpayload hwrite
    refine ⟨expectedHead, marker, bytes, rfl, ?_⟩
    cases h with
    | version hextends =>
      cases hpayload
      have hpayload := hextends.payload_sound hsound checked.change checked.stored
        checked.operation.index checked.identity
      exact ⟨decodePayload_encode hpayload hbytes,
        (StagingMarker.stores _).fromSlice (by decide) (encode_eq_ok.mp hmarker)⟩
    | destroy hop hactive => cases hpayload

end Encoded

end Heurema
