import Heurema.Lifecycle.Chain
import Heurema.Lifecycle.Driver

/-! # The contents of an index and its chain

The contents of a backend hold what the chain of an index leaves, and perhaps one staged
version that some operation on the chain built. Every write keeps that: a stage and a
quarantine keep the chain, a publish and a destroy lengthen it. -/

namespace Heurema

open Serde Hnsw Digest

/-! ## Writes on another index -/

/-- The index a write is on. -/
def Write.index : Write → IndexIdentity
  | .stage write => write.index
  | .publish write => write.index
  | .destroy write => write.index
  | .quarantine write => write.index

/-- Two contents hold the same of an index. -/
structure Store.Same (store store' : Store) (index : IndexIdentity) : Prop where
  head : store'.heads index = store.heads index
  staged : store'.staged index = store.staged index
  payload : ∀ version, store'.payloads (index, version) = store.payloads (index, version)
  record : ∀ key, store'.records (index, key) = store.records (index, key)

/-- A write changes nothing of another index. -/
theorem Store.commit_same (store : Store) {write : Write} {index : IndexIdentity}
    (h : index ≠ write.index) : store.Same (store.commit write) index := by
  cases write with
  | stage write =>
    have h : index ≠ write.index := h
    constructor <;> simp [Store.commit, h]
  | publish write =>
    have h : index ≠ write.index := h
    constructor <;> simp [Store.commit, h]
  | destroy write =>
    have h : index ≠ write.index := h
    constructor <;> simp [Store.commit, h]
  | quarantine write =>
    have h : index ≠ write.index := h
    constructor <;> simp [Store.commit, h]

variable {M P R : Type} [MemberIdentity M] [ProvenanceReference P] [RetentionReference R]
  [SerdeJson] [Unicode] [Sha256] [VectorMath] {issued : LifecycleOperation M P R → Prop}
  {index : IndexIdentity} {log : List (Commit M P R)} {store store' : Store}

/-- The contents of an index are what its chain leaves, and perhaps a staged version. -/
structure Store.Reflects (issued : LifecycleOperation M P R → Prop) (store : Store)
    (index : IndexIdentity) (log : List (Commit M P R)) : Prop where
  chain : Chain issued index log
  head : store.heads index = Chain.head log
  record : ∀ key, store.records (index, key) = Chain.record log key
  published : ∀ version, (∀ marker, store.staged index ≠ some (version, marker)) →
    store.payloads (index, version) = Chain.payload log version
  staged : ∀ version marker, store.staged index = some (version, marker) →
    ∃ payload, store.payloads (index, version) = some payload ∧
      Stageable issued index log version marker payload

/-! ## Facts about chains -/

omit [SerdeJson] [Unicode] [Sha256] [VectorMath] in
theorem PlannedWrite.names_version {write : PlannedWrite} {version : IndexVersion}
    (h : write.Names version) : ∃ expected marker bytes,
      write = .version expected version marker bytes := by
  cases write with
  | version expected staged marker bytes =>
    obtain rfl : staged = version := h
    exact ⟨expected, marker, bytes, rfl⟩
  | destroy expected versions => exact h.elim

/-- What is staged on a chain is its next version. -/
theorem Stageable.numbered {version : IndexVersion} {marker payload : Bytes}
    (h : Stageable issued index log version marker payload) (htop : Top index log) :
    version.get = log.length + 1 := by
  obtain ⟨twin, hbuilds, hwrite⟩ := h
  exact ((hbuilds.advances htop).expected_version hwrite).2

/-- No version is published past the length of a chain. -/
theorem Chain.payload_beyond (h : Chain issued index log) {version : IndexVersion}
    (hbeyond : log.length < version.get) : Chain.payload log version = none := by
  have hnames : ∀ commit ∈ log, ¬ commit.write.Names version := by
    induction h with
    | nil =>
      intro commit hcommit
      cases hcommit
    | @commit log commit chain fresh builds found ih =>
      rw [List.length_cons] at hbeyond
      intro other hother hother'
      rcases List.mem_cons.mp hother with rfl | hother
      · obtain ⟨expected, marker, bytes, hwrite⟩ := PlannedWrite.names_version hother'
        have hnumbered := ((builds.advances chain.top).expected_version hwrite).2
        omega
      · exact ih (by omega) other hother hother'
  have hpublished : Chain.published log version = none :=
    List.findSome?_eq_none_iff.mpr fun other hother => if_neg (hnames other hother)
  cases log with
  | nil => rfl
  | cons commit log =>
    cases hwrite : commit.write with
    | version expected other marker bytes => rw [Chain.payload_version hwrite, hpublished]
    | destroy head versions => exact Chain.payload_destroy hwrite version

/-- Publishing a version keeps the payloads of the others. -/
theorem Chain.payload_kept {commit : Commit M P R} (h : Chain issued index (commit :: log))
    {expected : Option Bytes} {version : IndexVersion} {marker bytes : Bytes}
    (hwrite : commit.write = .version expected version marker bytes) {other : IndexVersion}
    (hother : other ≠ version) : Chain.payload (commit :: log) other = Chain.payload log other := by
  have hnames : ¬ commit.write.Names other := by
    rw [hwrite]
    exact Ne.symm hother
  obtain ⟨hchain, hadvances⟩ := h.advances
  cases hadvances with
  | destroy hwrite' =>
    rw [hwrite] at hwrite'
    cases hwrite'
  | version hwrite' hnumbered hstanding =>
    have hpublished : Chain.published (commit :: log) other = Chain.published log other := by
      rw [Chain.published, List.findSome?_cons, if_neg hnames]
      rfl
    rw [Chain.payload_version hwrite, hpublished]
    cases log with
    | nil => rfl
    | cons last log =>
      -- The commit before published a version, as its head is active.
      obtain ⟨config, active, hdecoded⟩ := hstanding _ rfl
      cases hchain.advances.2 with
      | destroy hlast _ _ _ _ hdestroyed =>
        rw [hdestroyed] at hdecoded
        cases hdecoded
      | version hlast => rw [Chain.payload_version hlast]

/-- Every version up to an active one has a payload. -/
theorem Chain.payload_stored (h : Chain issued index log) {head : Bytes} {config : IndexConfig}
    {active version : IndexVersion} (hhead : Chain.head log = some head)
    (hdecoded : decodeHead head index = .ok (⟨index, config, .active active⟩ : IndexRecord R))
    (hle : version.get ≤ log.length) : ∃ bytes, Chain.payload log version = some bytes := by
  induction h generalizing head config active with
  | nil => cases hhead
  | @commit log commit chain fresh builds found ih =>
    have hwhole : Chain issued index (commit :: log) := .commit chain fresh builds found
    cases hhead
    cases hwrite : commit.write with
    | destroy expected versions =>
      cases builds.advances chain.top with
      | version hwrite' =>
        rw [hwrite] at hwrite'
        cases hwrite'
      | destroy _ _ _ _ _ hdestroyed =>
        rw [hdestroyed] at hdecoded
        cases hdecoded
    | version expected target marker bytes =>
      have hadvances := builds.advances chain.top
      have hnumbered := (hadvances.expected_version hwrite).2
      by_cases htarget : version = target
      · subst htarget
        rw [Commit.Found, hwrite] at found
        obtain ⟨payload, hstored, -⟩ := found
        exact ⟨payload, Chain.payload_published hwrite hstored⟩
      · rw [hwhole.payload_kept hwrite htarget]
        have hne : version.get ≠ target.get := fun heq => htarget (IndexVersion.ext heq)
        rw [List.length_cons] at hle
        have hle : version.get ≤ log.length := by omega
        have hpositive := version.nonzero
        cases hlast : Chain.head log with
        | none =>
          have hempty : log = [] := by simpa [Chain.head] using hlast
          rw [hempty] at hle
          exact absurd hle (by simp; omega)
        | some last =>
          obtain ⟨config, previous, hprevious⟩ := hadvances.standing_version hwrite hlast
          exact ih hlast hprevious hle

/-! ## What the writes keep -/

/-- A publication whose version is staged. -/
def Publication.staged (publication : Publication M P R) : Staged R :=
  ⟨publication.plan, publication.write.staged⟩

/-- The write that publishes a commit. -/
def Commit.publishing (commit : Commit M P R) : Write := commit.toPublication.staged.publishing

section Publishing

variable {publication : Publication M P R}

omit [VectorMath]

theorem Publication.publishing_version {expectedHead : Option Bytes} {version : IndexVersion}
    {marker bytes : Bytes} (h : publication.write = .version expectedHead version marker bytes) :
    publication.staged.publishing = .publish {
      index := publication.plan.index
      version
      key := publication.plan.operation.key
      expectedHead
      marker
      head := publication.plan.head
      operation := publication.plan.record } := by
  simp only [staged, Staged.publishing, h, PlannedWrite.staged]

theorem Publication.publishing_destroy {expectedHead : Bytes} {versions : List IndexVersion}
    (h : publication.write = .destroy expectedHead versions) :
    publication.staged.publishing = .destroy {
      index := publication.plan.index
      key := publication.plan.operation.key
      expectedHead
      head := publication.plan.head
      operation := publication.plan.record
      versions } := by
  simp only [staged, Staged.publishing, h, PlannedWrite.staged]

/-- A publishing write is on the index of its plan. -/
theorem Publication.publishing_index (publication : Publication M P R) :
    publication.staged.publishing.index = publication.plan.index := by
  cases h : publication.write with
  | version expected version marker bytes => rw [publishing_version h]; rfl
  | destroy expected versions => rw [publishing_destroy h]; rfl

end Publishing

namespace Store.Reflects

theorem empty : Store.empty.Reflects issued index ([] : List (Commit M P R)) where
  chain := .nil
  head := rfl
  record _ := rfl
  published _ _ := rfl
  staged _ _ hstaged := by cases hstaged

theorem same (h : store.Reflects issued index log) (hsame : store.Same store' index) :
    store'.Reflects issued index log where
  chain := h.chain
  head := hsame.head.trans h.head
  record key := (hsame.record key).trans (h.record key)
  published version hnone := by
    rw [hsame.staged] at hnone
    exact (hsame.payload version).trans (h.published version hnone)
  staged version marker hstaged := by
    rw [hsame.staged] at hstaged
    rw [hsame.payload]
    exact h.staged version marker hstaged

/-- A head that is still the one of an earlier chain is that of the same chain. -/
theorem of_head (h : store.Reflects issued index log) {earlier : List (Commit M P R)}
    (hearlier : earlier <:+ log) (hhead : store.heads index = Chain.head earlier) :
    earlier = log := by
  obtain ⟨later, rfl⟩ := hearlier
  rw [h.chain.head_fresh (h.head.symm.trans hhead)]
  rfl

theorem stage (h : store.Reflects issued index log) {write : StageWrite}
    (hindex : write.index = index) (hnone : store.staged index = none)
    (hstageable : Stageable issued index log write.version write.marker write.payload) :
    (store.commit (.stage write)).Reflects issued index log := by
  subst hindex
  constructor
  case chain => exact h.chain
  case head => exact h.head
  case record => exact h.record
  case published =>
    intro version hother
    have hother : version ≠ write.version := by
      rintro rfl
      exact hother write.marker (Function.update_self ..)
    have hplace : (write.index, version) ≠ (write.index, write.version) := by
      simpa using hother
    have hkept : (store.commit (.stage write)).payloads (write.index, version) =
        store.payloads (write.index, version) := Function.update_of_ne hplace _ _
    rw [hkept]
    exact h.published version (by simp [hnone])
  case staged =>
    intro version marker hstaged
    simp only [Store.commit, Function.update_self, Option.some.injEq, Prod.mk.injEq] at hstaged
    obtain ⟨rfl, rfl⟩ := hstaged
    exact ⟨write.payload, Function.update_self .., hstageable⟩

theorem quarantine (h : store.Reflects issued index log) {write : QuarantineWrite}
    (hindex : write.index = index) (hstaged : store.staged index = some (write.version, write.marker)) :
    (store.commit (.quarantine write)).Reflects issued index log := by
  subst hindex
  have hclear : (store.commit (.quarantine write)).staged write.index = none :=
    Function.update_self ..
  constructor
  case chain => exact h.chain
  case head => exact h.head
  case record => exact h.record
  case published =>
    intro version _
    by_cases hversion : version = write.version
    · subst hversion
      obtain ⟨payload, _, hstageable⟩ := h.staged _ _ hstaged
      have hnumbered := hstageable.numbered h.chain.top
      rw [h.chain.payload_beyond (by omega)]
      exact Function.update_self ..
    · have hplace : (write.index, version) ≠ (write.index, write.version) := by
        simpa using hversion
      have hkept : (store.commit (.quarantine write)).payloads (write.index, version) =
          store.payloads (write.index, version) := Function.update_of_ne hplace _ _
      rw [hkept]
      refine h.published version ?_
      intro marker hother
      rw [hstaged] at hother
      exact hversion (Prod.mk.inj (Option.some.inj hother)).1.symm
  case staged =>
    intro version marker hsome
    rw [hclear] at hsome
    cases hsome

/-- A key that is not recorded is new to the chain. -/
theorem fresh (h : store.Reflects issued index log) {key : OperationKey}
    (hnone : store.records (index, key) = none) :
    ∀ earlier ∈ log, earlier.checked.operation.key ≠ key := by
  rw [h.record, Chain.record, Option.map_eq_none_iff, List.find?_eq_none] at hnone
  intro earlier hearlier hkey
  exact hnone earlier hearlier (by simpa using hkey)

omit [VectorMath] in
theorem record_commit (commit : Commit M P R) (log : List (Commit M P R)) (key : OperationKey) :
    Chain.record (commit :: log) key = if commit.checked.operation.key = key then
      some commit.plan.record else Chain.record log key := by
  rw [Chain.record, List.find?_cons]
  by_cases hkey : commit.checked.operation.key = key <;> simp [hkey, Chain.record]

/-- The publish of a version adds its operation to the chain, over what is staged. -/
theorem publish (h : store.Reflects issued index log) {publication : Publication M P R}
    (hbuilds : Builds issued index (Chain.head log) (Chain.payload log) publication)
    {write : PublishWrite} (hwrite : ∃ expected bytes,
      publication.write = .version expected write.version write.marker bytes)
    (hindex : write.index = index) (hkey : write.key = publication.checked.operation.key)
    (hhead : write.head = publication.plan.head) (hrecord : write.operation = publication.plan.record)
    (hcheck : store.check (.publish write) = .ok ()) :
    ∃ commit : Commit M P R, commit.toPublication = publication ∧
      (store.commit (.publish write)).Reflects issued index (commit :: log) := by
  subst hindex
  obtain ⟨expected, bytes, hversion⟩ := hwrite
  obtain ⟨-, hstaged, -, hnone⟩ := Store.check_publish.mp hcheck
  obtain ⟨payload, hpayload, hstageable⟩ := h.staged _ _ hstaged
  let commit : Commit M P R := { publication with stored := some payload }
  have hcommit : commit.write = .version expected write.version write.marker bytes := hversion
  have hfound : commit.Found issued write.index log := by
    rw [Commit.Found, hcommit]
    exact ⟨payload, rfl, hstageable⟩
  have hfresh := h.fresh hnone
  rw [hkey] at hfresh
  have hchain : Chain issued write.index (commit :: log) := .commit h.chain hfresh hbuilds hfound
  have hclear : (store.commit (.publish write)).staged write.index = none :=
    Function.update_self ..
  refine ⟨commit, rfl, ?_⟩
  constructor
  case chain => exact hchain
  case head =>
    refine (Function.update_self ..).trans ?_
    rw [hhead]
    rfl
  case record =>
    intro key
    rw [record_commit]
    by_cases hsame : write.key = key
    · subst hsame
      rw [if_pos hkey.symm, show commit.plan.record = write.operation from hrecord.symm]
      exact Function.update_self ..
    · have hother : (write.index, key) ≠ (write.index, write.key) := by
        simpa using Ne.symm hsame
      rw [if_neg (fun hcommit => hsame (hkey.trans hcommit))]
      exact (Function.update_of_ne hother _ _).trans (h.record key)
  case published =>
    intro version _
    by_cases hversion : version = write.version
    · subst hversion
      rw [Chain.payload_published hcommit rfl]
      exact hpayload
    · rw [hchain.payload_kept hcommit hversion]
      refine h.published version ?_
      intro marker hother
      rw [hstaged] at hother
      exact hversion (Prod.mk.inj (Option.some.inj hother)).1.symm
  case staged =>
    intro version marker hsome
    rw [hclear] at hsome
    cases hsome

/-- A destroy adds its operation to the chain, and leaves no payload. -/
theorem destroy (h : store.Reflects issued index log) {publication : Publication M P R}
    (hbuilds : Builds issued index (Chain.head log) (Chain.payload log) publication)
    {write : DestroyWrite}
    (hwrite : publication.write = .destroy write.expectedHead write.versions)
    (hindex : write.index = index) (hkey : write.key = publication.checked.operation.key)
    (hhead : write.head = publication.plan.head) (hrecord : write.operation = publication.plan.record)
    (hcheck : store.check (.destroy write) = .ok ()) :
    ∃ commit : Commit M P R, commit.toPublication = publication ∧
      (store.commit (.destroy write)).Reflects issued index (commit :: log) := by
  subst hindex
  obtain ⟨-, hstaged, hnone⟩ := Store.check_destroy.mp hcheck
  let commit : Commit M P R := { publication with stored := none }
  have hcommit : commit.write = .destroy write.expectedHead write.versions := hwrite
  have hfound : commit.Found issued write.index log := by
    rw [Commit.Found, hcommit]
  have hfresh := h.fresh hnone
  rw [hkey] at hfresh
  have hchain : Chain issued write.index (commit :: log) := .commit h.chain hfresh hbuilds hfound
  refine ⟨commit, rfl, ?_⟩
  constructor
  case chain => exact hchain
  case head =>
    refine (Function.update_self ..).trans ?_
    rw [hhead]
    rfl
  case record =>
    intro key
    rw [record_commit]
    by_cases hsame : write.key = key
    · subst hsame
      rw [if_pos hkey.symm, show commit.plan.record = write.operation from hrecord.symm]
      exact Function.update_self ..
    · have hother : (write.index, key) ≠ (write.index, write.key) := by
        simpa using Ne.symm hsame
      rw [if_neg (fun hcommit => hsame (hkey.trans hcommit))]
      exact (Function.update_of_ne hother _ _).trans (h.record key)
  case published =>
    intro version _
    rw [Chain.payload_destroy hcommit]
    show (if write.index = write.index ∧ version ∈ write.versions then none
      else store.payloads (write.index, version)) = none
    split
    · rfl
    · next hremoved =>
      have hversions := ((hbuilds.advances h.chain.top).expected_destroy hwrite).2
      have hbeyond : ¬ version.get ≤ log.length :=
        fun hle => hremoved ⟨rfl, (hversions version).mpr hle⟩
      rw [h.published version (by simp [hstaged])]
      exact h.chain.payload_beyond (by omega)
  case staged =>
    intro version marker hsome
    have hsome : store.staged write.index = some (version, marker) := hsome
    rw [hstaged] at hsome
    cases hsome

/-- A publishing write adds its operation to the chain it was built on. -/
theorem publishing (h : store.Reflects issued index log) {publication : Publication M P R}
    (hbuilds : Builds issued index (Chain.head log) (Chain.payload log) publication)
    (hcheck : store.check publication.staged.publishing = .ok ()) :
    ∃ commit : Commit M P R, commit.toPublication = publication ∧
      (store.commit commit.publishing).Reflects issued index (commit :: log) := by
  obtain ⟨-, -, -, hindex, hoperation, -⟩ := hbuilds.recorded h.chain.top
  have hkey : publication.plan.operation.key = publication.checked.operation.key :=
    (congrArg OperationIdentity.key hoperation).trans publication.checked.key
  cases hwrite : publication.write with
  | version expected version marker bytes =>
    have hpublishing := Publication.publishing_version hwrite
    rw [hpublishing] at hcheck
    obtain ⟨commit, rfl, hreflects⟩ := h.publish hbuilds ⟨expected, bytes, hwrite⟩ hindex hkey rfl
      rfl hcheck
    rw [← hpublishing] at hreflects
    exact ⟨commit, rfl, hreflects⟩
  | destroy expected versions =>
    have hpublishing := Publication.publishing_destroy hwrite
    rw [hpublishing] at hcheck
    obtain ⟨commit, rfl, hreflects⟩ := h.destroy hbuilds hwrite hindex hkey rfl rfl hcheck
    rw [← hpublishing] at hreflects
    exact ⟨commit, rfl, hreflects⟩

end Store.Reflects

end Heurema
