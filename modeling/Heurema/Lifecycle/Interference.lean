import Heurema.Lifecycle.Order
import Heurema.Lifecycle.Worlds

/-! # What every driver keeps

A driver reads the head, the recorded key, the payload and the staged version one after the
other, and writes twice. What it builds it builds on an earlier part of the chain, and its
stage, its publish and its destroy take effect only where that part is still the whole. -/

namespace Heurema

open Serde Hnsw Digest

open Outcome (refuse ofResult)

variable {M P R : Type} [MemberIdentity M] [ProvenanceReference P] [RetentionReference R]
  [SerdeJson] [Unicode] [Sha256] [VectorMath] {issued : LifecycleOperation M P R → Prop}
  {limit : Option Nat} {index : IndexIdentity} {log earlier : List (Commit M P R)}
  {store : Store} {world : World M P R} {publication : Publication M P R}

/-! ## Payloads of an earlier part -/

/-- A payload that a longer chain keeps is that of the earlier part. -/
theorem Chain.payload_earlier {later : List (Commit M P R)}
    (h : Chain issued index (later ++ earlier)) {version : IndexVersion} {bytes : Bytes}
    (hle : version.get ≤ earlier.length)
    (hbytes : Chain.payload (later ++ earlier) version = some bytes) :
    Chain.payload earlier version = some bytes := by
  induction later with
  | nil => exact hbytes
  | cons commit later ih =>
    have h : Chain issued index (commit :: (later ++ earlier)) := h
    have hbytes : Chain.payload (commit :: (later ++ earlier)) version = some bytes := hbytes
    have hlength : (later ++ earlier).length = later.length + earlier.length :=
      List.length_append
    obtain ⟨hchain, hadvances⟩ := h.advances
    cases hadvances with
    | version hwrite hnumbered =>
      have hother : version ≠ _ := fun heq => by
        rw [← congrArg IndexVersion.get heq] at hnumbered
        omega
      rw [h.payload_kept hwrite hother] at hbytes
      exact ih hchain hbytes
    | destroy hwrite =>
      rw [Chain.payload_destroy hwrite] at hbytes
      cases hbytes

/-- A payload that is stored for a published version is that of the chain. -/
theorem Store.Reflects.payload (h : store.Reflects issued index log) {version : IndexVersion}
    (hle : version.get ≤ log.length) :
    store.payloads (index, version) = Chain.payload log version := by
  refine h.published version ?_
  intro marker hstaged
  obtain ⟨payload, -, hstageable⟩ := h.staged version marker hstaged
  have hnumbered := hstageable.numbered h.chain.top
  omega

theorem Store.Reflects.payload_earlier (h : store.Reflects issued index log)
    (hearlier : earlier <:+ log) {version : IndexVersion} {bytes : Bytes}
    (hle : version.get ≤ earlier.length) (hbytes : store.payloads (index, version) = some bytes) :
    Chain.payload earlier version = some bytes := by
  obtain ⟨later, rfl⟩ := hearlier
  rw [h.payload (by rw [List.length_append]; omega)] at hbytes
  exact h.chain.payload_earlier hle hbytes

/-! ## Replays -/

/-- What an operation that was published returns. -/
def Plan.receipt (plan : Plan R) (replayed : Bool) : PublishReceipt R where
  index := plan.index
  operation := plan.operation
  transition := plan.transition
  state := plan.resulting
  replayed

/-- What the record of an operation answers to one with its key: its receipt when the digests
agree, a conflict otherwise. -/
theorem Builds.replayed (h : Builds issued index (Chain.head log) (Chain.payload log) publication)
    (htop : Top index log) {checked : CheckedOperation M P R}
    (hindex : checked.operation.index = index)
    (hkey : checked.operation.key = publication.checked.operation.key) :
    replayed checked publication.plan.record =
      if publication.checked.identity.digest ≠ checked.identity.digest then
        refuse (.operationConflict {
          index
          key := checked.operation.key
          recorded := publication.checked.identity.digest
          requested := checked.identity.digest })
      else .ok (publication.plan.receipt true) := by
  obtain ⟨hrecord, hnamed, hidentity, hplan, hoperation, htransition, hresulting⟩ :=
    h.recorded htop
  subst hindex
  rw [← hkey] at hrecord
  simp only [Heurema.replayed, hrecord, Outcome.ok_bind, hidentity, Plan.receipt, hplan, hoperation,
    htransition, hresulting, hnamed, Outcome.pure_eq]

omit [VectorMath] in
/-- What is recorded of a key is recorded by the one operation published under it. -/
theorem Chain.record_eq_some {key : OperationKey} {bytes : Bytes}
    (h : Chain.record log key = some bytes) :
    ∃ commit ∈ log, commit.checked.operation.key = key ∧ commit.plan.record = bytes := by
  rw [Chain.record, Option.map_eq_some_iff] at h
  obtain ⟨commit, hfound, hbytes⟩ := h
  exact ⟨commit, List.mem_of_find?_eq_some hfound,
    by simpa using List.find?_some hfound, hbytes⟩

/-- Every commit of a chain was built on those before it. -/
theorem Chain.builds (h : Chain issued index log) {commit : Commit M P R} (hmem : commit ∈ log) :
    ∃ earlier : List (Commit M P R), Top index earlier ∧
      Builds issued index (Chain.head earlier) (Chain.payload earlier) commit.toPublication := by
  induction h with
  | nil => cases hmem
  | commit chain fresh builds found ih =>
    rcases List.mem_cons.mp hmem with rfl | hmem
    · exact ⟨_, chain.top, builds⟩
    · exact ih hmem

/-- A receipt of a published operation. -/
def World.Receives (world : World M P R) (receipt : PublishReceipt R) : Prop :=
  ∃ commit ∈ world.logs receipt.index, receipt = commit.plan.receipt receipt.replayed

omit [VectorMath] in
theorem World.Receives.later {later : World M P R} {receipt : PublishReceipt R}
    (h : world.Receives receipt) (hlater : world.Later later) : later.Receives receipt := by
  obtain ⟨commit, hmem, hreceipt⟩ := h
  exact ⟨commit, (hlater _).mem hmem, hreceipt⟩

/-- What is replayed is the receipt of a published operation. -/
theorem replay_keeps (checked : CheckedOperation M P R) :
    (drivers issued limit).Keeps (Returns fun world found => ∀ receipt : PublishReceipt R,
        found = some receipt → world.Receives receipt) world (Driver.replay checked) := by
  unfold Driver.replay
  refine keeps_readOperation ?_
  intro later hlater hinv
  cases hrecord : Chain.record (later.logs checked.operation.index) checked.operation.key with
  | none =>
    refine keeps_return ?_
    intro _ _ receipt hnone
    cases hnone
  | some bytes =>
    refine keeps_lift fun receipt hreceipt => ?_
    refine keeps_return ?_
    intro last hlast found hfound
    cases hfound
    obtain ⟨commit, hmem, hkey, rfl⟩ := Chain.record_eq_some hrecord
    obtain ⟨earlier, htop, hbuilds⟩ := (hinv.reflects _).chain.builds hmem
    have hindex := (hbuilds.recorded htop).2.2.2.1
    rw [hbuilds.replayed htop rfl hkey.symm] at hreceipt
    split at hreceipt
    · cases hreceipt
    · cases hreceipt
      refine ⟨commit, ?_, rfl⟩
      rw [Plan.receipt, hindex]
      exact (hlast _).mem hmem

/-! ## Preparing -/

/-- The head of a chain that names an active version names its last. -/
theorem Chain.active_numbered (h : Chain issued index log) {bytes : Bytes} {record : IndexRecord R}
    {version : IndexVersion} (hhead : Chain.head log = some bytes)
    (hdecoded : decodeHead bytes index = .ok record) (hstate : record.state = .active version) :
    version.get = log.length := by
  cases h.top with
  | absent hempty =>
    subst hempty
    cases hhead
  | active hheaded hdecoded' hnumbered =>
    rw [hheaded] at hhead
    cases hhead
    rw [hdecoded'] at hdecoded
    cases hdecoded
    cases hstate
    exact hnumbered
  | destroyed hheaded hdecoded' =>
    rw [hheaded] at hhead
    cases hhead
    rw [hdecoded'] at hdecoded
    cases hdecoded
    cases hstate

/-- The payload of an active version is the one its chain leaves. -/
theorem activePayload_keeps {version : IndexVersion} {record : IndexRecord R}
    (hearlier : earlier <:+ world.logs index) (hle : version.get ≤ earlier.length) :
    (drivers issued limit).Keeps (Returns fun _ found => ∀ payload : VersionPayload M P,
        found = some payload → ∃ bytes, Chain.payload earlier version = some bytes ∧
          decodeActive bytes index version record = .ok payload) world
      (Driver.activePayload index version record) := by
  unfold Driver.activePayload
  refine keeps_readVersion ?_
  intro later hlater hinv
  cases hbytes : later.store.payloads (index, version) with
  | none =>
    refine keeps_after_reads (Driver.record_reads index) ?_
    intro _ again _ _
    split
    · exact keeps_failure _
    · refine keeps_return ?_
      intro _ _ payload hnone
      cases hnone
  | some bytes =>
    refine keeps_lift ?_
    intro payload hpayload
    refine keeps_return ?_
    intro last hlast found hfound
    cases hfound
    exact ⟨bytes, (hinv.reflects index).payload_earlier (hearlier.trans (hlater index)) hle hbytes,
      hpayload⟩

/-- What a driver reads as the current version is what an earlier part of the chain leaves. -/
theorem current_keeps (hinv : world.Inv issued) (hearlier : earlier <:+ world.logs index)
    {head : Option (IndexRecord R)}
    (hhead : ((Chain.head earlier).mapM fun bytes => decodeHead bytes index) = .ok head) :
    (drivers issued limit).Keeps (Returns fun _ (current : Current M P R) =>
        readCurrent index (Chain.head earlier) (Chain.payload earlier) = .ok (head, current)) world
      (Driver.current index head) := by
  have hchain : Chain issued index earlier := by
    obtain ⟨later, hlog⟩ := hearlier
    have hwhole := (hinv.reflects index).chain
    rw [← hlog] at hwhole
    exact hwhole.suffix
  cases hbytes : Chain.head earlier with
  | none =>
    rw [hbytes] at hhead
    cases hhead
    exact keeps_return fun _ _ => rfl
  | some bytes =>
    rw [hbytes] at hhead
    obtain ⟨record, hdecoded, hsome⟩ := Outcome.bind_eq_ok.mp hhead
    have hdecoded : decodeHead bytes index = (.ok record : Run (IndexRecord R)) := hdecoded
    cases hsome
    cases hstate : record.state with
    | destroyed last retention key =>
      simp only [Driver.current, hstate]
      refine keeps_return fun _ _ => ?_
      simp only [readCurrent, hdecoded, Outcome.ok_bind, hstate, Outcome.pure_eq]
    | active version =>
      simp only [Driver.current, hstate]
      have hnumbered := hchain.active_numbered hbytes hdecoded hstate
      refine keeps_bind (activePayload_keeps hearlier hnumbered.le) ?_
      intro _ found _ _ hfound
      cases found with
      | none => exact keeps_failure _
      | some payload =>
        obtain ⟨stored, hstored, hpayload⟩ := hfound payload rfl
        refine keeps_return fun _ _ => ?_
        simp only [readCurrent, hdecoded, Outcome.ok_bind, hstate, hstored, hpayload,
          Outcome.pure_eq]

/-- An operation that an earlier part of the chain of its index lets through. -/
def World.Built (issued : LifecycleOperation M P R → Prop) (world : World M P R)
    (publication : Publication M P R) : Prop :=
  ∃ earlier, earlier <:+ world.logs publication.checked.operation.index ∧
    Builds issued publication.checked.operation.index (Chain.head earlier) (Chain.payload earlier)
      publication

theorem World.Built.later {later : World M P R} {publication : Publication M P R}
    (h : world.Built issued publication) (hlater : world.Later later) :
    later.Built issued publication := by
  obtain ⟨earlier, hearlier, hbuilds⟩ := h
  exact ⟨earlier, hearlier.trans (hlater _), hbuilds⟩

/-- A prepared operation that an earlier part of its chain lets through. -/
def World.Prepares (issued : LifecycleOperation M P R → Prop) (world : World M P R)
    (prepared : Prepared R) : Prop :=
  ∃ publication, world.Built issued publication ∧
    prepared = ⟨publication.plan, publication.write⟩

theorem World.Prepares.later {later : World M P R} {prepared : Prepared R}
    (h : world.Prepares issued prepared) (hlater : world.Later later) :
    later.Prepares issued prepared := by
  obtain ⟨publication, hbuilt, hwrites⟩ := h
  exact ⟨publication, hbuilt.later hlater, hwrites⟩

theorem build_keeps (hinv : world.Inv issued) {checked : CheckedOperation M P R}
    (hissued : issued checked.operation)
    (hearlier : earlier <:+ world.logs checked.operation.index) :
    (drivers issued limit).Keeps (Returns (World.Prepares issued)) world
      (Driver.build checked (Chain.head earlier)) := by
  unfold Driver.build
  refine keeps_lift fun head hhead => ?_
  refine keeps_bind (current_keeps hinv hearlier hhead) ?_
  intro later current hlater _ hread
  refine keeps_lift fun validated hpermit => ?_
  refine keeps_after_reads (Driver.refuseStaged_reads _) ?_
  intro last _ hlast _
  refine keeps_lift fun next hnext => ?_
  refine keeps_lift fun planned hplanned => ?_
  obtain ⟨plan, write⟩ := planned
  rw [(permit_eq_ok hpermit).1] at hplanned
  refine keeps_return ?_
  intro final hfinal
  refine ⟨⟨checked, next, plan, write⟩, ⟨earlier, ?_, ?_⟩, rfl⟩
  · exact ((hearlier.trans (hlater _)).trans (hlast _)).trans (hfinal _)
  · refine ⟨hissued, rfl, head, current, validated, hread, hpermit, hnext, ?_⟩
    exact Outcome.ofResult_eq_ok.mp hplanned

/-- What a preparation found: a receipt to return, or writes built on an earlier part. -/
def World.Finds (issued : LifecycleOperation M P R → Prop) (world : World M P R) :
    Preparation R → Prop
  | .replayed receipt => world.Receives receipt
  | .ready prepared => world.Prepares issued prepared

theorem prepare_keeps {operation : LifecycleOperation M P R} (hissued : issued operation) :
    (drivers issued limit).Keeps (Returns (World.Finds issued)) world
      (Driver.prepare operation) := by
  unfold Driver.prepare
  refine keeps_lift fun checked hchecked => ?_
  have hissued : issued checked.operation := by
    rw [CheckedOperation.check_operation hchecked]
    exact hissued
  refine keeps_readHead ?_
  intro read _ _
  refine keeps_bind (replay_keeps checked) ?_
  intro later found hlater hinv hfound
  cases found with
  | some receipt =>
    refine keeps_return fun last hlast => ?_
    exact (hfound receipt rfl).later hlast
  | none =>
    refine keeps_bind (build_keeps hinv hissued (hlater _)) ?_
    intro built prepared _ _ hprepared
    refine keeps_return fun last hlast => ?_
    exact hprepared.later hlast

/-! ## Staging and publishing -/

/-- A staged operation that an earlier part of its chain lets through. -/
def World.Stages (issued : LifecycleOperation M P R → Prop) (world : World M P R)
    (staged : Staged R) : Prop :=
  ∃ publication, world.Built issued publication ∧ staged = publication.staged

/-- What a plan names is the index and the operation it was built for. -/
theorem World.Built.names (h : world.Built issued publication) (hinv : world.Inv issued) :
    publication.plan.index = publication.checked.operation.index ∧
      publication.plan.operation.key = publication.checked.operation.key := by
  obtain ⟨earlier, ⟨later, hlog⟩, hbuilds⟩ := h
  have hchain := (hinv.reflects publication.checked.operation.index).chain
  rw [← hlog] at hchain
  obtain ⟨-, -, -, hindex, hoperation, -⟩ := hbuilds.recorded hchain.suffix.top
  exact ⟨hindex, (congrArg OperationIdentity.key hoperation).trans publication.checked.key⟩

/-- What a head that is still expected lets through is built on the whole chain. -/
theorem World.Built.whole (h : world.Built issued publication) (hinv : world.Inv issued)
    (hhead : ∀ earlier : List (Commit M P R),
      Advances publication.checked.operation.index earlier publication →
      world.store.heads publication.checked.operation.index = Chain.head earlier) :
    Builds issued publication.checked.operation.index
      (Chain.head (world.logs publication.checked.operation.index))
      (Chain.payload (world.logs publication.checked.operation.index)) publication := by
  obtain ⟨earlier, hearlier, hbuilds⟩ := h
  have hreflects := hinv.reflects publication.checked.operation.index
  have htop : Top publication.checked.operation.index earlier := by
    obtain ⟨later, hlog⟩ := hearlier
    have hchain := hreflects.chain
    rw [← hlog] at hchain
    exact hchain.suffix.top
  obtain rfl := hreflects.of_head hearlier (hhead earlier (hbuilds.advances htop))
  exact hbuilds

/-- The stage of a version takes effect only on the chain it was built on. -/
theorem stage_keeps {prepared : Prepared R} (h : world.Prepares issued prepared) :
    (drivers issued limit).Keeps (Returns (World.Stages issued)) world prepared.stage := by
  obtain ⟨publication, hbuilt, rfl⟩ := h
  cases hwrite : publication.write with
  | destroy expected versions =>
    simp only [Prepared.stage]
    refine keeps_return fun later hlater => ⟨publication, hbuilt.later hlater, ?_⟩
    rw [Publication.staged, hwrite]
  | version expected version marker payload =>
    simp only [Prepared.stage]
    refine keeps_commit ?_
    intro later hlater hinv hcheck
    have hbuilt := hbuilt.later hlater
    obtain ⟨hindex, -⟩ := hbuilt.names hinv
    obtain ⟨hhead, hnone, -, -⟩ := Store.check_stage.mp hcheck
    have hbuilds := hbuilt.whole hinv fun earlier hadvances =>
      hindex ▸ hhead.trans (hadvances.expected_version hwrite).1
    rw [← hindex] at hbuilds
    have hadvances := hbuilds.advances (hinv.reflects publication.plan.index).chain.top
    have hstageable : Stageable issued publication.plan.index (later.logs publication.plan.index)
        version marker payload := by
      refine ⟨publication, hbuilds, ?_⟩
      rw [hwrite, (hadvances.expected_version hwrite).1]
    refine ⟨later.logs publication.plan.index, List.suffix_refl _,
      (hinv.reflects publication.plan.index).stage rfl hnone hstageable, hinv.recorded_same id, ?_⟩
    refine keeps_return ?_
    intro last hlast
    refine ⟨publication, (hbuilt.later (later.later_commit (List.suffix_refl _))).later hlast, ?_⟩
    rw [Publication.staged, hwrite]

omit [VectorMath] in
/-- The head that a publishing write expects is that of the chain it was built on. -/
theorem Advances.expected_head {index : IndexIdentity}
    (h : Advances index earlier publication)
    (hcheck : store.check publication.staged.publishing = .ok ()) :
    store.heads publication.plan.index = Chain.head earlier := by
  cases hwrite : publication.write with
  | version expected version marker bytes =>
    rw [Publication.publishing_version hwrite] at hcheck
    rw [← (h.expected_version hwrite).1]
    exact (Store.check_publish.mp hcheck).1
  | destroy expected versions =>
    rw [Publication.publishing_destroy hwrite] at hcheck
    rw [(h.expected_destroy hwrite).1]
    exact (Store.check_destroy.mp hcheck).1

/-- A publish or a destroy takes effect only on the chain it was built on. -/
theorem publish_keeps {staged : Staged R} (h : world.Stages issued staged) :
    (drivers issued limit).Keeps (Returns World.Receives) world staged.publish := by
  obtain ⟨publication, hbuilt, rfl⟩ := h
  refine keeps_commit ?_
  intro later hlater hinv hcheck
  have hbuilt := hbuilt.later hlater
  obtain ⟨hindex, -⟩ := hbuilt.names hinv
  have hbuilds := hbuilt.whole hinv fun earlier hadvances => hindex ▸ hadvances.expected_head hcheck
  rw [← hindex] at hbuilds
  obtain ⟨commit, rfl, hreflects⟩ := (hinv.reflects _).publishing hbuilds hcheck
  have hwrites : commit.toPublication.staged.publishing.index = commit.plan.index :=
    Publication.publishing_index _
  rw [hwrites]
  refine ⟨commit :: later.logs commit.plan.index, List.suffix_cons _ _, hreflects,
    hinv.recorded_commit (Publication.publishing_publishes _), ?_⟩
  refine keeps_return fun last hlast => ⟨commit, ?_, rfl⟩
  refine (hlast commit.plan.index).mem ?_
  show commit ∈ Function.update later.logs _ _ _
  rw [hwrites, Function.update_self]
  exact List.mem_cons_self

/-- What an operation returns is the receipt of a published one. -/
theorem apply_keeps {operation : LifecycleOperation M P R} (hissued : issued operation) :
    (drivers issued limit).Keeps (Returns World.Receives) world (Driver.apply operation) := by
  unfold Driver.apply
  refine keeps_bind (prepare_keeps hissued) ?_
  intro later preparation _ _ hfinds
  cases preparation with
  | replayed receipt => exact keeps_return fun _ hlast => hfinds.later hlast
  | ready prepared =>
    refine keeps_bind (stage_keeps hfinds) ?_
    intro _ staged _ _ hstages
    exact publish_keeps hstages

/-- A quarantine keeps every chain. -/
theorem quarantine_keeps (write : QuarantineWrite) :
    (drivers issued limit).Keeps (Returns fun _ _ => True) world
      (Driver.commit (.quarantine write)) := by
  show (drivers issued limit).Keeps _ world (Driver.commit (.quarantine write) >>= pure)
  refine keeps_commit ?_
  intro later _ hinv hcheck
  have hstaged := (Store.check_quarantine.mp hcheck).1
  exact ⟨later.logs write.index, List.suffix_refl _,
    (hinv.reflects write.index).quarantine rfl hstaged, hinv.recorded_same id,
    keeps_return fun _ _ => trivial⟩

end Heurema
