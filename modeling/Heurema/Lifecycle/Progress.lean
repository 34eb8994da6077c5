import Heurema.Lifecycle.Alone
import Heurema.Lifecycle.Twins

/-! # An index with nothing staged goes on

On contents that drivers leave, where nothing is staged for an index, an operation that is
permitted under a new key is prepared and let through, unless a counter is exhausted or a
value does not fit the backend. -/

namespace Heurema

open Serde Hnsw Digest

open Outcome (refuse ofResult)

variable {M P R : Type} [MemberIdentity M] [ProvenanceReference P] [RetentionReference R]
  [SerdeJson] [Unicode] [Sha256] [VectorMath] {issued : LifecycleOperation M P R → Prop}
  {index : IndexIdentity} {log : List (Commit M P R)} {store : Store}

/-- What an operation leaves of the state it finds: the first version, the version after the
active one, or the destroyed state after it. -/
inductive Follows (head : Option (IndexRecord R)) : IndexState R → Prop where
  | created (absent : head = none) : Follows head (.active .FIRST)
  | next {record : IndexRecord R} {active next : IndexVersion} (found : head = some record)
      (standing : record.state = .active active) (numbered : next.get = active.get + 1) :
    Follows head (.active next)
  | destroyed {record : IndexRecord R} {active : IndexVersion} {retention : R} {key : OperationKey}
      (found : head = some record) (standing : record.state = .active active) :
    Follows head (.destroyed active retention key)

omit [VectorMath] in
theorem Publishes.follows {head : Option (IndexRecord R)} {current : Current M P R}
    (hstanding : Standing index head current) {checked : CheckedOperation M P R}
    {validated : ValidatedOperation M P R} (hpermit : checked.permit head = .ok validated)
    {next : Successor M P R}
    (h : Publishes checked.operation checked.identity current next) :
    Follows head next.record.resulting := by
  cases h with
  | version hextends =>
    have htarget := hextends.target
    rcases permitted_cases hstanding hpermit with habsent | hactive
    · obtain ⟨hhead, rfl, -⟩ := habsent
      have htarget : _ = IndexVersion.FIRST := htarget
      rw [Apply.published, OperationRecord.new, htarget]
      exact .created hhead
    · obtain ⟨record, payload, rfl, -⟩ := hactive
      obtain ⟨hhead, -, -, hstate⟩ := hstanding.active_record rfl
      exact .next hhead hstate (IndexVersion.next?_get (IndexVersion.successor_eq_ok.mp htarget))
  | destroy hop hactive =>
    obtain ⟨hhead, -, -, hstate⟩ := hstanding.active_record hactive
    exact .destroyed hhead hstate

omit [Sha256] [VectorMath] in
theorem readCurrent_head {head : Option Bytes} {payload : IndexVersion → Option Bytes}
    {record : Option (IndexRecord R)} {current : Current M P R}
    (h : readCurrent index head payload = .ok (record, current)) :
    (head.mapM fun bytes => decodeHead bytes index) = .ok record := by
  cases head with
  | none =>
    cases h
    rfl
  | some bytes =>
    obtain ⟨decoded, hdecoded, h⟩ := Outcome.bind_eq_ok.mp h
    have hmapped : ((some bytes).mapM fun bytes => decodeHead bytes index) =
        (.ok (some decoded) : Run (Option (IndexRecord R))) := by
      simp only [Option.mapM_some, hdecoded]
      rfl
    rw [hmapped]
    cases hstate : decoded.state with
    | destroyed last retention key =>
      simp only [hstate] at h
      cases h
      rfl
    | active version =>
      simp only [hstate] at h
      cases hpayload : payload version with
      | none =>
        rw [hpayload] at h
        cases h
      | some stored =>
        rw [hpayload] at h
        obtain ⟨active, -, h⟩ := Outcome.bind_eq_ok.mp h
        cases h
        rfl

/-- The first write of what is built on a chain is let through where nothing is staged. -/
theorem Store.Reflects.first_check (h : store.Reflects issued index log)
    (hnone : store.staged index = none) {publication : Publication M P R}
    (hbuilds : Builds issued index (Chain.head log) (Chain.payload log) publication)
    (hrecord : store.records (index, publication.checked.operation.key) = none) :
    store.check (Prepared.first ⟨publication.plan, publication.write⟩) = .ok () := by
  obtain ⟨-, -, -, hindex, hoperation, -⟩ := hbuilds.recorded h.chain.top
  have hkey : publication.plan.operation.key = publication.checked.operation.key :=
    (congrArg OperationIdentity.key hoperation).trans publication.checked.key
  have hadvances := hbuilds.advances h.chain.top
  rw [← hkey] at hrecord
  subst hindex
  cases hwrite : publication.write with
  | version expected version marker bytes =>
    obtain ⟨hexpected, hnumbered⟩ := hadvances.expected_version hwrite
    refine Store.check_stage.mpr ⟨h.head.trans hexpected.symm, hnone, ?_, hrecord⟩
    refine (h.published version fun marker' hstaged => ?_).trans
      (h.chain.payload_beyond (by omega))
    rw [hnone] at hstaged
    cases hstaged
  | destroy expected versions =>
    have hexpected := (hadvances.expected_destroy hwrite).1
    exact Store.check_destroy.mpr ⟨h.head.trans hexpected, hnone, hrecord⟩

/-- What is built on a chain is prepared where nothing is staged. -/
theorem Store.Reflects.prepares (h : store.Reflects issued index log)
    (hnone : store.staged index = none) {publication : Publication M P R}
    (hbuilds : Builds issued index (Chain.head log) (Chain.payload log) publication)
    (hrecord : store.records (index, publication.checked.operation.key) = none) :
    store.prepare publication.checked.operation =
      .ok (.ready ⟨publication.plan, publication.write⟩) := by
  obtain ⟨record, current, validated, hread, hpermit, hnext, hencoded⟩ := hbuilds.built
  have hindex := hbuilds.indexed
  subst hindex
  rw [← h.read] at hread
  rw [← h.head] at hencoded
  have hstaged := Store.refuseStaged_eq_ok.mpr hnone
  have hvalidated := (permit_eq_ok hpermit).1
  have hbuild : store.build publication.checked = .ok ⟨publication.plan, publication.write⟩ := by
    simp only [Store.build, hread, Outcome.ok_bind, hpermit, hstaged, Outcome.ofResult_ok,
      hnext, hvalidated, hencoded, Outcome.pure_eq]
  simp only [Store.prepare, CheckedOperation.check_checked, Outcome.ok_bind, hrecord, hbuild,
    Outcome.pure_eq]

/-- An operation that cannot be applied to what contents read as is not prepared. -/
theorem Store.prepare_failed {checked : CheckedOperation M P R}
    (hnone : store.staged checked.operation.index = none)
    (hrecord : store.records (checked.operation.index, checked.operation.key) = none)
    {head : Option (IndexRecord R)} {current : Current M P R}
    (hread : readCurrent checked.operation.index (store.heads checked.operation.index)
      (store.versions checked.operation.index) = .ok (head, current))
    {validated : ValidatedOperation M P R} (hpermit : checked.permit head = .ok validated)
    {failure : Failure HeuremaError}
    (hfailed : Apply.successor validated current = .error failure) :
    store.prepare checked.operation = .error failure := by
  have hstaged := Store.refuseStaged_eq_ok.mpr hnone
  have hbuild : store.build checked = .error failure := by
    simp only [Store.build, hread, Outcome.ok_bind, hpermit, hstaged, Outcome.ofResult_ok,
      hfailed, Outcome.error_bind]
  simp only [Store.prepare, CheckedOperation.check_checked, Outcome.ok_bind, hrecord, hbuild,
    Outcome.error_bind]

/-- On a chain, a permitted operation fails to build exactly as its counters are exhausted. -/
theorem Store.Reflects.successor_error_iff (hdistinguishes : Distinguishes issued)
    (h : store.Reflects issued index log) {head : Option (IndexRecord R)} {current : Current M P R}
    (hread : readCurrent index (store.heads index) (store.versions index) = .ok (head, current))
    {checked : CheckedOperation M P R} {validated : ValidatedOperation M P R}
    (hpermit : checked.permit head = .ok validated) {failure : Failure HeuremaError} :
    Apply.successor validated current = .error failure ↔
      Exhausts checked.operation current failure := by
  have hhistory := h.chain.history hdistinguishes
  have hsame := hhistory.readable.read
  rw [Chain.headBytes, funext (h.chain.payloadBytes hdistinguishes), ← h.read, hread] at hsame
  cases hsame
  exact Heurema.successor_error_iff hhistory.readable.standing hpermit

/-- A permitted operation under a new key goes on from a chain with nothing staged, or a
counter of its index is exhausted. -/
theorem Store.Reflects.progress (hdistinguishes : Distinguishes issued)
    (h : store.Reflects issued index log) (hnone : store.staged index = none)
    {checked : CheckedOperation M P R} (hissued : issued checked.operation)
    (hindex : checked.operation.index = index)
    {head : Option (IndexRecord R)}
    (hhead : ((store.heads index).mapM fun bytes => decodeHead bytes index) = .ok head)
    {validated : ValidatedOperation M P R} (hpermit : checked.permit head = .ok validated)
    (hrecord : store.records (index, checked.operation.key) = none) :
    (∃ publication : Publication M P R, publication.checked = checked ∧
      Builds issued index (Chain.head log) (Chain.payload log) publication ∧
      Follows head publication.next.record.resulting) ∨
    ∃ failure current, store.prepare checked.operation = .error failure ∧
      readCurrent index (store.heads index) (store.versions index) = .ok (head, current) ∧
      Exhausts checked.operation current failure := by
  have hhistory := h.chain.history hdistinguishes
  have hread := hhistory.readable.read
  rw [Chain.headBytes, funext (h.chain.payloadBytes hdistinguishes)] at hread
  have hcurrent : currentHead (Chain.publications log) = head := by
    have hsame := readCurrent_head hread
    rw [← h.head, hhead] at hsame
    exact (Except.ok.inj hsame).symm
  have hstanding := hhistory.readable.standing
  rw [hcurrent] at hread hstanding
  rw [← hcurrent] at hpermit
  have htotal := hhistory.total hpermit
  rw [hcurrent] at hpermit
  rw [Chain.headBytes] at htotal
  rcases htotal with hnext | hfailed
  · obtain ⟨next, plan, write, hnext, hencoded⟩ := hnext
    refine .inl ⟨⟨checked, next, plan, write⟩, rfl, ?_, ?_⟩
    · exact ⟨hissued, hindex, head, _, validated, hread, hpermit, hnext, hencoded⟩
    · exact (successor_publishes hstanding hpermit hnext).follows hstanding hpermit
  · obtain ⟨failure, hfailure, hexhausts⟩ := hfailed
    rw [← h.read] at hread
    subst hindex
    exact .inr ⟨failure, _, Store.prepare_failed hnone hrecord hread hpermit hfailure, hread,
      hexhausts⟩

end Heurema
