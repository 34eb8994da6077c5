import Heurema.Adapters.Custody
import Heurema.Adapters.Once
import Heurema.Lifecycle.Progress

/-! # What an operation alone is answered

Run alone, as under the writer's lock, an operation is answered by what it finds, cause by
cause in the order in which the driver looks. None of its writes is refused for what is stored:
the checks of a backend that the driver already made never fail. -/

namespace Heurema

open Serde Hnsw Digest

open LifecycleBackend (Shows)

open Outcome (refuse ofResult)

open Driver (alone)

section Verdicts

variable {M P R : Type} [MemberIdentity M] [ProvenanceReference P] [RetentionReference R]
  [SerdeJson] [Unicode] [Sha256] {σ : Type} [LifecycleBackend σ]

/-- What is stored of an index reads as a head and its active version. -/
def Finds (state : σ) (index : IndexIdentity) (head : Option (IndexRecord R))
    (expected : Option Bytes) (current : Current M P R) : Prop :=
  ∃ payloads, Shows state (.readHead index) expected ∧
    (∀ version, Shows state (.readVersion index version) (payloads version)) ∧
    readCurrent index expected payloads = .ok (head, current)

/-- An operation that its checks and the head it finds permit, under a key that no record
holds. -/
structure Permits (state : σ) (checked : CheckedOperation M P R) (expected : Option Bytes)
    (current : Current M P R) (validated : ValidatedOperation M P R) : Prop where
  fresh : Shows state (.readOperation checked.operation.index checked.operation.key) none
  permitted : ∃ head, Finds state checked.operation.index head expected current ∧
    checked.permit head = .ok validated

variable [VectorMath]

/-- What an operation is answered on the state it finds, where `limit` bounds a stored value. -/
inductive Verdict (limit : Option Nat) (state : σ) (operation : LifecycleOperation M P R) :
    Outcome HeuremaError (PublishReceipt R) → Prop where
  /-- Its own checks refuse it. -/
  | unchecked {failure : Failure HeuremaError}
      (checks : CheckedOperation.check operation = .error failure) :
    Verdict limit state operation (.error failure)
  /-- A record holds its key. -/
  | repeated {bytes : Bytes} {record : OperationRecord M P R}
      {outcome : Outcome HeuremaError (PublishReceipt R)}
      (recorded : Shows state (.readOperation operation.index operation.key) (some bytes))
      (decoded : decodeOperation bytes operation.index operation.key = .ok record)
      (answered : Repeated record operation outcome) : Verdict limit state operation outcome
  /-- The head does not permit it. -/
  | forbidden {checked : CheckedOperation M P R} {head : Option (IndexRecord R)}
      {expected : Option Bytes} {current : Current M P R} {failure : Failure HeuremaError}
      (checks : CheckedOperation.check operation = .ok checked)
      (fresh : Shows state (.readOperation operation.index operation.key) none)
      (found : Finds state operation.index head expected current)
      (forbids : checked.permit head = .error failure) :
    Verdict limit state operation (.error failure)
  /-- A version of the index is staged and not published. -/
  | staged {checked : CheckedOperation M P R} {expected : Option Bytes} {current : Current M P R}
      {validated : ValidatedOperation M P R} {version : IndexVersion} {marker : Bytes}
      (checks : CheckedOperation.check operation = .ok checked)
      (permits : Permits state checked expected current validated)
      (left : Shows state (.readStaging operation.index) (some (version, marker))) :
    Verdict limit state operation (refuse (.stagedStateExists operation.index version))
  /-- The index has no next version, or the tokens of its corpus would not fit a `usize`. -/
  | exhausted {checked : CheckedOperation M P R} {expected : Option Bytes} {current : Current M P R}
      {validated : ValidatedOperation M P R} {failure : Failure HeuremaError}
      (checks : CheckedOperation.check operation = .ok checked)
      (permits : Permits state checked expected current validated)
      (unstaged : Shows state (.readStaging operation.index) none)
      (exhausts : Exhausts operation current failure) : Verdict limit state operation (.error failure)
  /-- A value it would store is too large. -/
  | oversized {checked : CheckedOperation M P R} {expected : Option Bytes} {current : Current M P R}
      {validated : ValidatedOperation M P R} {next : Successor M P R} {prepared : Prepared R}
      {refusal : HeuremaError} (checks : CheckedOperation.check operation = .ok checked)
      (permits : Permits state checked expected current validated)
      (unstaged : Shows state (.readStaging operation.index) none)
      (built : Apply.successor validated current = .ok next)
      (encoded : encodePlan next expected operation = .ok (prepared.plan, prepared.write))
      (large : refuseOversized limit prepared.first.sizes = .error refusal) :
    Verdict limit state operation (refuse refusal)
  | published {checked : CheckedOperation M P R} {expected : Option Bytes} {current : Current M P R}
      {validated : ValidatedOperation M P R} {next : Successor M P R} {prepared : Prepared R}
      (checks : CheckedOperation.check operation = .ok checked)
      (permits : Permits state checked expected current validated)
      (unstaged : Shows state (.readStaging operation.index) none)
      (built : Apply.successor validated current = .ok next)
      (encoded : encodePlan next expected operation = .ok (prepared.plan, prepared.write))
      (fits : refuseOversized limit prepared.first.sizes = .ok ()) :
    Verdict limit state operation (.ok (prepared.plan.receipt false))

end Verdicts

section Answers

variable {M P R : Type} [MemberIdentity M] [ProvenanceReference P] [RetentionReference R]
  [SerdeJson] [Unicode] [Sha256] [VectorMath] {issued : LifecycleOperation M P R → Prop}
  {limit : Option Nat} {σ : Type} [LifecycleBackend σ] {Represents : σ → Store → Prop}

/-- What drivers leave of an index reads as a head and its active version. -/
theorem Store.Reflects.reads (hdistinguishes : Distinguishes issued) {store : Store}
    {index : IndexIdentity} {log : List (Commit M P R)} (h : store.Reflects issued index log) :
    ∃ (head : Option (IndexRecord R)) (current : Current M P R),
      readCurrent index (store.heads index) (store.versions index) = .ok (head, current) := by
  have hread := (h.chain.history hdistinguishes).readable.read
  rw [Chain.headBytes, funext (h.chain.payloadBytes hdistinguishes), ← h.read] at hread
  exact ⟨_, _, hread⟩

omit [Sha256] [VectorMath] in
/-- The contents of a backend are what is found of an index. -/
theorem Adapter.finds (adapter : Adapter σ limit Represents) {state : σ} {store : Store}
    (h : Represents state store) {index : IndexIdentity} {head : Option (IndexRecord R)}
    {current : Current M P R}
    (hread : readCurrent index (store.heads index) (store.versions index) = .ok (head, current)) :
    Finds state index head (store.heads index) current :=
  ⟨_, adapter.shows_head h index, adapter.shows_version h index, hread⟩

/-- An operation under a key that a record holds is answered by the record. -/
theorem Adapter.repeated (adapter : Adapter σ limit Represents) {pool : Drivers σ}
    {world : World M P R} (hcontents : Contents Represents pool.state (world.store, world.writes))
    (hsound : (drivers issued limit).Sound world ⟨(world.store, world.writes), pool.programs⟩)
    {operation : LifecycleOperation M P R} {bytes : Bytes}
    (hrecord : world.store.records (operation.index, operation.key) = some bytes) :
    ∃ record : OperationRecord M P R,
      decodeOperation bytes operation.index operation.key = .ok record ∧
      Repeated record operation (alone (Driver.apply operation) pool.state).1 := by
  have hreflects := hsound.inv.reflects operation.index
  rw [hreflects.record, Chain.record, Option.map_eq_some_iff] at hrecord
  obtain ⟨commit, hfound, rfl⟩ := hrecord
  have hcommit := List.mem_of_find?_eq_some hfound
  have hkey : commit.checked.operation.key = operation.key := by
    have hsame := List.find?_some hfound
    exact of_decide_eq_true hsame
  obtain ⟨earlier, htop, hbuilds⟩ := hreflects.chain.builds hcommit
  have hdecoded := (hbuilds.recorded htop).1
  rw [hkey] at hdecoded
  -- Whoever runs alone runs beside drivers that make no step.
  have hact (call : Call) (before : σ × List Write) : LifecycleBackend.acts call before
    (LifecycleBackend.act call before).1 (LifecycleBackend.act call before).2 := rfl
  obtain ⟨calls, hbeside⟩ : ∃ calls, Pool.Beside LifecycleBackend.acts (Runs issued)
      (Driver.apply operation) ⟨pool.state, pool.programs⟩ calls _ _ :=
    Pool.Beside.of_run hact (Driver.apply operation) pool.state
  obtain ⟨contents, hstore, -⟩ := hbeside.simulates adapter.simulates hcontents
  exact ⟨commit.next.record, hdecoded, (apply_beside hsound hcommit hkey hstore).1⟩

/-- What a permitted operation that is built on a chain is answered where nothing is staged. -/
theorem Adapter.finished (adapter : Adapter σ limit Represents) {state : σ × List Write}
    {store : Store} (h : Represents state.1 store) {publication : Publication M P R}
    {log : List (Commit M P R)}
    (hreflects : store.Reflects issued publication.checked.operation.index log)
    (hrecord : store.records
      (publication.checked.operation.index, publication.checked.operation.key) = none)
    (hstaged : store.staged publication.checked.operation.index = none)
    (hbuilds : Builds issued publication.checked.operation.index (Chain.head log)
      (Chain.payload log) publication) :
    Verdict limit state.1 publication.checked.operation
      (alone (Driver.apply publication.checked.operation) state).1 := by
  have hchecks := publication.checked.check_checked
  have hfresh := adapter.shows_operation h publication.checked.operation.index
    publication.checked.operation.key
  have hunstaged := adapter.shows_staging h publication.checked.operation.index
  rw [hrecord] at hfresh
  rw [hstaged] at hunstaged
  obtain ⟨head, current, validated, hread, hpermit, hnext, hencoded⟩ := hbuilds.built
  rw [← hreflects.read] at hread
  rw [← hreflects.head] at hencoded
  have hpermits : Permits state.1 publication.checked _ current validated :=
    ⟨hfresh, head, adapter.finds h hread, hpermit⟩
  let prepared : Prepared R := ⟨publication.plan, publication.write⟩
  have hcheck := hreflects.first_check hstaged hbuilds hrecord
  rw [apply_ready adapter h (hreflects.prepares hstaged hbuilds hrecord)]
  cases hsizes : refuseOversized limit prepared.first.sizes with
  | error refusal =>
    have hadmits : store.admits limit prepared.first = .error refusal := by
      rw [Store.admits, hsizes]
      rfl
    rw [finish_refused adapter h hadmits]
    have hplanned : encodePlan publication.next (store.heads publication.checked.operation.index)
        publication.checked.operation = .ok (prepared.plan, prepared.write) := hencoded
    exact .oversized hchecks hpermits hunstaged hnext hplanned hsizes
  | ok _ =>
    have hadmits : store.admits limit prepared.first = .ok () :=
      Outcome.then_eq_ok.mpr ⟨hsizes, hcheck⟩
    obtain ⟨after, -, hfinished⟩ := finish_admitted adapter h hadmits
    have hverdict : Verdict limit state.1 publication.checked.operation
        (.ok (prepared.plan.receipt false)) :=
      .published hchecks hpermits hunstaged hnext hencoded hsizes
    rw [hfinished]
    exact hverdict

/-- An operation alone is answered by the contents of a world. -/
theorem Adapter.verdict (adapter : Adapter σ limit Represents) (hdistinguishes : Distinguishes issued)
    {start : σ} (hstart : Represents start .empty) {pool : Drivers σ}
    (hreached : Reached issued start pool) {operation : LifecycleOperation M P R}
    (hissued : issued operation) :
    Verdict limit pool.state.1 operation (alone (Driver.apply operation) pool.state).1 := by
  obtain ⟨world, h, hwrites, hsound⟩ := adapter.reached hstart hreached
  cases hchecks : CheckedOperation.check operation with
  | error failure =>
    have hprepare : world.store.prepare operation = .error failure := by
      rw [Store.prepare, hchecks]
      rfl
    rw [apply_failed adapter h hprepare]
    exact .unchecked hchecks
  | ok checked =>
    obtain rfl := CheckedOperation.check_operation hchecks
    have hreflects := hsound.inv.reflects checked.operation.index
    have hfresh := adapter.shows_operation h checked.operation.index checked.operation.key
    cases hrecord : world.store.records (checked.operation.index, checked.operation.key) with
    | some bytes =>
      rw [hrecord] at hfresh
      obtain ⟨record, hdecoded, hrepeated⟩ := adapter.repeated ⟨h, hwrites⟩ hsound hrecord
      exact .repeated hfresh hdecoded hrepeated
    | none =>
      rw [hrecord] at hfresh
      obtain ⟨head, current, hread⟩ := hreflects.reads hdistinguishes
      have hfinds := adapter.finds h hread
      cases hpermit : checked.permit head with
      | error failure =>
        have hbuild : world.store.build checked = .error failure := by
          simp only [Store.build, hread, Outcome.ok_bind, hpermit, Outcome.error_bind]
        have hprepare : world.store.prepare checked.operation = .error failure := by
          simp only [Store.prepare, hchecks, Outcome.ok_bind, hrecord, hbuild, Outcome.error_bind]
        rw [apply_failed adapter h hprepare]
        exact .forbidden hchecks hfresh hfinds hpermit
      | ok validated =>
        have hpermits : Permits pool.state.1 checked _ current validated :=
          ⟨hfresh, head, hfinds, hpermit⟩
        have hshown := adapter.shows_staging h checked.operation.index
        cases hstaged : world.store.staged checked.operation.index with
        | some staged =>
          rw [hstaged] at hshown
          have hrefused : world.store.refuseStaged checked.operation.index =
              .error (.stagedStateExists checked.operation.index staged.1) := by
            rw [Store.refuseStaged, hstaged]
          have hprepare : world.store.prepare checked.operation =
              refuse (.stagedStateExists checked.operation.index staged.1) := by
            simp only [Store.prepare, hchecks, Outcome.ok_bind, hrecord, Store.build, hread, hpermit,
              hrefused]
            rfl
          rw [apply_failed adapter h hprepare]
          exact .staged hchecks hpermits hshown
        | none =>
          rw [hstaged] at hshown
          rcases hreflects.progress hdistinguishes hstaged hissued rfl (readCurrent_head hread)
            hpermit hrecord with hnext | hfailed
          · obtain ⟨publication, rfl, hbuilds, -⟩ := hnext
            exact adapter.finished h hreflects hrecord hstaged hbuilds
          · obtain ⟨failure, current', hprepare, hread', hexhausts⟩ := hfailed
            rw [apply_failed adapter h hprepare]
            exact .exhausted hchecks ⟨hfresh, head, adapter.finds h hread', hpermit⟩ hshown hexhausts

/-- On both adapters, whatever drivers did before, an operation that runs alone is answered by
what it finds, cause by cause. -/
theorem apply_answered (hdistinguishes : Distinguishes issued) {operation : LifecycleOperation M P R}
    (hissued : issued operation) :
    (∀ pool : Drivers Atmis.LifecycleState, Reached issued .empty pool →
      Verdict none pool.state.1 operation (alone (Driver.apply operation) pool.state).1) ∧
    ∀ (limit : Nat) (pool : Drivers Thesauros.ThesaurosBackend),
      Reached issued (.empty limit) pool →
        Verdict (some limit) pool.state.1 operation (alone (Driver.apply operation) pool.state).1 :=
  ⟨fun _ hreached => Atmis.adapter.verdict hdistinguishes .empty hreached hissued,
    fun limit _ hreached =>
      (Thesauros.adapter limit).verdict hdistinguishes (.empty limit) hreached hissued⟩

end Answers

section Witness

attribute [local instance] Consumer.identity Consumer.reference SerdeJson.compact Unicode.ascii
  Consumer.sha256 Line.math

/-- An insertion after the creation, and then another operation under its key. -/
theorem apply_answered_consumer : ∃ first second : Atmis.LifecycleState × List Write,
    first = (alone (Driver.apply Consumer.created) (.empty, [])).2 ∧
    second = (alone (Driver.apply Consumer.inserted) first).2 ∧
    Verdict none first.1 Consumer.inserted (alone (Driver.apply Consumer.inserted) first).1 ∧
    Verdict none second.1 Consumer.clashing (alone (Driver.apply Consumer.clashing) second).1 := by
  obtain ⟨first, hfirst⟩ : ∃ first : Atmis.LifecycleState × List Write,
    first = (alone (Driver.apply Consumer.created) (.empty, [])).2 := ⟨_, rfl⟩
  obtain ⟨second, hsecond⟩ : ∃ second,
    second = (alone (Driver.apply Consumer.inserted) first).2 := ⟨_, rfl⟩
  have hcreated : Reached (· ∈ Consumer.operations) Atmis.LifecycleState.empty ⟨first, []⟩ := by
    rw [hfirst]
    exact reached_apply .init Consumer.created_issued
  have hinserted : Reached (· ∈ Consumer.operations) Atmis.LifecycleState.empty ⟨second, []⟩ := by
    rw [hsecond]
    exact reached_apply hcreated Consumer.inserted_issued
  exact ⟨first, second, hfirst, hsecond,
    (apply_answered Consumer.distinguishes Consumer.inserted_issued).1 _ hcreated,
    (apply_answered Consumer.distinguishes Consumer.clashing_issued).1 _ hinserted⟩

end Witness

end Heurema
