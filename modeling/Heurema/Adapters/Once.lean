import Heurema.Adapters.Receipts
import Heurema.Adapters.Serial

/-! # An operation key is used once

However drivers are interleaved, one write takes effect under the key of an operation, and
whoever asks under that key again is answered by its record. -/

namespace Heurema

open Serde Hnsw Digest

open Outcome (refuse)

/-- What a publishing write records: its index, its key and its record. -/
def Write.recorded : Write → Option (IndexIdentity × OperationKey × Bytes)
  | .publish write => some (write.index, write.key, write.operation)
  | .destroy write => some (write.index, write.key, write.operation)
  | .stage _ | .quarantine _ => none

/-- A write that publishes or destroys an index under a key. -/
def Write.Records (index : IndexIdentity) (key : OperationKey) (write : Write) : Prop :=
  write.recorded.map (fun recorded => (recorded.1, recorded.2.1)) = some (index, key)

instance (index : IndexIdentity) (key : OperationKey) (write : Write) :
    Decidable (write.Records index key) := by
  unfold Write.Records
  infer_instance

section Repetition

variable {M P R : Type} [MemberIdentity M] [ProvenanceReference P] [RetentionReference R]
  [SerdeJson] [Unicode] [Sha256]

/-- The receipt of a recorded operation. -/
def OperationRecord.receipt (record : OperationRecord M P R) : PublishReceipt R where
  index := record.index
  operation := record.operation
  transition := record.transition
  state := record.resulting
  replayed := true

/-- What an operation is answered whose key a record holds: its own checks refuse it, it is
replayed, or it is in conflict with another operation. -/
inductive Repeated (record : OperationRecord M P R) (operation : LifecycleOperation M P R) :
    Outcome HeuremaError (PublishReceipt R) → Prop where
  | unchecked {failure : Failure HeuremaError}
      (checks : CheckedOperation.check operation = .error failure) :
    Repeated record operation (.error failure)
  | replayed {checked : CheckedOperation M P R}
      (checks : CheckedOperation.check operation = .ok checked)
      (same : checked.identity = record.operation) :
    Repeated record operation (.ok record.receipt)
  | conflict {checked : CheckedOperation M P R}
      (checks : CheckedOperation.check operation = .ok checked)
      (other : checked.identity.digest ≠ record.operation.digest) :
    Repeated record operation (refuse (.operationConflict {
      index := operation.index
      key := operation.key
      recorded := record.operation.digest
      requested := checked.identity.digest }))

variable [VectorMath] {σ : Type} [LifecycleBackend σ]

/-- Under every key of an index at most one write takes effect, and every operation under a
key that was used is answered by the record of that write, without a write of its own. -/
structure OncePerKey (issued : LifecycleOperation M P R → Prop) (start : σ) : Prop where
  once : ∀ (pool : Drivers σ) index key, Reached issued start pool →
    (pool.state.2.filter (·.Records index key)).length ≤ 1
  recorded : ∀ (pool : Drivers σ) write index key bytes, Reached issued start pool →
    write ∈ pool.state.2 → write.recorded = some (index, key, bytes) →
    ∃ record : OperationRecord M P R, decodeOperation bytes index key = .ok record ∧
      ∀ (operation : LifecycleOperation M P R) (last : Drivers σ) calls,
        operation.index = index → operation.key = key →
        (∀ outcome, Pool.Beside LifecycleBackend.acts (Runs issued) (Driver.apply operation) pool
            calls outcome last →
          Repeated record operation outcome ∧ ∀ made ∈ calls, made.1.Reads) ∧
        ∀ outcome, Pool.Beside LifecycleBackend.acts (Runs issued) (Driver.prepare operation) pool
            calls outcome last →
          ∃ answer, Repeated record operation answer ∧ outcome = answer.map .replayed

end Repetition

section Keys

variable {M P R : Type} [MemberIdentity M] [ProvenanceReference P] [RetentionReference R]
  [SerdeJson] [Unicode] [Sha256] {index : IndexIdentity} {key : OperationKey}

omit [ProvenanceReference P] [RetentionReference R] [SerdeJson] in
/-- What a publication records. -/
theorem Publication.publishing_recorded [ProvenanceReference P] [RetentionReference R] [SerdeJson]
    (publication : Publication M P R) : publication.staged.publishing.recorded =
      some (publication.plan.index, publication.plan.operation.key, publication.plan.record) := by
  cases h : publication.write with
  | version expected version marker bytes => rw [publishing_version h]; rfl
  | destroy expected versions => rw [publishing_destroy h]; rfl

variable [VectorMath] {issued : LifecycleOperation M P R → Prop} {limit : Option Nat}
  {log : List (Commit M P R)} {world : World M P R}

/-- What a commit of a chain records. -/
theorem Chain.recorded (h : Chain issued index log) {commit : Commit M P R} (hmem : commit ∈ log) :
    commit.publishing.recorded =
      some (index, commit.checked.operation.key, commit.plan.record) := by
  obtain ⟨earlier, htop, hbuilds⟩ := h.builds hmem
  obtain ⟨-, -, -, hindex, hoperation, -⟩ := hbuilds.recorded htop
  have hkey : commit.plan.operation.key = commit.checked.operation.key :=
    (congrArg OperationIdentity.key hoperation).trans commit.checked.key
  rw [← hkey, ← hindex]
  exact commit.toPublication.publishing_recorded

/-- A write that recorded something of an index is that of a commit of its chain. -/
theorem World.Inv.committed (h : world.Inv issued) {write : Write} {bytes : Bytes}
    (hmem : write ∈ world.writes) (hrecorded : write.recorded = some (index, key, bytes)) :
    ∃ commit ∈ world.logs index, commit.checked.operation.key = key ∧
      commit.plan.record = bytes ∧ commit.publishing = write := by
  have hpublishes : write.Publishes index := by
    cases write with
    | stage write => cases hrecorded
    | quarantine write => cases hrecorded
    | publish write =>
      cases hrecorded
      rfl
    | destroy write =>
      cases hrecorded
      rfl
  have hkept : write ∈ world.writes.filter (·.Publishes index) :=
    List.mem_filter.mpr ⟨hmem, decide_eq_true hpublishes⟩
  rw [h.recorded, List.mem_map] at hkept
  obtain ⟨commit, hcommit, rfl⟩ := hkept
  have hcommit := List.mem_reverse.mp hcommit
  rw [(h.reflects index).chain.recorded hcommit] at hrecorded
  cases hrecorded
  exact ⟨commit, hcommit, rfl, rfl, rfl⟩

/-- Under one key a world holds one write. -/
theorem World.Inv.once (h : world.Inv issued) (index : IndexIdentity) (key : OperationKey) :
    (world.writes.filter (·.Records index key)).length ≤ 1 := by
  have hchain := (h.reflects index).chain
  have hnarrow : world.writes.filter (·.Records index key) =
      (world.writes.filter (·.Publishes index)).filter (·.Records index key) := by
    rw [List.filter_filter]
    refine List.filter_congr fun write _ => ?_
    rw [← Bool.decide_and]
    refine decide_eq_decide.mpr ?_
    cases write <;> simp [Write.Records, Write.recorded, Write.Publishes]
    all_goals exact fun hindex _ => hindex
  have hrecords : ∀ commit ∈ (world.logs index).reverse,
      decide (commit.publishing.Records index key) =
        decide (commit.checked.operation.key = key) := by
    intro commit hmem
    refine decide_eq_decide.mpr ?_
    rw [Write.Records, hchain.recorded (List.mem_reverse.mp hmem)]
    simp
  rw [hnarrow, h.recorded, List.filter_map, List.length_map]
  calc ((world.logs index).reverse.filter _).length
    _ = ((world.logs index).reverse.filter fun commit =>
          commit.checked.operation.key = key).length :=
      congrArg List.length (List.filter_congr hrecords)
    _ = (((world.logs index).reverse.map fun commit => commit.checked.operation.key)).count key := by
      rw [← List.countP_eq_length_filter, List.count, List.countP_map]
      rfl
    _ ≤ 1 := by
      refine List.nodup_iff_count_le_one.mp ?_ key
      rw [List.map_reverse]
      exact List.nodup_reverse.mpr hchain.keys

/-! ## Under a key that was used -/

/-- The record under the key of a commit is that of the commit. -/
theorem Chain.record_of_mem (h : Chain issued index log) {commit : Commit M P R}
    (hmem : commit ∈ log) :
    Chain.record log commit.checked.operation.key = some commit.plan.record := by
  obtain ⟨found, hfound⟩ : ∃ found, log.find? (fun other =>
      other.checked.operation.key = commit.checked.operation.key) = some found := by
    refine Option.isSome_iff_exists.mp (List.find?_isSome.mpr ⟨commit, hmem, ?_⟩)
    exact decide_eq_true rfl
  have hkey := List.find?_some hfound
  have hsame : found = commit := List.inj_on_of_nodup_map h.keys
    (List.mem_of_find?_eq_some hfound) hmem (of_decide_eq_true hkey)
  rw [Chain.record, hfound, hsame]
  rfl

/-- The record of an operation gives the receipt of its plan. -/
theorem Builds.receipt {publication : Publication M P R}
    (h : Builds issued index (Chain.head log) (Chain.payload log) publication)
    (htop : Top index log) : publication.next.record.receipt = publication.plan.receipt true := by
  obtain ⟨-, hnamed, hidentity, hindex, hoperation, htransition, hresulting⟩ := h.recorded htop
  simp only [OperationRecord.receipt, Plan.receipt, hnamed, hidentity, hindex, hoperation,
    htransition, hresulting]

section Beside

variable {commit : Commit M P R} {operation : LifecycleOperation M P R}
  {pool last : Pool Call.Reply HeuremaError (Store × List Write) Unit}
  {calls : List (Σ call : Call, Except HeuremaError call.Reply)}

/-- A preparation under a key that was used is answered by its record. -/
theorem prepare_beside (hsound : (drivers issued limit).Sound world pool)
    (hmem : commit ∈ world.logs operation.index)
    (hkey : commit.checked.operation.key = operation.key)
    {outcome : Outcome HeuremaError (Preparation R)}
    (h : Pool.Beside (Store.acts limit) (Runs issued) (Driver.prepare operation) pool calls outcome
      last) : ∃ answer, Repeated commit.next.record operation answer ∧
      outcome = answer.map .replayed := by
  unfold Driver.prepare at h
  cases hchecks : CheckedOperation.check operation with
  | error failure =>
    rw [hchecks] at h
    obtain ⟨-, rfl⟩ := h.of_done
    exact ⟨_, .unchecked hchecks, rfl⟩
  | ok checked =>
    obtain rfl := CheckedOperation.check_operation hchecks
    rw [hchecks, Program.lift_ok] at h
    obtain ⟨first, rest, pool', rfl, hfirst, hsound', h⟩ := beside_readHead hsound h
    simp only [Driver.replay, Program.bind_assoc] at h
    obtain ⟨second, rest, pool', rfl, hsecond, hsound', h⟩ := beside_readOperation hsound' h
    have hchain := (hsound'.inv.reflects checked.operation.index).chain
    have hlater := ((hfirst _).trans (hsecond _)).mem hmem
    obtain ⟨earlier, htop, hbuilds⟩ := hchain.builds hlater
    obtain ⟨-, hnamed, hidentity, -, -, -, -⟩ := hbuilds.recorded htop
    have hreplayed := hbuilds.replayed htop rfl hkey.symm
    have hrecord := hchain.record_of_mem hlater
    rw [hkey] at hrecord
    rw [hrecord] at h
    simp only [hreplayed, Program.bind_assoc] at h
    by_cases hother : commit.checked.identity.digest ≠ checked.identity.digest
    · rw [if_pos hother, ← hidentity] at h
      rw [← hidentity] at hother
      obtain ⟨-, rfl⟩ := h.of_done
      exact ⟨_, .conflict hchecks hother.symm, rfl⟩
    · rw [if_neg hother, ← hbuilds.receipt htop] at h
      obtain ⟨-, rfl⟩ := h.of_done
      refine ⟨.ok commit.next.record.receipt, .replayed hchecks ?_, rfl⟩
      have hdigest := not_not.mp hother
      have hnames : checked.identity.key = commit.checked.identity.key := by
        rw [checked.key, commit.checked.key, hkey]
      rw [hidentity]
      exact OperationIdentity.ext hnames hdigest.symm

/-- An operation under a key that was used is answered by its record, and writes nothing. -/
theorem apply_beside (hsound : (drivers issued limit).Sound world pool)
    (hmem : commit ∈ world.logs operation.index)
    (hkey : commit.checked.operation.key = operation.key)
    {outcome : Outcome HeuremaError (PublishReceipt R)}
    (h : Pool.Beside (Store.acts limit) (Runs issued) (Driver.apply operation) pool calls outcome
      last) : Repeated commit.next.record operation outcome ∧ ∀ made ∈ calls, made.1.Reads := by
  rcases h.of_bind with hfailed | hprepared
  · obtain ⟨failure, hprepare, rfl⟩ := hfailed
    obtain ⟨answer, hrepeated, hanswer⟩ := prepare_beside hsound hmem hkey hprepare
    refine ⟨?_, hprepare.makes (Driver.prepare_reads operation)⟩
    cases answer with
    | ok receipt => cases hanswer
    | error failure' =>
      cases hanswer
      exact hrepeated
  · obtain ⟨first, second, preparation, middle, rfl, hprepare, hrest⟩ := hprepared
    obtain ⟨answer, hrepeated, hanswer⟩ := prepare_beside hsound hmem hkey hprepare
    cases answer with
    | error failure => cases hanswer
    | ok receipt =>
      cases hanswer
      obtain ⟨rfl, rfl⟩ := hrest.of_done
      rw [List.append_nil]
      exact ⟨hrepeated, hprepare.makes (Driver.prepare_reads operation)⟩

end Beside

/-! ## On the adapters -/

theorem Adapter.oncePerKey {σ : Type} [LifecycleBackend σ] {Represents : σ → Store → Prop}
    (adapter : Adapter σ limit Represents) {start : σ} (hstart : Represents start .empty) :
    OncePerKey issued start where
  once pool index key hreached := by
    obtain ⟨world, -, hwrites, hsound⟩ := adapter.reached hstart hreached
    rw [hwrites]
    exact hsound.inv.once index key
  recorded pool write index key bytes hreached hmem hrecorded := by
    obtain ⟨world, hrepresents, hwrites, hsound⟩ := adapter.reached hstart hreached
    have hcontents : Contents Represents pool.state (world.store, world.writes) :=
      ⟨hrepresents, hwrites⟩
    rw [hwrites] at hmem
    obtain ⟨commit, hcommit, rfl, rfl, -⟩ := hsound.inv.committed hmem hrecorded
    obtain ⟨earlier, htop, hbuilds⟩ := (hsound.inv.reflects index).chain.builds hcommit
    refine ⟨commit.next.record, (hbuilds.recorded htop).1, ?_⟩
    intro operation last calls hindex hkey
    subst hindex
    constructor
    · intro outcome hbeside
      obtain ⟨contents, hstore, -⟩ := hbeside.simulates adapter.simulates hcontents
      exact apply_beside hsound hcommit hkey.symm hstore
    · intro outcome hbeside
      obtain ⟨contents, hstore, -⟩ := hbeside.simulates adapter.simulates hcontents
      exact prepare_beside hsound hcommit hkey.symm hstore

/-- On both adapters, however drivers are interleaved, an operation key is used once. -/
theorem key_once :
    OncePerKey issued Atmis.LifecycleState.empty ∧
      ∀ limit, OncePerKey issued (Thesauros.ThesaurosBackend.empty limit) :=
  ⟨Atmis.adapter.oncePerKey .empty, fun limit => (Thesauros.adapter limit).oncePerKey (.empty limit)⟩

/-! ## What is a repetition -/

section Repeats

omit [ProvenanceReference P] [RetentionReference R] [SerdeJson] [Unicode] [Sha256] [VectorMath]
  [MemberIdentity M] in
/-- One operation up to the order in which its batch is listed. -/
def LifecycleOperation.SameAs (operation other : LifecycleOperation M P R) : Prop :=
  operation = other ∨ operation.Reordered other

omit [VectorMath] in
/-- The order of a batch does not change the identity of an operation. -/
theorem LifecycleOperation.SameAs.identity {checked other : CheckedOperation M P R}
    (h : checked.operation.SameAs other.operation) : checked.identity = other.identity := by
  have hchecks : (CheckedOperation.check checked.operation).map CheckedOperation.identity =
      (CheckedOperation.check other.operation).map CheckedOperation.identity := by
    rcases h with hsame | hreordered
    · rw [hsame]
    · rw [CheckedOperation.check_eq, CheckedOperation.check_eq, hreordered.checks, hreordered.key]
  rw [checked.check_checked, other.check_checked] at hchecks
  exact Except.ok.inj hchecks

/-- Every write that recorded something is that of an operation of its index, whose identity
the record names; under its key, an operation that passes its checks is replayed exactly when
it is the one that was published, up to the order of its batch, and in conflict otherwise. -/
structure RepeatsExactly (issued : LifecycleOperation M P R → Prop) {σ : Type} [LifecycleBackend σ]
    (start : σ) : Prop where
  published : ∀ (pool : Drivers σ) write index key bytes, Reached issued start pool →
    write ∈ pool.state.2 → write.recorded = some (index, key, bytes) →
    ∃ log, Serializes issued pool.state.1 pool.state.2 index log ∧ ∃ publication ∈ log,
      write = publication.staged.publishing ∧ publication.checked.operation.key = key ∧
      decodeOperation bytes index key = .ok publication.next.record ∧
      publication.next.record.operation = publication.checked.identity ∧
      ∀ (checked : CheckedOperation M P R) (last : Drivers σ) calls outcome,
        issued checked.operation → checked.operation.index = index →
        checked.operation.key = key →
        Pool.Beside LifecycleBackend.acts (Runs issued) (Driver.apply checked.operation) pool calls
          outcome last →
        (publication.checked.operation.SameAs checked.operation →
          outcome = .ok publication.next.record.receipt) ∧
        (¬ publication.checked.operation.SameAs checked.operation →
          outcome = refuse (.operationConflict {
            index
            key
            recorded := publication.checked.identity.digest
            requested := checked.identity.digest }))

omit [VectorMath] in
/-- A repetition is told from another operation by its digest. -/
theorem Repeated.exact (hdistinguishes : Distinguishes issued) {commit : Commit M P R}
    (hidentity : commit.next.record.operation = commit.checked.identity)
    (hcommitted : issued commit.checked.operation) {checked : CheckedOperation M P R}
    (hissued : issued checked.operation) {outcome : Outcome HeuremaError (PublishReceipt R)}
    (h : Repeated commit.next.record checked.operation outcome) :
    (commit.checked.operation.SameAs checked.operation →
      outcome = .ok commit.next.record.receipt) ∧
    (¬ commit.checked.operation.SameAs checked.operation →
      outcome = refuse (.operationConflict {
        index := checked.operation.index
        key := checked.operation.key
        recorded := commit.next.record.operation.digest
        requested := checked.identity.digest })) := by
  have hchecks := checked.check_checked
  cases h with
  | unchecked hrefused =>
    rw [hchecks] at hrefused
    cases hrefused
  | replayed hpassed hsame =>
    rw [hchecks] at hpassed
    cases hpassed
    refine ⟨fun _ => rfl, fun hother => absurd ?_ hother⟩
    have hidentities : commit.checked.identity = checked.identity := hidentity ▸ hsame.symm
    rcases hdistinguishes.same hcommitted hissued hidentities with hsame | hreordered
    · exact .inl (congrArg CheckedOperation.operation hsame)
    · exact .inr hreordered
  | conflict hpassed hother =>
    rw [hchecks] at hpassed
    cases hpassed
    refine ⟨fun hsame => absurd ?_ hother, fun _ => rfl⟩
    rw [hidentity, hsame.identity]

theorem Adapter.repeatsExactly {σ : Type} [LifecycleBackend σ] {Represents : σ → Store → Prop}
    (adapter : Adapter σ limit Represents) (hdistinguishes : Distinguishes issued) {start : σ}
    (hstart : Represents start .empty) : RepeatsExactly issued start where
  published pool write index key bytes hreached hmem hrecorded := by
    obtain ⟨world, hrepresents, hwrites, hsound⟩ := adapter.reached hstart hreached
    have hcontents : Contents Represents pool.state (world.store, world.writes) :=
      ⟨hrepresents, hwrites⟩
    rw [hwrites] at hmem
    obtain ⟨commit, hcommit, rfl, rfl, rfl⟩ := hsound.inv.committed hmem hrecorded
    obtain ⟨earlier, htop, hbuilds⟩ := (hsound.inv.reflects index).chain.builds hcommit
    obtain ⟨hdecoded, -, hidentity, -⟩ := hbuilds.recorded htop
    have hserial := adapter.serializes hdistinguishes hsound.inv hrepresents index
    rw [← hwrites] at hserial
    refine ⟨_, hserial, commit.toPublication, List.mem_map_of_mem hcommit, rfl, rfl, hdecoded,
      hidentity, ?_⟩
    intro checked last calls outcome hissued hindex hkey hbeside
    obtain ⟨contents, hstore, -⟩ := hbeside.simulates adapter.simulates hcontents
    subst hindex
    have hrepeated := (apply_beside hsound hcommit hkey.symm hstore).1
    have hexact := hrepeated.exact hdistinguishes hidentity hbuilds.issued hissued
    rw [hkey, hidentity] at hexact
    exact hexact

/-- On both adapters, however drivers are interleaved, what is replayed is what was published. -/
theorem repeats_exact (hdistinguishes : Distinguishes issued) :
    RepeatsExactly issued Atmis.LifecycleState.empty ∧
      ∀ limit, RepeatsExactly issued (Thesauros.ThesaurosBackend.empty limit) :=
  ⟨Atmis.adapter.repeatsExactly hdistinguishes .empty,
    fun limit => (Thesauros.adapter limit).repeatsExactly hdistinguishes (.empty limit)⟩

end Repeats

end Keys

section Witness

attribute [local instance] Consumer.identity Consumer.reference SerdeJson.compact Unicode.ascii
  Consumer.sha256 Line.math

/-- An insertion that took effect, under whose key another operation is asked for. -/
theorem repeats_exact_consumer : RepeatsExactly (· ∈ Consumer.operations)
      Atmis.LifecycleState.empty ∧
    Consumer.clashing ∈ Consumer.operations ∧ Consumer.clashing.key = Consumer.inserted.key ∧
    ¬ Consumer.inserted.SameAs Consumer.clashing := by
  refine ⟨(repeats_exact Consumer.distinguishes).1, Consumer.clashing_issued, rfl, ?_⟩
  intro hsame
  rcases hsame with hsame | hreordered
  · cases hsame
  · cases hreordered.change

end Witness

end Heurema
