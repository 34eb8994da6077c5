import Heurema.Adapters.Custody
import Heurema.Lifecycle.Audit
import Heurema.Lifecycle.Alone
import Heurema.Lifecycle.Twins

/-! # No update is lost

The writes that published an index, in the order they took effect, are those of a sequence
of operations, each applied to the version the one before it left. -/

namespace Heurema

open Serde Hnsw Digest

open LifecycleBackend (Shows)

section Sequence

variable {M P R : Type} [MemberIdentity M] [ProvenanceReference P] [RetentionReference R]
  [SerdeJson] [Unicode] [Sha256]

/-- The bytes of the record stored under a key. -/
def recordBytes (log : List (Publication M P R)) (key : OperationKey) : Option Bytes :=
  (log.find? fun publication => publication.checked.operation.key = key).map fun publication =>
    publication.plan.record

variable [VectorMath]

/-- What an operation of a sequence wrote: the next version, built and recorded as that, or
the destruction of the last one. -/
inductive Wrote (earlier : List (Publication M P R)) (publication : Publication M P R) : Prop where
  | version {payload : VersionPayload M P} {marker bytes : Bytes}
      (built : publication.next.payload = some payload)
      (write : publication.write = .version (headBytes earlier) payload.version marker bytes)
      (encoded : encode payload.toRaw = .ok bytes)
      (numbered : payload.version.get = earlier.length + 1)
      (fromVersion : publication.next.record.fromVersion.map IndexVersion.get =
        if earlier = [] then none else some earlier.length)
      (resulting : publication.next.record.resulting = .active payload.version)
      (named : payload.operation = publication.next.record.operation)
  | destroy {head : Bytes} {versions : List IndexVersion} {last : IndexVersion} {retention : R}
      {key : OperationKey} (headed : headBytes earlier = some head)
      (write : publication.write = .destroy head versions)
      (numbered : last.get = earlier.length)
      (fromVersion : publication.next.record.fromVersion = some last)
      (resulting : publication.next.record.resulting = .destroyed last retention key)

/-- An operation of a sequence: the successor of the version that those before it left, in
the head, the record and the payload it wrote. -/
structure Applied (index : IndexIdentity) (earlier : List (Publication M P R))
    (publication : Publication M P R) : Prop where
  indexed : publication.checked.operation.index = index
  built : ∃ head current validated,
    readCurrent index (headBytes earlier) (payloadBytes earlier) = .ok (head, current) ∧
    publication.checked.permit head = .ok validated ∧
    Apply.successor validated current = .ok publication.next
  head : encodeHead publication.next.head = .ok publication.plan.head
  record : encode publication.next.record = .ok publication.plan.record
  wrote : Wrote earlier publication

variable {index : IndexIdentity} {log : List (Publication M P R)} {publication : Publication M P R}

theorem History.wrote (h : History index (publication :: log)) : Wrote log publication := by
  obtain ⟨history, hpublished⟩ := h.published
  have hactive {version : IndexVersion} (hstate : publication.next.head.state = .active version) :=
    h.active_version hstate
  obtain ⟨hfrom, hresulting⟩ := hpublished.record_linked
  have hwrite := (encodePlan_eq_ok hpublished.encoded).1
  have hstart := hpublished.start history
  obtain ⟨checked, next, plan, write⟩ := publication
  have hpublishes : Publishes checked.operation checked.identity (currentVersion log) next :=
    hpublished.publishes
  cases hpublishes with
  | @version built hextends =>
    obtain ⟨marker, bytes, hplanned, hbytes, -⟩ := plannedWrite_version rfl hwrite
    refine .version rfl hplanned hbytes (hactive rfl) ?_ rfl rfl
    rw [hfrom]
    rcases hstart with habsent | hcurrent
    · obtain ⟨rfl, -⟩ := habsent
      rfl
    · obtain ⟨record, payload, hcurrent, -⟩ := hcurrent
      have hnonempty : log ≠ [] := fun hempty => by
        rw [hempty] at hcurrent
        cases hcurrent
      rw [if_neg hnonempty, hcurrent]
      exact congrArg some (history.version hcurrent)
  | @destroy retention record payload hop hcurrent =>
    obtain ⟨expected, last, retention', key, versions, hheaded, hstate, -, hplanned⟩ :=
      plannedWrite_destroy rfl hwrite
    cases hstate
    refine .destroy hheaded hplanned (history.version hcurrent) ?_ rfl
    rw [hfrom, hcurrent]
    rfl

theorem History.applied (h : History index (publication :: log)) :
    Applied index log publication where
  indexed := h.published.2.indexed
  built := by
    cases h with
    | publish history indexed fresh read permitted built encoded =>
      exact ⟨_, _, _, read, permitted, built⟩
  head := (encodePlan_eq_ok h.published.2.encoded).2.1
  record := (encodePlan_eq_ok h.published.2.encoded).2.2.1
  wrote := h.wrote

omit [VectorMath] in
/-- A destroy leaves no active version. -/
theorem Published.destroyed (h : Published index log publication) {head : Bytes}
    {versions : List IndexVersion} (hdestroy : publication.write = .destroy head versions) :
    currentVersion (publication :: log) = none := by
  have hwrite := (encodePlan_eq_ok h.encoded).1
  obtain ⟨checked, next, plan, write⟩ := publication
  have hpublishes : Publishes checked.operation checked.identity (currentVersion log) next :=
    h.publishes
  cases hpublishes with
  | version hextends =>
    obtain ⟨marker, bytes, hplanned, -⟩ := plannedWrite_version rfl hwrite
    have hsame := hplanned.symm.trans hdestroy
    cases hsame
  | destroy hop hcurrent => rfl

/-- A destroy is the last operation of its index. -/
theorem History.destroyed_last {later : List (Publication M P R)}
    (h : History index (later ++ publication :: log)) {head : Bytes} {versions : List IndexVersion}
    (hdestroy : publication.write = .destroy head versions) : later = [] := by
  induction later using List.reverseRecOn with
  | nil => rfl
  | append_singleton later next ih =>
    rw [List.append_assoc] at h
    have h : History index (next :: publication :: log) := h.suffix
    obtain ⟨history, hpublished⟩ := h.published
    exfalso
    rcases hpublished.start history with habsent | hactive
    · cases habsent.1
    · obtain ⟨record, payload, hcurrent, -⟩ := hactive
      rw [history.published.2.destroyed hdestroy] at hcurrent
      cases hcurrent

omit [VectorMath] in
theorem Chain.recordBytes (log : List (Commit M P R)) (key : OperationKey) :
    recordBytes (publications log) key = record log key := by
  rw [Heurema.recordBytes, publications, record, List.find?_map, Option.map_map]
  rfl

end Sequence

section Runs

variable {M P R : Type} [MemberIdentity M] [ProvenanceReference P] [RetentionReference R]
  [SerdeJson] [Unicode] [Sha256] [VectorMath] {σ : Type} [LifecycleBackend σ]

/-- A backend and the writes that took effect on it show, of an index, a sequence of
operations: its publishing writes are theirs, each applied to the version the one before it
left, under a key of its own, a destroy last, and what they wrote is what is stored. -/
structure Serializes (issued : LifecycleOperation M P R → Prop) (state : σ) (writes : List Write)
    (index : IndexIdentity) (log : List (Publication M P R)) : Prop where
  issued : ∀ publication ∈ log, issued publication.checked.operation
  writes : writes.filter (·.Publishes index) =
    log.reverse.map fun publication => publication.staged.publishing
  applied : ∀ later publication earlier, log = later ++ publication :: earlier →
    Applied index earlier publication
  last : ∀ later publication earlier head versions, log = later ++ publication :: earlier →
    publication.write = .destroy head versions → later = []
  keys : (log.map fun publication => publication.checked.operation.key).Nodup
  head : Shows state (.readHead index) (headBytes log)
  payload : ∀ version : IndexVersion, version.get ≤ log.length →
    Shows state (.readVersion index version) (payloadBytes log version)
  record : ∀ key, Shows state (.readOperation index key) (recordBytes log key)

variable {issued : LifecycleOperation M P R → Prop}

theorem Chain.asked {index : IndexIdentity} {log : List (Commit M P R)}
    (h : Chain issued index log) : ∀ commit ∈ log, issued commit.checked.operation := by
  intro commit hmem
  obtain ⟨earlier, -, hbuilds⟩ := h.builds hmem
  exact hbuilds.issued

theorem Chain.keys {index : IndexIdentity} {log : List (Commit M P R)}
    (h : Chain issued index log) :
    (log.map fun commit => commit.checked.operation.key).Nodup := by
  induction h with
  | nil => exact List.nodup_nil
  | commit chain fresh builds found ih =>
    refine List.nodup_cons.mpr ⟨?_, ih⟩
    intro hmem
    obtain ⟨earlier, hearlier, hkey⟩ := List.mem_map.mp hmem
    exact fresh earlier hearlier hkey

/-- A backend that shows the contents of a world shows the publications of its chains. -/
theorem Adapter.serializes {limit : Option Nat} {Represents : σ → Store → Prop}
    (adapter : Adapter σ limit Represents) (hdistinguishes : Distinguishes issued)
    {world : World M P R} (hinv : world.Inv issued) {state : σ}
    (hrepresents : Represents state world.store) (index : IndexIdentity) :
    Serializes issued state world.writes index (Chain.publications (world.logs index)) := by
  have hreflects := hinv.reflects index
  have hchain := hreflects.chain
  have hhistory := hchain.history hdistinguishes
  constructor
  case issued =>
    intro publication hmem
    obtain ⟨commit, hcommit, rfl⟩ := List.mem_map.mp hmem
    exact hchain.asked commit hcommit
  case writes =>
    rw [hinv.recorded index, Chain.publications, ← List.map_reverse, List.map_map]
    rfl
  case applied =>
    intro later publication earlier hlog
    rw [hlog] at hhistory
    exact hhistory.suffix.applied
  case last =>
    intro later publication earlier head versions hlog hwrite
    rw [hlog] at hhistory
    exact hhistory.destroyed_last hwrite
  case keys =>
    rw [Chain.publications, List.map_map]
    exact hchain.keys
  case head =>
    rw [Chain.headBytes, ← hreflects.head]
    exact adapter.shows_head hrepresents index
  case payload =>
    intro version hle
    rw [Chain.publications, List.length_map] at hle
    rw [hchain.payloadBytes hdistinguishes, ← hreflects.payload hle]
    exact adapter.shows_version hrepresents index version
  case record =>
    intro key
    rw [Chain.recordBytes, ← hreflects.record]
    exact adapter.shows_operation hrepresents index key

theorem Adapter.serial {limit : Option Nat} {Represents : σ → Store → Prop}
    (adapter : Adapter σ limit Represents) {start : σ} (hstart : Represents start .empty)
    (hdistinguishes : Distinguishes issued) {pool : Drivers σ} (h : Reached issued start pool)
    (index : IndexIdentity) : ∃ log, Serializes issued pool.state.1 pool.state.2 index log := by
  obtain ⟨world, hrepresents, hwrites, hsound⟩ := adapter.reached hstart h
  rw [hwrites]
  exact ⟨_, adapter.serializes hdistinguishes hsound.inv hrepresents index⟩

/-- No update is lost: in every run of drivers on either adapter, the writes that published
an index are those of a sequence of operations. -/
theorem no_lost_update (hdistinguishes : Distinguishes issued) (index : IndexIdentity) :
    (∀ pool : Drivers Atmis.LifecycleState, Reached issued .empty pool →
      ∃ log, Serializes issued pool.state.1 pool.state.2 index log) ∧
    ∀ (limit : Nat) (pool : Drivers Thesauros.ThesaurosBackend),
      Reached issued (.empty limit) pool →
      ∃ log, Serializes issued pool.state.1 pool.state.2 index log :=
  ⟨fun _ h => Atmis.adapter.serial .empty hdistinguishes h index,
    fun limit _ h => (Thesauros.adapter limit).serial (.empty limit) hdistinguishes h index⟩

end Runs

section Witness

attribute [local instance] Consumer.identity Consumer.reference SerdeJson.compact Unicode.ascii
  Consumer.sha256 Line.math

/-- What the consumer's operations leave of an index, one after the other. -/
theorem no_lost_update_consumer : ∃ first second third : Atmis.LifecycleState × List Write,
    first = (Driver.alone (Driver.apply Consumer.created) (.empty, [])).2 ∧
    second = (Driver.alone (Driver.apply Consumer.inserted) first).2 ∧
    third = (Driver.alone (Driver.apply Consumer.removed) second).2 ∧
    ∃ log, Serializes (· ∈ Consumer.operations) third.1 third.2 Consumer.index log := by
  obtain ⟨first, hfirst⟩ : ∃ first : Atmis.LifecycleState × List Write,
    first = (Driver.alone (Driver.apply Consumer.created) (.empty, [])).2 := ⟨_, rfl⟩
  obtain ⟨second, hsecond⟩ : ∃ second,
    second = (Driver.alone (Driver.apply Consumer.inserted) first).2 := ⟨_, rfl⟩
  obtain ⟨third, hthird⟩ : ∃ third,
    third = (Driver.alone (Driver.apply Consumer.removed) second).2 := ⟨_, rfl⟩
  have hcreated : Reached (· ∈ Consumer.operations) Atmis.LifecycleState.empty ⟨first, []⟩ := by
    rw [hfirst]
    exact reached_apply .init Consumer.created_issued
  have hinserted : Reached (· ∈ Consumer.operations) Atmis.LifecycleState.empty ⟨second, []⟩ := by
    rw [hsecond]
    exact reached_apply hcreated Consumer.inserted_issued
  have hremoved : Reached (· ∈ Consumer.operations) Atmis.LifecycleState.empty ⟨third, []⟩ := by
    rw [hthird]
    exact reached_apply hinserted Consumer.removed_issued
  exact ⟨first, second, third, hfirst, hsecond, hthird,
    (no_lost_update Consumer.distinguishes Consumer.index).1 _ hremoved⟩

end Witness

end Heurema
