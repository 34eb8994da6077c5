import Heurema.Adapters.Custody
import Heurema.Lifecycle.Alone

/-! # An operation is all or nothing

Run alone, as under the writer's lock, an operation leaves its whole result or what it
found. -/

namespace Heurema

open Serde Hnsw Digest

open LifecycleBackend (Shows)

open Driver (alone)

/-- What a write leaves of the payload of a version. -/
def PlannedWrite.leaves (write : PlannedWrite) (version : IndexVersion) (before : Option Bytes) :
    Option Bytes :=
  match write with
  | .version _ staged _ bytes => if version = staged then some bytes else before
  | .destroy _ versions => if version ∈ versions then none else before

section Application

variable {M P R : Type} [MemberIdentity M] [ProvenanceReference P] [RetentionReference R]
  [SerdeJson] [Unicode] [Sha256] [VectorMath] {σ : Type} [LifecycleBackend σ]

/-- An operation took effect: what the backend showed of its index was built upon, and the
backend shows the head, the record and the payloads it wrote, and nothing staged. -/
structure TookEffect (before after : σ) (operation : LifecycleOperation M P R)
    (receipt : PublishReceipt R) (publication : Publication M P R) : Prop where
  checked : CheckedOperation.check operation = .ok publication.checked
  built : ∃ expected payloads head current validated,
    Shows before (.readHead operation.index) expected ∧
    (∀ version, Shows before (.readVersion operation.index version) (payloads version)) ∧
    readCurrent operation.index expected payloads = .ok (head, current) ∧
    publication.checked.permit head = .ok validated ∧
    Apply.successor validated current = .ok publication.next ∧
    encodePlan publication.next expected operation = .ok (publication.plan, publication.write) ∧
    ∀ version, Shows after (.readVersion operation.index version)
      (publication.write.leaves version (payloads version))
  receipt : receipt = publication.plan.receipt false
  head : Shows after (.readHead operation.index) (some publication.plan.head)
  record : Shows after (.readOperation operation.index operation.key)
    (some publication.plan.record)
  staging : Shows after (.readStaging operation.index) none

/-- An operation alone changes nothing when it is refused or replayed, and takes effect
otherwise. -/
def AllOrNothing (state : σ × List Write) (operation : LifecycleOperation M P R) : Prop :=
  ∀ outcome after, alone (Driver.apply operation) state = (outcome, after) →
    (∀ failure, outcome = .error failure → after = state) ∧
    ∀ receipt, outcome = .ok receipt →
      (receipt.replayed = true ∧ after = state) ∨
      receipt.replayed = false ∧ ∃ publication, TookEffect state.1 after.1 operation receipt publication

variable {limit : Option Nat} {Represents : σ → Store → Prop} {issued : LifecycleOperation M P R → Prop}

/-- What the writes of a prepared operation leave of its index. -/
theorem commitAll_leaves {store : Store} {index : IndexIdentity} {log : List (Commit M P R)}
    (hchain : Chain issued index log) (hstaged : store.staged index = none)
    {publication : Publication M P R}
    (hbuilds : Builds issued index (Chain.head log) (Chain.payload log) publication) {after : Store}
    (hafter : after = store.commitAll (Prepared.writes ⟨publication.plan, publication.write⟩)) :
    after.heads index = some publication.plan.head ∧
      after.records (index, publication.checked.operation.key) = some publication.plan.record ∧
      after.staged index = none ∧
      ∀ version, after.payloads (index, version) =
        publication.write.leaves version (store.payloads (index, version)) := by
  obtain ⟨-, -, -, hindex, hoperation, -⟩ := hbuilds.recorded hchain.top
  have hkey : publication.plan.operation.key = publication.checked.operation.key :=
    (congrArg OperationIdentity.key hoperation).trans publication.checked.key
  rw [← hkey]
  subst hindex
  subst hafter
  obtain ⟨checked, next, plan, write⟩ := publication
  cases write with
  | version expected staged marker bytes =>
    refine ⟨Function.update_self .., Function.update_self .., Function.update_self .., ?_⟩
    intro version
    show Function.update store.payloads (plan.index, staged) (some bytes) (plan.index, version) =
      if version = staged then some bytes else store.payloads (plan.index, version)
    by_cases hversion : version = staged
    · subst hversion
      rw [if_pos rfl, Function.update_self]
    · have hplace : (plan.index, version) ≠ (plan.index, staged) := by simpa using hversion
      rw [if_neg hversion, Function.update_of_ne hplace]
  | destroy expected versions =>
    refine ⟨Function.update_self .., Function.update_self .., hstaged, ?_⟩
    intro version
    show (if plan.index = plan.index ∧ version ∈ versions then none
      else store.payloads (plan.index, version)) =
      if version ∈ versions then none else store.payloads (plan.index, version)
    simp

omit [VectorMath] in
theorem replayed_marked {checked : CheckedOperation M P R} {bytes : Bytes}
    {receipt : PublishReceipt R} (h : replayed checked bytes = .ok receipt) :
    receipt.replayed = true := by
  rw [replayed] at h
  obtain ⟨record, -, h⟩ := Outcome.bind_eq_ok.mp h
  split at h
  · cases h
  · cases h
    rfl

/-- An operation alone on the contents of a world. -/
theorem Adapter.allOrNothing (adapter : Adapter σ limit Represents) {state : σ × List Write}
    {store : Store} (h : Represents state.1 store) {operation : LifecycleOperation M P R}
    {log : List (Commit M P R)} (hissued : issued operation)
    (hreflects : store.Reflects issued operation.index log) : AllOrNothing state operation := by
  intro outcome after hrun
  cases hprepare : store.prepare operation with
  | error failure =>
    rw [apply_failed adapter h hprepare] at hrun
    cases hrun
    exact ⟨fun _ _ => rfl, fun receipt hreceipt => by cases hreceipt⟩
  | ok preparation =>
    obtain ⟨checked, hchecked, hcases⟩ := Store.prepare_cases hprepare
    rcases hcases with hreplayed | hready
    · obtain ⟨bytes, receipt, -, hreceipt, rfl⟩ := hreplayed
      rw [apply_replayed adapter h hprepare] at hrun
      cases hrun
      constructor
      · intro failure hfailed
        cases hfailed
      · intro receipt' hsame
        cases hsame
        exact .inl ⟨replayed_marked hreceipt, rfl⟩
    · obtain ⟨prepared, -, hbuild, rfl⟩ := hready
      rw [apply_ready adapter h hprepare] at hrun
      have hoperation := CheckedOperation.check_operation hchecked
      subst hoperation
      obtain ⟨publication, rfl, rfl, hstaged, hbuilds⟩ := hreflects.builds hissued rfl hbuild
      cases hadmits : store.admits limit
          (Prepared.first ⟨publication.plan, publication.write⟩) with
      | error refusal =>
        rw [finish_refused adapter h hadmits] at hrun
        cases hrun
        exact ⟨fun _ _ => rfl, fun receipt hreceipt => by cases hreceipt⟩
      | ok _ =>
        obtain ⟨last, hlast, hfinished⟩ := finish_admitted adapter h hadmits
        rw [hfinished] at hrun
        cases hrun
        constructor
        · intro failure hfailed
          cases hfailed
        intro receipt hreceipt
        cases hreceipt
        refine .inr ?_
        obtain ⟨hhead, hrecord, hnone, hpayloads⟩ :=
          commitAll_leaves hreflects.chain hstaged hbuilds rfl
        obtain ⟨head, current, validated, hread, hpermit, hnext, hencoded⟩ := hbuilds.built
        refine ⟨rfl, publication, hchecked, ?_, rfl, ?_, ?_, ?_⟩
        · refine ⟨_, store.versions publication.checked.operation.index, head, current, validated,
            adapter.shows_head h _, adapter.shows_version h _, ?_, hpermit, hnext, ?_, ?_⟩
          · exact hreflects.read.trans hread
          · rw [hreflects.head]
            exact hencoded
          · intro version
            rw [Store.versions, ← hpayloads]
            exact adapter.shows_version hlast _ version
        · rw [← hhead]
          exact adapter.shows_head hlast _
        · rw [← hrecord]
          exact adapter.shows_operation hlast _ _
        · rw [← hnone]
          exact adapter.shows_staging hlast _

/-- An operation that runs alone, as under the writer's lock, in a state that any drivers
reach is all or nothing, on both adapters and under any limit on the values stored. -/
theorem apply_atomic (operation : LifecycleOperation M P R) :
    (∀ pool : Drivers Atmis.LifecycleState,
      Reached (fun _ : LifecycleOperation M P R => True) .empty pool →
        AllOrNothing pool.state operation) ∧
    ∀ (limit : Nat) (pool : Drivers Thesauros.ThesaurosBackend),
      Reached (fun _ : LifecycleOperation M P R => True) (.empty limit) pool →
        AllOrNothing pool.state operation := by
  constructor
  · intro pool hreached
    obtain ⟨world, hrepresents, -, hsound⟩ := Atmis.adapter.reached .empty hreached
    exact Atmis.adapter.allOrNothing hrepresents trivial (hsound.inv.reflects operation.index)
  · intro limit pool hreached
    obtain ⟨world, hrepresents, -, hsound⟩ :=
      (Thesauros.adapter limit).reached (.empty limit) hreached
    exact (Thesauros.adapter limit).allOrNothing hrepresents trivial
      (hsound.inv.reflects operation.index)

end Application

section Witness

attribute [local instance] Consumer.identity Consumer.reference SerdeJson.compact Unicode.ascii
  Consumer.sha256 Line.math

/-- An insertion alone after an index was created. -/
theorem apply_atomic_inserted : ∃ pool : Drivers Atmis.LifecycleState,
    Reached (fun _ : LifecycleOperation Str Str Str => True) .empty pool ∧
    AllOrNothing pool.state Consumer.inserted := by
  have hreached : Reached (fun _ : LifecycleOperation Str Str Str => True)
      Atmis.LifecycleState.empty
      ⟨(alone (Driver.apply Consumer.created) (Atmis.LifecycleState.empty, [])).2, []⟩ :=
    reached_apply .init trivial
  exact ⟨_, hreached, (apply_atomic Consumer.inserted).1 _ hreached⟩

end Witness

end Heurema
