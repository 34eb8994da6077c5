import Heurema.Adapters.Atomic

/-! # What an operation answers is what it wrote

However the calls of an operation are interleaved with those of others, and on any backend, a
new receipt is that of the writes that took effect, and a refusal leaves at most a staged
version. -/

namespace Heurema

open Serde Hnsw Digest

theorem OperationIdentity.ext {identity other : OperationIdentity} (hkey : identity.key = other.key)
    (hdigest : identity.digest = other.digest) : identity = other := by
  cases identity
  cases other
  cases hkey
  cases hdigest
  rfl

section Definitions

variable {M P R : Type} [MemberIdentity M] [ProvenanceReference P] [RetentionReference R]
  [SerdeJson] [Unicode] [Sha256]

/-- The writes of calls that took effect. -/
def taken (calls : List (Σ call : Call, Except HeuremaError call.Reply)) : List Write :=
  calls.flatMap fun made => made.1.took made.2

/-- What was prepared is prepared for an operation. -/
structure Planned (operation : LifecycleOperation M P R) (prepared : Prepared R) : Prop where
  identity : ∃ checked : CheckedOperation M P R,
    CheckedOperation.check operation = .ok checked ∧ prepared.plan.operation = checked.identity
  index : prepared.plan.index = operation.index
  transition : prepared.plan.transition = operation.change.transition

/-- A recorded outcome of an operation. -/
structure Recalled (operation : LifecycleOperation M P R) (receipt : PublishReceipt R) : Prop where
  identity : ∃ checked : CheckedOperation M P R,
    CheckedOperation.check operation = .ok checked ∧ receipt.operation = checked.identity
  index : receipt.index = operation.index
  marked : receipt.replayed = true

/-- The writes of an operation that took effect, and what it answers: nothing was written for
a recorded outcome, all of its writes for a new one, and for a refusal nothing or its stage. -/
inductive Accounted (operation : LifecycleOperation M P R) :
    List Write → Outcome HeuremaError (PublishReceipt R) → Prop where
  | replayed {receipt : PublishReceipt R} (recalled : Recalled operation receipt) :
    Accounted operation [] (.ok receipt)
  | published {prepared : Prepared R} (planned : Planned operation prepared) :
    Accounted operation prepared.writes (.ok (prepared.plan.receipt false))
  | failed (failure : Failure HeuremaError) : Accounted operation [] (.error failure)
  | orphaned {prepared : Prepared R} {expectedHead : Option Bytes} {version : IndexVersion}
      {marker payload : Bytes} (planned : Planned operation prepared)
      (write : prepared.write = .version expectedHead version marker payload)
      (failure : Failure HeuremaError) :
    Accounted operation [.stage (prepared.staging expectedHead version marker payload)]
      (.error failure)

end Definitions

/-! ## What is prepared -/

section Preparing

variable {M P R : Type} [MemberIdentity M] [ProvenanceReference P] [RetentionReference R]
  [SerdeJson] [Unicode] [Sha256] [VectorMath]

/-- What an operation records names it, whatever it is applied to. -/
theorem successor_named {validated : ValidatedOperation M P R} {current : Current M P R}
    {next : Successor M P R} (h : Apply.successor validated current = .ok next) :
    next.record.index = validated.checked.operation.index ∧
      next.record.operation = validated.checked.identity ∧
      next.record.transition = validated.checked.operation.change.transition := by
  have hrecorded (built : Built M P) : (Apply.published validated.checked.operation
      validated.checked.identity built : Successor M P R).record.transition =
        validated.checked.operation.change.transition := rfl
  simp only [Apply.successor] at h
  split at h
  · -- An index is created.
    cases h
    exact ⟨rfl, rfl, hrecorded _⟩
  · obtain ⟨built, -, h⟩ := Outcome.bind_eq_ok.mp h
    cases h
    exact ⟨rfl, rfl, hrecorded built⟩
  · obtain ⟨built, -, h⟩ := Outcome.bind_eq_ok.mp h
    cases h
    exact ⟨rfl, rfl, hrecorded built⟩
  · obtain ⟨built, -, h⟩ := Outcome.bind_eq_ok.mp h
    cases h
    exact ⟨rfl, rfl, hrecorded built⟩
  · next hchange =>
    -- A destroy records its own transition.
    cases h
    rw [hchange]
    exact ⟨rfl, rfl, rfl⟩
  · cases h

/-- A preparation yields a recorded outcome, or what is prepared for its operation. -/
def Prepares (operation : LifecycleOperation M P R) : Preparation R → Prop
  | .replayed receipt => Recalled operation receipt
  | .ready prepared => Planned operation prepared

omit [VectorMath] in
theorem replayed_recalled {operation : LifecycleOperation M P R} {checked : CheckedOperation M P R}
    (hchecked : CheckedOperation.check operation = .ok checked) {bytes : Bytes}
    {receipt : PublishReceipt R} (h : replayed checked bytes = .ok receipt) :
    Recalled operation receipt := by
  have hoperation := CheckedOperation.check_operation hchecked
  have hmarked := replayed_marked h
  rw [replayed] at h
  obtain ⟨record, hrecord, h⟩ := Outcome.bind_eq_ok.mp h
  obtain ⟨hindex, hkey⟩ := decodeOperation_named hrecord
  split at h
  · cases h
  · next hsame =>
    cases h
    have hdigest := not_not.mp hsame
    refine ⟨⟨checked, hchecked, OperationIdentity.ext (hkey.trans checked.key.symm) hdigest⟩, ?_,
      hmarked⟩
    rw [← hoperation]
    exact hindex

theorem build_yields {operation : LifecycleOperation M P R} {checked : CheckedOperation M P R}
    (hchecked : CheckedOperation.check operation = .ok checked) (expectedHead : Option Bytes) :
    (Driver.build checked expectedHead).Yields (Planned operation) := by
  have hoperation := CheckedOperation.check_operation hchecked
  unfold Driver.build
  refine .lift fun head _ => .after fun current => ?_
  refine .lift fun validated hpermit => .after fun _ => ?_
  refine .lift fun next hnext => .lift fun planned hplanned => .pure ?_
  obtain ⟨plan, write⟩ := planned
  obtain ⟨hindex, hidentity, htransition⟩ := successor_named hnext
  obtain ⟨-, -, -, hplan, hnamed, htransitioned, -⟩ :=
    encodePlan_eq_ok (Outcome.ofResult_eq_ok.mp hplanned)
  obtain ⟨rfl, -⟩ := permit_eq_ok hpermit
  refine ⟨⟨_, hchecked, hnamed.trans hidentity⟩, ?_, ?_⟩
  · rw [← hoperation]
    exact hplan.trans hindex
  · rw [← hoperation]
    exact htransitioned.trans htransition

theorem prepare_yields (operation : LifecycleOperation M P R) :
    (Driver.prepare operation).Yields (Prepares operation) := by
  unfold Driver.prepare
  refine .lift fun checked hchecked => .after fun expectedHead => ?_
  have hreplay : (Driver.replay checked).Yields fun found =>
      ∀ receipt : PublishReceipt R, found = some receipt → Recalled operation receipt := by
    refine .after fun bytes => ?_
    cases bytes with
    | none => exact .pure fun _ hnone => by cases hnone
    | some bytes =>
      refine .lift fun receipt hreceipt => .pure fun found hfound => ?_
      cases hfound
      exact replayed_recalled hchecked hreceipt
  refine hreplay.bind fun found hrecalled => ?_
  cases found with
  | some receipt => exact .pure (hrecalled receipt rfl)
  | none => exact (build_yields hchecked expectedHead).bind fun prepared hplanned => .pure hplanned

end Preparing

/-! ## What is written -/

section Writing

variable {R : Type} {α β σ : Type} {acts : Acts Call.Reply HeuremaError σ}
  {starts : Driver Unit → Prop} {pool last : Pool Call.Reply HeuremaError σ Unit}
  {calls : List (Σ call : Call, Except HeuremaError call.Reply)}

theorem taken_append (calls later : List (Σ call : Call, Except HeuremaError call.Reply)) :
    taken (calls ++ later) = taken calls ++ taken later := List.flatMap_append

/-- Calls that only read take nothing. -/
theorem taken_reads (h : ∀ made ∈ calls, made.1.Reads) : taken calls = [] := by
  refine List.flatMap_eq_nil_iff.mpr fun made hmem => ?_
  obtain ⟨call, answer⟩ := made
  have hread : call.Reads := h _ hmem
  cases call with
  | write write => exact absurd rfl (hread write)
  | _ => rfl

/-- A write beside others: it is refused and nothing follows, or it takes effect. -/
theorem commit_beside {write : Write} {f : Unit → Driver β} {outcome : Outcome HeuremaError β}
    (h : Pool.Beside acts starts (Driver.commit write >>= f) pool calls outcome last) :
    (taken calls = [] ∧ ∃ refusal, outcome = .error (.refused refusal)) ∨
    ∃ rest pool', taken calls = write :: taken rest ∧
      Pool.Beside acts starts (f ()) pool' rest outcome last := by
  have h : Pool.Beside acts starts (.call (.write write) f) pool calls outcome last := h
  obtain ⟨answer, rest, pool', rfl, hrest⟩ := h.of_call
  cases answer with
  | ok reply => exact .inr ⟨rest, pool', rfl, hrest⟩
  | error refusal =>
    obtain ⟨rfl, rfl⟩ := hrest.of_done
    exact .inl ⟨rfl, refusal, rfl⟩

theorem publish_beside {staged : Staged R} {outcome : Outcome HeuremaError (PublishReceipt R)}
    (h : Pool.Beside acts starts staged.publish pool calls outcome last) :
    (taken calls = [] ∧ ∃ refusal, outcome = .error (.refused refusal)) ∨
      taken calls = [staged.publishing] ∧ outcome = .ok (staged.plan.receipt false) := by
  rcases commit_beside h with hrefused | hwritten
  · exact .inl hrefused
  · obtain ⟨rest, pool', htaken, hrest⟩ := hwritten
    obtain ⟨rfl, rfl⟩ := hrest.of_done
    exact .inr ⟨htaken, rfl⟩

end Writing

section Accounts

variable {M P R : Type} [MemberIdentity M] [ProvenanceReference P] [RetentionReference R]
  [SerdeJson] [Unicode] [Sha256] [VectorMath] {σ : Type} {acts : Acts Call.Reply HeuremaError σ}
  {starts : Driver Unit → Prop} {pool last : Pool Call.Reply HeuremaError σ Unit}
  {calls : List (Σ call : Call, Except HeuremaError call.Reply)}
  {operation : LifecycleOperation M P R} {outcome : Outcome HeuremaError (PublishReceipt R)}

omit [VectorMath] in
/-- A prepared operation that goes on beside others. -/
theorem finish_beside {prepared : Prepared R} (hplanned : Planned operation prepared)
    (h : Pool.Beside acts starts (prepared.stage >>= Staged.publish) pool calls outcome last) :
    Accounted operation (taken calls) outcome := by
  obtain ⟨plan, write⟩ := prepared
  cases write with
  | version expectedHead version marker payload =>
    let prepared : Prepared R := ⟨plan, .version expectedHead version marker payload⟩
    rcases commit_beside h with hrefused | hstaged
    · obtain ⟨htaken, refusal, rfl⟩ := hrefused
      rw [htaken]
      exact .failed _
    · obtain ⟨rest, pool', htaken, hrest⟩ := hstaged
      have hrest : Pool.Beside acts starts prepared.staged.publish pool' rest outcome last := hrest
      rw [htaken]
      rcases publish_beside hrest with hrefused | hpublished
      · obtain ⟨hnothing, refusal, rfl⟩ := hrefused
        rw [hnothing]
        exact .orphaned hplanned rfl _
      · obtain ⟨hwritten, rfl⟩ := hpublished
        rw [hwritten]
        exact .published hplanned
  | destroy expectedHead versions =>
    have h : Pool.Beside acts starts (Prepared.staged ⟨plan, .destroy expectedHead versions⟩).publish
      pool calls outcome last := h
    rcases publish_beside h with hrefused | hpublished
    · obtain ⟨htaken, refusal, rfl⟩ := hrefused
      rw [htaken]
      exact .failed _
    · obtain ⟨hwritten, rfl⟩ := hpublished
      rw [hwritten]
      exact .published hplanned

theorem apply_taken
    (h : Pool.Beside acts starts (Driver.apply operation) pool calls outcome last) :
    Accounted operation (taken calls) outcome := by
  rcases h.of_bind with hfailed | hprepared
  · obtain ⟨failure, hprepare, rfl⟩ := hfailed
    rw [taken_reads (hprepare.makes (Driver.prepare_reads operation))]
    exact .failed failure
  · obtain ⟨first, second, preparation, middle, rfl, hprepare, hrest⟩ := hprepared
    have hreads := taken_reads (hprepare.makes (Driver.prepare_reads operation))
    have hprepares := hprepare.yields (prepare_yields operation) preparation rfl
    rw [taken_append, hreads, List.nil_append]
    cases preparation with
    | replayed receipt =>
      obtain ⟨rfl, rfl⟩ := hrest.of_done
      exact .replayed hprepares
    | ready prepared => exact finish_beside hprepares hrest

end Accounts

section Backends

variable {σ : Type} [LifecycleBackend σ] {starts : Driver Unit → Prop} {pool pool' last : Drivers σ}
  {calls : List (Σ call : Call, Except HeuremaError call.Reply)}

/-- The writes that took effect only become more. -/
theorem act_writes {call : Call} {before after : σ × List Write}
    {answer : Except HeuremaError call.Reply} (h : LifecycleBackend.acts call before answer after) :
    after.2 = before.2 ++ call.took answer := by
  have h : LifecycleBackend.act call before = (answer, after) := h
  rw [LifecycleBackend.act] at h
  cases h
  rfl

theorem step_writes (h : Pool.Step LifecycleBackend.acts starts pool pool') :
    pool.state.2 <+: pool'.state.2 := by
  cases h with
  | start started => exact List.prefix_refl _
  | answered acted => exact ⟨_, (act_writes acted).symm⟩
  | lost acted => exact ⟨_, (act_writes acted).symm⟩
  | dropped => exact List.prefix_refl _

/-- What a program took is among the writes that took effect beside it, in its order. -/
theorem taken_beside {α : Type} {program : Driver α} {outcome : Outcome HeuremaError α}
    (h : Pool.Beside LifecycleBackend.acts starts program pool calls outcome last) :
    ∃ added, last.state.2 = pool.state.2 ++ added ∧ (taken calls).Sublist added := by
  induction h with
  | done => exact ⟨[], (List.append_nil _).symm, List.Sublist.refl _⟩
  | step hstep rest ih =>
    obtain ⟨others, hothers⟩ := step_writes hstep
    obtain ⟨added, hadded, htaken⟩ := ih
    refine ⟨others ++ added, ?_, htaken.trans (List.sublist_append_right _ _)⟩
    rw [hadded, ← hothers, List.append_assoc]
  | @call c next pool last answer after calls outcome acted rest ih =>
    obtain ⟨added, hadded, htaken⟩ := ih
    refine ⟨c.took answer ++ added, ?_, List.Sublist.append (List.Sublist.refl _) htaken⟩
    rw [hadded, act_writes acted, List.append_assoc]

end Backends

/-- On any backend and beside any other programs, an operation answers what its calls wrote:
every write of a new receipt took effect, in order, none of a replayed one, and none that
publishes of a refusal. -/
theorem apply_accounted {M P R : Type} [MemberIdentity M] [ProvenanceReference P]
    [RetentionReference R] [SerdeJson] [Unicode] [Sha256] [VectorMath] {σ : Type}
    [LifecycleBackend σ] {starts : Driver Unit → Prop} {pool last : Drivers σ}
    {calls : List (Σ call : Call, Except HeuremaError call.Reply)}
    {operation : LifecycleOperation M P R} {outcome : Outcome HeuremaError (PublishReceipt R)}
    (h : Pool.Beside LifecycleBackend.acts starts (Driver.apply operation) pool calls outcome last) :
    Accounted operation (taken calls) outcome ∧
      ∃ added, last.state.2 = pool.state.2 ++ added ∧ (taken calls).Sublist added :=
  ⟨apply_taken h, taken_beside h⟩

section Witness

attribute [local instance] Consumer.identity Consumer.reference SerdeJson.compact Unicode.ascii
  Consumer.sha256 Line.math

/-- The creation of an index alone. -/
theorem apply_accounted_created : ∃ calls outcome, ∃ last : Drivers Atmis.LifecycleState,
    Pool.Beside LifecycleBackend.acts (fun _ => False) (Driver.apply Consumer.created)
      ⟨(Atmis.LifecycleState.empty, []), []⟩ calls outcome last ∧
    Accounted Consumer.created (taken calls) outcome ∧
    ∃ added, last.state.2 = [] ++ added ∧ (taken calls).Sublist added := by
  have hact (call : Call) (before : Atmis.LifecycleState × List Write) :
    LifecycleBackend.acts call before (LifecycleBackend.act call before).1
      (LifecycleBackend.act call before).2 := rfl
  obtain ⟨calls, hbeside⟩ : ∃ calls, Pool.Beside LifecycleBackend.acts (fun _ : Driver Unit => False)
      (Driver.apply Consumer.created) ⟨(Atmis.LifecycleState.empty, []), []⟩ calls _ _ :=
    Pool.Beside.of_run hact _ _
  exact ⟨calls, _, _, hbeside, apply_accounted hbeside⟩

end Witness

end Heurema
