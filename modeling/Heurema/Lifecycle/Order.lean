import Heurema.Hnsw.Runs
import Heurema.Lifecycle.Consumer
import Heurema.Lifecycle.Successor

/-! # The order of a batch

Every check, the digest and the application go through the members in ascending
order of their identities. Members of one identity could come in either order
there, but a batch with two of them is refused on its identities alone. -/

namespace Heurema

open Serde Hnsw Digest

open Outcome (refuse ofResult)

section Order

variable {M P R : Type} [MemberIdentity M] [ProvenanceReference P] [RetentionReference R]

/-- The same change with its members listed in another order. -/
inductive IndexChange.Reordered : IndexChange M P R → IndexChange M P R → Prop where
  | insert {members members' : List (IndexMember M P)} (listed : members.Perm members') :
    Reordered (.insert members) (.insert members')
  | remove {ids ids' : List M} (listed : ids.Perm ids') : Reordered (.remove ids) (.remove ids')
  | rebuild {config : IndexConfig} {members members' : List (IndexMember M P)}
    (listed : members.Perm members') :
    Reordered (.rebuild config members) (.rebuild config members')

structure LifecycleOperation.Reordered (operation operation' : LifecycleOperation M P R) :
    Prop where
  index : operation.index = operation'.index
  key : operation.key = operation'.key
  change : operation.change.Reordered operation'.change

section Sorting

variable {members members' : List (IndexMember M P)}

omit [ProvenanceReference P] in
theorem sortedMembers_ids (h : members.Perm members') :
    (sortedMembers members).map IndexMember.id = (sortedMembers members').map IndexMember.id :=
  Sorted.map_byKey_perm h

omit [ProvenanceReference P] in
theorem sortedMembers_perm (h : members.Perm members') (hids : (members.map IndexMember.id).Nodup) :
    sortedMembers members = sortedMembers members' := Sorted.byKey_perm h hids

theorem sortedIds_perm {ids ids' : List M} (h : ids.Perm ids') : sortedIds ids = sortedIds ids' := by
  have hsame := @Sorted.map_byKey_perm M M _ (fun id => id) ids ids' h
  rwa [List.map_id', List.map_id'] at hsame

end Sorting

/-- The same change, with members that sort alike. -/
inductive IndexChange.SortsAlike : IndexChange M P R → IndexChange M P R → Prop where
  | insert {members members' : List (IndexMember M P)}
    (sorted : sortedMembers members = sortedMembers members') :
    SortsAlike (.insert members) (.insert members')
  | remove {ids ids' : List M} (sorted : sortedIds ids = sortedIds ids') :
    SortsAlike (.remove ids) (.remove ids')
  | rebuild {config : IndexConfig} {members members' : List (IndexMember M P)}
    (sorted : sortedMembers members = sortedMembers members') :
    SortsAlike (.rebuild config members) (.rebuild config members')

section Checks

variable [SerdeJson] {change change' : IndexChange M P R}

omit [ProvenanceReference P] in
/-- A batch is refused on its identities alone, or its members sort alike. -/
theorem checkMemberIdentities_perm {members members' : List (IndexMember M P)}
    (h : members.Perm members') :
    (∃ failure, checkMemberIdentities ((sortedMembers members).map IndexMember.id) =
        .error failure ∧
      checkMemberIdentities ((sortedMembers members').map IndexMember.id) = .error failure) ∨
    sortedMembers members = sortedMembers members' := by
  rw [← sortedMembers_ids h]
  cases hcheck : checkMemberIdentities ((sortedMembers members).map IndexMember.id) with
  | error failure => exact .inl ⟨failure, rfl, rfl⟩
  | ok _ =>
    have hsorted := List.pairwise_map.mpr (Sorted.byKey_sorted IndexMember.id members)
    have hids := checkMemberIdentities_nodup hsorted hcheck
    have hperm := (Sorted.perm_byKey IndexMember.id members).map IndexMember.id
    exact .inr (sortedMembers_perm h (hperm.nodup_iff.mp hids))

omit [ProvenanceReference P] [RetentionReference R] in
/-- Reordering changes no outcome of the checks that need no index, and what passes
them sorts alike. -/
theorem IndexChange.Reordered.checkChange (h : change.Reordered change') :
    checkChange change = checkChange change' ∧
      (checkChange change = .ok () → change.SortsAlike change') := by
  cases h with
  | insert hperm =>
    rw [Heurema.checkChange, Heurema.checkChange, hperm.isEmpty_eq]
    split
    · exact ⟨rfl, fun h => by cases h⟩
    · rcases checkMemberIdentities_perm hperm with hfailed | hsame
      · obtain ⟨failure, hleft, hright⟩ := hfailed
        simp only [hleft, hright, Outcome.error_bind]
        exact ⟨trivial, fun h => by cases h⟩
      · simp only [hsame]
        exact ⟨trivial, fun _ => .insert hsame⟩
  | remove hperm =>
    rw [Heurema.checkChange, Heurema.checkChange, hperm.isEmpty_eq, sortedIds_perm hperm]
    exact ⟨rfl, fun _ => .remove (sortedIds_perm hperm)⟩
  | rebuild hperm =>
    rw [Heurema.checkChange, Heurema.checkChange]
    rcases checkMemberIdentities_perm hperm with hfailed | hsame
    · obtain ⟨failure, hleft, hright⟩ := hfailed
      simp only [hleft, hright, Outcome.error_bind]
      exact ⟨trivial, fun h => by cases h⟩
    · simp only [hsame]
      exact ⟨trivial, fun _ => .rebuild hsame⟩

/-! ## What goes through the sorted members -/

namespace IndexChange.SortsAlike

omit [ProvenanceReference P] [RetentionReference R] [SerdeJson] in
theorem transition (h : change.SortsAlike change') : change.transition = change'.transition := by
  cases h <;> rfl

omit [SerdeJson] in
theorem canonicalChange (h : change.SortsAlike change') :
    canonicalChange change = canonicalChange change' := by
  cases h <;> simp only [Digest.canonicalChange, *]

theorem checkStoredValues (h : change.SortsAlike change') :
    checkStoredValues change = checkStoredValues change' := by
  cases h <;> simp only [Heurema.checkStoredValues, *]

omit [ProvenanceReference P] [RetentionReference R] [SerdeJson] in
theorem checkAgainstRecord (h : change.SortsAlike change') (config : IndexConfig) :
    checkAgainstRecord change config = checkAgainstRecord change' config := by
  cases h <;> simp only [Heurema.checkAgainstRecord, *]

end IndexChange.SortsAlike

/-! ## Operations -/

variable [Unicode] [Sha256] {operation operation' : LifecycleOperation M P R}

/-- The checks of an operation in turn, and its digest. -/
def checks (operation : LifecycleOperation M P R) : Run OperationDigest := do
  checkChange operation.change
  let digest ← ofResult (operationDigest operation)
  checkStoredValues operation.change
  return digest

theorem CheckedOperation.check_eq (operation : LifecycleOperation M P R) :
    (check operation).map CheckedOperation.identity =
      (checks operation).map fun digest => { key := operation.key, digest } := by
  rw [check]
  split
  · next failure hchange =>
    have hchecks : checks operation = .error failure := by
      rw [checks, hchange]
      rfl
    rw [hchecks]
    rfl
  · next hchange =>
    split
    · next error hdigest =>
      have hchecks : checks operation = refuse error := by
        rw [checks, hchange, hdigest]
        rfl
      rw [hchecks]
      rfl
    · next digest hdigest =>
      split
      · next failure hstored =>
        have hchecks : checks operation = .error failure := by
          rw [checks, hchange, hdigest, hstored]
          rfl
        rw [hchecks]
        rfl
      · next hstored =>
        have hchecks : checks operation = .ok digest := by
          rw [checks, hchange, hdigest, hstored]
          rfl
        rw [hchecks]
        rfl

theorem CheckedOperation.check_operation {checked : CheckedOperation M P R}
    (h : check operation = .ok checked) : checked.operation = operation := by
  rw [check] at h
  split at h
  · cases h
  · split at h
    · cases h
    · split at h
      · cases h
      · cases h
        rfl

/-- A checked operation passes its checks again. -/
theorem CheckedOperation.check_checked (checked : CheckedOperation M P R) :
    check checked.operation = .ok checked := by
  obtain ⟨operation, ⟨key, digest⟩, hchange, hdigest, hstored, hkey⟩ := checked
  obtain rfl : key = operation.key := hkey
  have hdigest : operationDigest operation = .ok digest := hdigest
  unfold check
  split
  · next hfailed =>
    rw [hchange] at hfailed
    cases hfailed
  · split
    · next hfailed =>
      rw [hdigest] at hfailed
      cases hfailed
    · next digest' hdigested =>
      rw [hdigest] at hdigested
      cases hdigested
      split
      · next hfailed =>
        rw [hstored] at hfailed
        cases hfailed
      · rfl

/-- The checks of `permit` on an operation and the state it finds. -/
def permits (operation : LifecycleOperation M P R) (head : Option (IndexRecord R)) :
    Run IndexStateKind := do
  checkRecord operation head
  if operation.transition.isPermittedFrom (stateKind head) = true then
    match head with
    | none => .ok ()
    | some record => checkAgainstRecord operation.change record.config
    return stateKind head
  else refuse (.transitionNotPermitted operation.index operation.transition (stateKind head))

theorem CheckedOperation.permit_eq (checked : CheckedOperation M P R)
    (head : Option (IndexRecord R)) : (checked.permit head).map ValidatedOperation.fromState =
      permits checked.operation head := by
  rw [permit, permits]
  cases checkRecord checked.operation head with
  | error failure => rfl
  | ok _ =>
    simp only [Outcome.ok_bind]
    by_cases hpermitted : checked.operation.transition.isPermittedFrom (stateKind head) = true
    · rw [dif_pos hpermitted, if_pos hpermitted]
      cases head with
      | none => rfl
      | some record =>
        dsimp only
        cases checkAgainstRecord checked.operation.change record.config <;> rfl
    · rw [dif_neg hpermitted, if_neg hpermitted]
      rfl

namespace LifecycleOperation.Reordered

theorem checks (h : operation.Reordered operation') : checks operation = checks operation' := by
  obtain ⟨hchange, hsorted⟩ := h.change.checkChange
  rw [Heurema.checks, Heurema.checks, ← hchange]
  cases hchecked : checkChange operation.change with
  | error failure => rfl
  | ok _ =>
    have hsorts := hsorted hchecked
    have hcanonical : canonicalOperation operation = canonicalOperation operation' := by
      simp only [canonicalOperation, LifecycleOperation.transition, h.index, hsorts.transition,
        hsorts.canonicalChange]
    have hdigest : operationDigest operation = operationDigest operation' := by
      simp only [operationDigest, canonicalBytes, hcanonical]
    rw [hdigest, hsorts.checkStoredValues]

omit [ProvenanceReference P] [RetentionReference R] [SerdeJson] [Unicode] [Sha256] in
theorem permits (h : operation.Reordered operation')
    (hsorts : operation.change.SortsAlike operation'.change) (head : Option (IndexRecord R)) :
    permits operation head = permits operation' head := by
  have htransition : operation.transition = operation'.transition := hsorts.transition
  have hrecord : checkRecord operation head = checkRecord operation' head := by
    cases head with
    | none => rfl
    | some record => rw [checkRecord, checkRecord, h.index]
  rw [Heurema.permits, Heurema.permits, hrecord, htransition, h.index]
  cases head with
  | none => rfl
  | some record => simp only [hsorts.checkAgainstRecord]

end LifecycleOperation.Reordered

/-! ## What a batch writes -/

variable [VectorMath]

theorem successor_reordered (h : operation.Reordered operation')
    (hsorts : operation.change.SortsAlike operation'.change)
    {checked checked' : CheckedOperation M P R} (hchecked : checked.operation = operation)
    (hchecked' : checked'.operation = operation') (hidentity : checked.identity = checked'.identity)
    {validated validated' : ValidatedOperation M P R} (hvalidated : validated.checked = checked)
    (hvalidated' : validated'.checked = checked') (current : Current M P R) :
    Apply.successor validated current = Apply.successor validated' current := by
  obtain ⟨index, key, change⟩ := operation
  obtain ⟨index', key', change'⟩ := operation'
  cases h.index
  cases h.key
  simp only [Apply.successor, hvalidated, hvalidated', hchecked, hchecked', hidentity]
  cases hsorts with
  | insert hsorted =>
    cases current with
    | none => rfl
    | some active => simp only [Apply.insert, hsorted, Apply.published, IndexChange.transition]
  | remove hsorted =>
    cases current with
    | none => rfl
    | some active => simp only [Apply.remove, hsorted, Apply.published, IndexChange.transition]
  | rebuild hsorted =>
    cases current with
    | none => rfl
    | some active => simp only [Apply.rebuild, hsorted, Apply.published, IndexChange.transition]

omit [Sha256] [VectorMath] in
theorem encodePlan_reordered (h : operation.Reordered operation')
    (hsorts : operation.change.SortsAlike operation'.change) (next : Successor M P R)
    (expectedHead : Option Bytes) :
    encodePlan next expectedHead operation = encodePlan next expectedHead operation' := by
  have hrefused (state : IndexStateKind) :
      (notPermitted operation state : Except HeuremaError PlannedWrite) =
        notPermitted operation' state := by
    simp only [notPermitted, h.index, hsorts.transition]
  simp only [encodePlan, plannedWrite, hrefused]

/-- The order in which a caller lists a batch never matters: its check gives the same
refusal or the same identity, its permission the same refusal or none, and on any
version it builds and writes the same bytes or fails alike. -/
theorem order_irrelevant (h : operation.Reordered operation') :
    (CheckedOperation.check operation).map CheckedOperation.identity =
      (CheckedOperation.check operation').map CheckedOperation.identity ∧
    ∀ checked checked', CheckedOperation.check operation = .ok checked →
      CheckedOperation.check operation' = .ok checked' → ∀ head : Option (IndexRecord R),
      (checked.permit head).map ValidatedOperation.fromState =
        (checked'.permit head).map ValidatedOperation.fromState ∧
      ∀ validated validated', checked.permit head = .ok validated →
        checked'.permit head = .ok validated' →
        ∀ (current : Current M P R) (expectedHead : Option Bytes),
          (do
            let next ← Apply.successor validated current
            ofResult (encodePlan next expectedHead operation)) =
          (do
            let next ← Apply.successor validated' current
            ofResult (encodePlan next expectedHead operation')) := by
  have hchecks := h.checks
  refine ⟨by rw [CheckedOperation.check_eq, CheckedOperation.check_eq, hchecks, h.key], ?_⟩
  intro checked checked' hchecked hchecked' head
  have hoperation := CheckedOperation.check_operation hchecked
  have hoperation' := CheckedOperation.check_operation hchecked'
  have hsorts : operation.change.SortsAlike operation'.change := by
    have hchange := checked.change
    rw [hoperation] at hchange
    exact h.change.checkChange.2 hchange
  have hidentity : checked.identity = checked'.identity := by
    have hleft := CheckedOperation.check_eq operation
    have hright := CheckedOperation.check_eq operation'
    rw [hchecked, hchecks] at hleft
    rw [hchecked', ← h.key, ← hleft] at hright
    exact (Except.ok.inj hright).symm
  refine ⟨?_, fun validated validated' hpermit hpermit' current expectedHead => ?_⟩
  · rw [CheckedOperation.permit_eq, CheckedOperation.permit_eq, hoperation, hoperation']
    exact h.permits hsorts head
  · rw [successor_reordered h hsorts hoperation hoperation' hidentity
      (permit_eq_ok hpermit).1 (permit_eq_ok hpermit').1]
    simp only [encodePlan_reordered h hsorts]

end Checks

end Order

section Witness

attribute [local instance] Consumer.identity Consumer.reference SerdeJson.compact Unicode.ascii
  Consumer.sha256 Line.math

/-- The two documents in ascending order. -/
def Consumer.reordered : LifecycleOperation Str Str Str where
  index := Consumer.index
  key := Consumer.inserted.key
  change := .insert [
    ⟨"a".toList, "scan-1".toList, .document "one fish".toList⟩,
    ⟨"b".toList, "scan-2".toList, .document "red fish".toList⟩]

theorem order_irrelevant_pair :
    (CheckedOperation.check Consumer.inserted).map CheckedOperation.identity =
      (CheckedOperation.check Consumer.reordered).map CheckedOperation.identity := by
  have hreordered : Consumer.inserted.Reordered Consumer.reordered :=
    ⟨rfl, rfl, .insert (List.Perm.swap _ _ _)⟩
  exact (order_irrelevant hreordered).1

end Witness

end Heurema
