import Heurema.Lifecycle.Order

/-! # What the checks of an operation refuse

The checks of an operation refuse what they are given, or ask for a capability that this
build lacks. They never blame what is stored. -/

namespace Outcome

variable {ε ε' α β : Type} {P : ε → Prop}

/-- A computation whose errors all have a property. -/
def Refuses (P : ε → Prop) (outcome : Outcome ε α) : Prop :=
  ∀ e, outcome = .error (.refused e) → P e

namespace Refuses

theorem ok (a : α) : Refuses P (.ok a : Outcome ε α) := by
  intro e he
  cases he

theorem refuse {e : ε} (h : P e) : Refuses P (refuse e : Outcome ε α) := by
  intro e' he
  cases he
  exact h

theorem bind {outcome : Outcome ε α} {f : α → Outcome ε β} (h : Refuses P outcome)
    (hf : ∀ a, Refuses P (f a)) : Refuses P (outcome >>= f) := by
  cases outcome with
  | ok a => exact hf a
  | error failure =>
    intro e he
    cases he
    exact h e rfl

theorem ofResult {result : Except ε α} (h : ∀ e, result = .error e → P e) :
    Refuses P (ofResult result) := by
  cases result with
  | ok a => exact ok a
  | error e => exact refuse (h e rfl)

theorem mapError {f : ε' → ε} (h : ∀ e, P (f e)) (outcome : Outcome ε' α) :
    Refuses P (mapError f outcome) := by
  cases outcome with
  | ok a => exact ok a
  | error failure =>
    cases failure with
    | refused e => exact refuse (h e)
    | panicked reason =>
      intro e he
      cases he

theorem checkEach {check : α → Outcome ε Unit} (h : ∀ item, Refuses P (check item))
    (items : List α) : Refuses P (checkEach check items) := by
  induction items with
  | nil => exact ok ()
  | cons item items ih => exact (h item).bind fun _ => ih

end Refuses

end Outcome

namespace Heurema

open Serde Hnsw Digest

open Outcome (refuse Refuses)

/-- An error that the input itself is to blame for. -/
def HeuremaError.OfInput (error : HeuremaError) : Prop :=
  error.category = .refused ∨ error.category = .unsupported

instance (error : HeuremaError) : Decidable error.OfInput := by
  unfold HeuremaError.OfInput
  infer_instance

section Checks

variable {M P R : Type}

theorem checkConfig_ofInput (config : HnswConfig) (e : HeuremaError)
    (h : checkConfig config = .error e) : e.OfInput := by
  rw [checkConfig] at h
  split at h
  · cases h
  · cases h
    exact .inl rfl

theorem checkFinite_ofInput (vector : List F32) (e : HeuremaError)
    (h : checkFinite vector = .error e) : e.OfInput := by
  rw [checkFinite] at h
  split at h
  · cases h
  · cases h
    exact .inl rfl

theorem checkVector_ofInput (config : HnswConfig) (vector : List F32) (e : HeuremaError)
    (h : checkVector config vector = .error e) : e.OfInput := by
  rw [checkVector] at h
  cases hconfig : checkConfig config with
  | error refused =>
    rw [hconfig] at h
    cases h
    exact checkConfig_ofInput config e hconfig
  | ok _ =>
    rw [hconfig, Outcome.ok_bind] at h
    split at h
    · cases h
      exact .inl rfl
    · exact checkFinite_ofInput vector e h

theorem requireSimplePipeline_ofInput (config : FtsConfig) (e : HeuremaError)
    (h : config.requireSimplePipeline = .error e) : e.OfInput := by
  rw [FtsConfig.requireSimplePipeline] at h
  split at h
  · cases h
  · cases h
    exact .inr rfl

theorem checkIndexConfig_ofInput (config : IndexConfig) (e : HeuremaError)
    (h : checkIndexConfig config = .error e) : e.OfInput := by
  cases config with
  | vector hnsw => exact checkConfig_ofInput hnsw e h
  | fts config => exact requireSimplePipeline_ofInput config e h

theorem checkContent_ofInput (config : IndexConfig) (content : MemberContent) (e : HeuremaError)
    (h : checkContent config content = .error e) : e.OfInput := by
  cases config with
  | vector hnsw =>
    cases content with
    | vector components => exact checkVector_ofInput hnsw components e h
    | document text =>
      cases h
      exact .inl rfl
  | fts config =>
    cases content with
    | vector components =>
      cases h
      exact .inl rfl
    | document text => exact requireSimplePipeline_ofInput config e h

theorem checkFamily_ofInput (expected actual : SnapshotFamily) :
    (checkFamily expected actual).Refuses HeuremaError.OfInput := by
  unfold checkFamily
  split
  · exact .ok ()
  · exact .refuse (.inl rfl)

theorem checkFiniteVectors_ofInput (members : List (IndexMember M P)) :
    (checkFiniteVectors members).Refuses HeuremaError.OfInput := by
  refine .checkEach (fun member => ?_) members
  split
  · exact .ofResult (checkFinite_ofInput _)
  · exact .ok ()

theorem checkSingleFamily_ofInput (members : List (IndexMember M P)) :
    (checkSingleFamily members).Refuses HeuremaError.OfInput := by
  cases members with
  | nil => exact .ok ()
  | cons first members => exact .checkEach (fun member => checkFamily_ofInput _ _) _

theorem checkMembersFit_ofInput (config : IndexConfig) (members : List (IndexMember M P)) :
    (checkMembersFit config members).Refuses HeuremaError.OfInput := by
  refine .bind (.checkEach (fun member => checkFamily_ofInput _ _) members) fun _ => ?_
  exact .checkEach (fun member => .ofResult (checkContent_ofInput config member.content)) members

end Checks

section Operations

variable {M P R : Type} [MemberIdentity M] [ProvenanceReference P] [RetentionReference R]
  [SerdeJson]

omit [ProvenanceReference P] [RetentionReference R] in
theorem checkMemberIdentities_ofInput (ids : List M) :
    (checkMemberIdentities ids).Refuses HeuremaError.OfInput := by
  unfold checkMemberIdentities
  split
  · exact .refuse (.inl rfl)
  · exact .checkEach (fun id => .mapError (fun _ => .inl rfl) _) ids

omit [ProvenanceReference P] [RetentionReference R] in
theorem checkChange_ofInput (change : IndexChange M P R) :
    (checkChange change).Refuses HeuremaError.OfInput := by
  cases change with
  | create config => exact .ofResult (checkIndexConfig_ofInput config)
  | insert members =>
    rw [checkChange]
    split
    · exact .refuse (.inl rfl)
    · refine .bind (checkMemberIdentities_ofInput _) fun _ => ?_
      exact .bind (checkFiniteVectors_ofInput _) fun _ => checkSingleFamily_ofInput _
  | remove members =>
    rw [checkChange]
    split
    · exact .refuse (.inl rfl)
    · exact checkMemberIdentities_ofInput _
  | rebuild config members =>
    refine .bind (checkMemberIdentities_ofInput _) fun _ => ?_
    refine .bind (checkFiniteVectors_ofInput _) fun _ => ?_
    refine .bind (.ofResult (checkIndexConfig_ofInput config)) fun _ => ?_
    exact checkMembersFit_ofInput config _
  | destroy retention => exact .ok ()

theorem checkStoredValues_ofInput (change : IndexChange M P R) :
    (checkStoredValues change).Refuses HeuremaError.OfInput := by
  cases change with
  | insert members | rebuild _ members =>
    exact .checkEach (fun member => .mapError (fun _ => .inl rfl) _) _
  | destroy retention => exact .mapError (fun _ => .inl rfl) _
  | create _ | remove _ => exact .ok ()

variable [Unicode] [Sha256]

/-- An operation that its own checks refuse is refused for what it is. -/
theorem CheckedOperation.check_ofInput (operation : LifecycleOperation M P R) :
    (CheckedOperation.check operation).Refuses HeuremaError.OfInput := by
  unfold CheckedOperation.check
  split
  · next failure hchange =>
    rintro e he
    cases he
    exact checkChange_ofInput operation.change e hchange
  · split
    · next error hdigest =>
      refine .refuse ?_
      unfold operationDigest at hdigest
      split at hdigest
      · cases hdigest
        exact .inl rfl
      · cases hdigest
    · split
      · next failure hstored =>
        rintro e he
        cases he
        exact checkStoredValues_ofInput operation.change e hstored
      · exact .ok _

/-- An operation that a head does not permit is refused for what it asks of it. -/
theorem CheckedOperation.permit_ofInput (checked : CheckedOperation M P R)
    (head : Option (IndexRecord R)) : (checked.permit head).Refuses HeuremaError.OfInput := by
  unfold CheckedOperation.permit
  refine .bind ?_ fun _ => ?_
  · cases head with
    | none => exact .ok ()
    | some record =>
      rw [checkRecord]
      split
      · exact .ok ()
      · exact .refuse (.inl rfl)
  · dsimp only
    split
    · cases head with
      | none => exact .ok _
      | some record =>
        refine .bind ?_ fun _ => .ok _
        cases checked.operation.change with
        | insert members => exact checkMembersFit_ofInput record.config _
        | rebuild config members => exact checkFamily_ofInput _ _
        | create _ | remove _ | destroy _ => exact .ok ()
    · exact .refuse (.inl rfl)

end Operations

end Heurema
