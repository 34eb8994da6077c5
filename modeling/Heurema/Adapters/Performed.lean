import Heurema.Adapters.Atomic
import Heurema.Adapters.Serial
import Heurema.Lifecycle.Progress

/-! # Every history is performed

Operations that follow each other in a history take effect when they are applied one after the
other, so that every history of an index is what some drivers leave. -/

namespace Heurema

open Serde Hnsw Digest

open Driver (alone)

variable {M P R : Type} [MemberIdentity M] [ProvenanceReference P] [RetentionReference R]
  [SerdeJson] [Unicode] [Sha256] [VectorMath] {σ : Type} [LifecycleBackend σ]

/-- A state that drivers reach, where a history of an index is stored and nothing staged. -/
structure Performed (issued : LifecycleOperation M P R → Prop) (Represents : σ → Store → Prop)
    (start : σ) (index : IndexIdentity) (log : List (Publication M P R))
    (state : σ × List Write) : Prop where
  reached : Reached issued start ⟨state, []⟩
  stored : ∃ store commits, Represents state.1 store ∧ store.Reflects issued index commits ∧
    Chain.publications commits = log ∧ (∀ other, store.staged other = none) ∧
    ∀ version, store.payloads (index, version) = payloadBytes log version

variable {issued : LifecycleOperation M P R → Prop} {limit : Option Nat}
  {Represents : σ → Store → Prop} {index : IndexIdentity} {log : List (Publication M P R)}
  {publication : Publication M P R} {store : Store}

omit [MemberIdentity M] [ProvenanceReference P] [RetentionReference R] [SerdeJson] [Unicode]
  [Sha256] [VectorMath] in
/-- The writes of a prepared operation leave nothing staged where nothing was. -/
theorem commitAll_staged {prepared : Prepared R} (hnone : ∀ other, store.staged other = none)
    (other : IndexIdentity) : (store.commitAll prepared.writes).staged other = none := by
  obtain ⟨plan, write⟩ := prepared
  cases write with
  | version expected version marker bytes =>
    show Function.update (Function.update store.staged plan.index (some (version, marker)))
      plan.index none other = none
    rw [Function.update_idem, Function.update_apply, hnone other, ite_self]
  | destroy expected versions => exact hnone other

/-- What a history stores of a version is what its last operation leaves of it. -/
theorem History.payload_kept (h : History index (publication :: log)) {expected : Option Bytes}
    {staged : IndexVersion} {marker bytes : Bytes}
    (hwrite : publication.write = .version expected staged marker bytes) (version : IndexVersion) :
    payloadBytes (publication :: log) version =
      publication.write.leaves version (payloadBytes log version) := by
  have hearlier : payloadBytes log version =
      log.findSome? fun publication => publication.write.stages version := by
    cases log with
    | nil => rfl
    | cons last earlier =>
      cases hlast : last.write with
      | version _ _ _ _ => simp only [payloadBytes, hlast]
      | destroy head versions =>
        have hlater : History index ([publication] ++ last :: earlier) := h
        have hnone := hlater.destroyed_last hlast
        cases hnone
  rw [hearlier]
  simp only [payloadBytes, hwrite, List.findSome?_cons, PlannedWrite.leaves, PlannedWrite.stages]
  by_cases hversion : version = staged
  · subst hversion
    simp
  · simp [hversion, Ne.symm hversion]

/-- The writes of an operation that is built on what is reflected are reflected. -/
theorem Store.Reflects.commitAll {commits : List (Commit M P R)}
    (h : store.Reflects issued index commits) (hnone : store.staged index = none)
    (hbuilds : Builds issued index (Chain.head commits) (Chain.payload commits) publication)
    (hrecord : store.records (index, publication.checked.operation.key) = none) :
    ∃ commit : Commit M P R, commit.toPublication = publication ∧
      (store.commitAll (Prepared.writes ⟨publication.plan, publication.write⟩)).Reflects issued
        index (commit :: commits) := by
  have hfirst := h.first_check hnone hbuilds hrecord
  obtain ⟨-, -, -, hindex, -⟩ := hbuilds.recorded h.chain.top
  cases hwrite : publication.write with
  | version expected version marker bytes =>
    let prepared : Prepared R := ⟨publication.plan, .version expected version marker bytes⟩
    rw [hwrite] at hfirst
    have hadmits : store.admits none (.stage (prepared.staging expected version marker bytes)) =
        .ok () := Outcome.then_eq_ok.mpr ⟨refuseOversized_none _, hfirst⟩
    have hpublish := (Outcome.then_eq_ok.mp (Store.admits_publish rfl hadmits)).2
    have hexpected := ((hbuilds.advances h.chain.top).expected_version hwrite).1
    let staging := prepared.staging expected version marker bytes
    have hstageable : Stageable issued index commits staging.version staging.marker
      staging.payload := ⟨publication, hbuilds, hexpected ▸ hwrite⟩
    have hstaged := h.stage hindex hnone hstageable
    have hsame : prepared.staged.publishing = publication.staged.publishing := by
      rw [Publication.staged, hwrite]
      rfl
    rw [hsame] at hpublish
    obtain ⟨commit, rfl, hreflects⟩ := hstaged.publishing hbuilds hpublish
    refine ⟨commit, rfl, ?_⟩
    rw [Commit.publishing, ← hsame] at hreflects
    exact hreflects
  | destroy expected versions =>
    let prepared : Prepared R := ⟨publication.plan, .destroy expected versions⟩
    have hsame : prepared.staged.publishing = publication.staged.publishing := by
      rw [Publication.staged, hwrite]
      rfl
    rw [hwrite] at hfirst
    have hcheck : store.check publication.staged.publishing = .ok () := hsame ▸ hfirst
    obtain ⟨commit, rfl, hreflects⟩ := h.publishing hbuilds hcheck
    refine ⟨commit, rfl, ?_⟩
    rw [Commit.publishing, ← hsame] at hreflects
    exact hreflects

/-- Applying the next operation of a history performs it. -/
theorem Performed.apply (adapter : Adapter σ none Represents) {start : σ}
    {state : σ × List Write} (h : Performed issued Represents start index log state)
    (history : History index (publication :: log)) (hissued : issued publication.checked.operation) :
    (alone (Driver.apply publication.checked.operation) state).1 =
        .ok (publication.plan.receipt false) ∧
      Performed issued Represents start index (publication :: log)
        (alone (Driver.apply publication.checked.operation) state).2 := by
  obtain ⟨store, commits, hrepresents, hreflects, rfl, hnone, hpayloads⟩ := h.stored
  have hnext := history
  cases hnext with
  | @publish _ _ head current validated earlier indexed fresh read permitted built encoded =>
    have hchain := hreflects.chain
    have hversions : store.versions index = payloadBytes (Chain.publications commits) :=
      funext hpayloads
    rw [Chain.headBytes] at read encoded
    rw [← hversions, ← hreflects.head, hreflects.read] at read
    have hbuilds : Builds issued index (Chain.head commits) (Chain.payload commits) publication :=
      ⟨hissued, indexed, head, current, validated, read, permitted, built, encoded⟩
    have hrecord : store.records (index, publication.checked.operation.key) = none := by
      rw [hreflects.record, Chain.record, Option.map_eq_none_iff, List.find?_eq_none]
      intro commit hmem hsame
      exact fresh commit.toPublication (List.mem_map_of_mem hmem) (of_decide_eq_true hsame)
    have hprepare := hreflects.prepares (hnone index) hbuilds hrecord
    have hadmits : store.admits none (Prepared.first ⟨publication.plan, publication.write⟩) =
        .ok () := Outcome.then_eq_ok.mpr
      ⟨refuseOversized_none _, hreflects.first_check (hnone index) hbuilds hrecord⟩
    obtain ⟨after, hafter, hfinished⟩ := finish_admitted adapter hrepresents hadmits
    have hreached := reached_apply h.reached hissued
    rw [← apply_ready adapter hrepresents hprepare] at hfinished
    rw [hfinished] at hreached ⊢
    obtain ⟨commit, hcommit, hreflects'⟩ := hreflects.commitAll (hnone index) hbuilds hrecord
    let prepared : Prepared R := ⟨publication.plan, publication.write⟩
    have hstaged : ∀ other, (store.commitAll prepared.writes).staged other = none :=
      commitAll_staged hnone
    refine ⟨rfl, hreached, _, _, hafter, hreflects', ?_, hstaged, ?_⟩
    · rw [Chain.publications, List.map_cons, hcommit]
      rfl
    · intro version
      cases hwrite : publication.write with
      | version expected staged marker bytes =>
        obtain ⟨-, -, -, hleaves⟩ := commitAll_leaves hchain (hnone index) hbuilds rfl
        rw [← hwrite, hleaves, history.payload_kept hwrite, hpayloads]
      | destroy expected versions =>
        have hdestroy : commit.write = .destroy expected versions := by
          rw [show commit.write = commit.toPublication.write from rfl, hcommit, hwrite]
        have hpublished := hreflects'.published version fun marker hsome => by
          rw [hstaged] at hsome
          cases hsome
        rw [← hwrite, hpublished, Chain.payload_destroy hdestroy]
        simp only [payloadBytes, hwrite]

/-- Every history of operations that are asked for is performed. -/
theorem History.performed (adapter : Adapter σ none Represents) {start : σ}
    (hstart : Represents start .empty) (h : History index log)
    (hissued : ∀ publication ∈ log, issued publication.checked.operation) :
    ∃ state, Performed issued Represents start index log state := by
  induction h with
  | nil =>
    refine ⟨(start, []), .init, .empty, [], hstart, .empty, rfl, fun _ => rfl, fun _ => rfl⟩
  | @publish log publication head current validated history indexed fresh read permitted built
      encoded ih =>
    obtain ⟨state, hperformed⟩ := ih fun earlier hmem => hissued earlier (List.mem_cons_of_mem _ hmem)
    have hnext := hperformed.apply adapter
      (.publish history indexed fresh read permitted built encoded)
      (hissued publication List.mem_cons_self)
    exact ⟨_, hnext.2⟩

end Heurema
