import Heurema.Adapters.Serial
import Heurema.Lifecycle.Isolation

/-! # Readers are isolated

What a reader returns beside any drivers, and what becomes of the payload of a published
version. -/

namespace Heurema

open Serde Hnsw Digest

open LifecycleBackend (Shows)

section Isolation

variable {M P R : Type} [MemberIdentity M] [ProvenanceReference P] [RetentionReference R]
  [SerdeJson] [Unicode] [Sha256] [VectorMath] {σ : Type} [LifecycleBackend σ]

/-- Beside whatever drivers reach from the first state of a backend, a reader of an index
returns a whole published payload or finds the index gone, and the payload of a published
version stays as it is until the index is destroyed. -/
structure IsolatesReaders (issued : LifecycleOperation M P R → Prop) (start : σ)
    (index : IndexIdentity) : Prop where
  reads : ∀ (pool last : Drivers σ) calls (outcome : Outcome HeuremaError (PublishedIndex M P)),
    Reached issued start pool →
    Pool.Beside LifecycleBackend.acts (Runs issued) (Driver.index R index) pool calls outcome
      last →
    ∃ log, Serializes issued last.state.1 last.state.2 index log ∧ Isolated index log calls outcome
  stays : ∀ (pool later : Drivers σ) head config active version, Reached issued start pool →
    Relation.ReflTransGen (Pool.Step LifecycleBackend.acts (Runs issued)) pool later →
    Shows pool.state.1 (.readHead index) (some head) →
    decodeHead head index = .ok (⟨index, config, .active active⟩ : IndexRecord R) →
    version ≤ active →
    ∃ bytes, Shows pool.state.1 (.readVersion index version) (some bytes) ∧
      (Shows later.state.1 (.readVersion index version) (some bytes) ∨
        ∃ head config last retention key, Shows later.state.1 (.readHead index) (some head) ∧
          decodeHead head index =
            .ok (⟨index, config, .destroyed last retention key⟩ : IndexRecord R))

variable {issued : LifecycleOperation M P R → Prop} {limit : Option Nat}
  {Represents : σ → Store → Prop}

omit [MemberIdentity M] [ProvenanceReference P] [RetentionReference R] [SerdeJson] [Unicode]
  [Sha256] [VectorMath] in
/-- A backend shows one reply to a call. -/
theorem LifecycleBackend.Shows.unique {state : σ} {call : Call} {reply reply' : call.Reply}
    (h : Shows state call reply) (h' : Shows state call reply') : reply = reply' := by
  rw [Shows, h] at h'
  exact Except.ok.inj (congrArg Prod.fst h')

theorem Adapter.isolates (adapter : Adapter σ limit Represents) {start : σ}
    (hstart : Represents start .empty) (hdistinguishes : Distinguishes issued)
    (index : IndexIdentity) : IsolatesReaders issued start index where
  reads pool last calls outcome hreached hbeside := by
    obtain ⟨world, hrepresents, hwrites, hsound⟩ := adapter.reached hstart hreached
    have hcontents : Contents Represents pool.state (world.store, world.writes) :=
      ⟨hrepresents, hwrites⟩
    obtain ⟨contents, hstore, hlast⟩ := hbeside.simulates adapter.simulates hcontents
    obtain ⟨final, -, hfinal, hisolated⟩ := index_beside hdistinguishes hsound hstore
    obtain rfl : (final.store, final.writes) = contents := hfinal.view
    refine ⟨_, ?_, hisolated⟩
    rw [hlast.2]
    exact adapter.serializes hdistinguishes hfinal.inv hlast.1 index
  stays pool later head config active version hreached hsteps hhead hdecoded hle := by
    obtain ⟨world, hrepresents, hwrites, hsound⟩ := adapter.reached hstart hreached
    have hcontents : Contents Represents pool.state (world.store, world.writes) :=
      ⟨hrepresents, hwrites⟩
    obtain ⟨contents, hstore, hlater⟩ := Pool.Step.simulates_all adapter.simulates hsteps hcontents
    obtain ⟨final, hgrows, hfinal⟩ :=
      hsound.steps (fun _ hprogram _ _ => runs_keep hprogram) hstore
    obtain rfl : (final.store, final.writes) = contents := hfinal.view
    have hreflects := hsound.inv.reflects index
    have hreflects' := hfinal.inv.reflects index
    have hheaded : Chain.head (world.logs index) = some head := by
      rw [← hreflects.head]
      exact (adapter.shows_head hrepresents index).unique hhead
    have hnumbered := hreflects.chain.active_numbered hheaded hdecoded rfl
    rw [IndexVersion.le_iff, hnumbered] at hle
    obtain ⟨bytes, hbytes⟩ := hreflects.chain.payload_stored hheaded hdecoded hle
    have hshown := adapter.shows_version hrepresents index version
    rw [hreflects.payload hle, hbytes] at hshown
    refine ⟨bytes, hshown, ?_⟩
    have hlast := adapter.shows_version hlater.1 index version
    have hle' : version.get ≤ (final.logs index).length := hle.trans (hgrows index).length_le
    cases hfound : Chain.payload (final.logs index) version with
    | some bytes' =>
      have hsame := hreflects'.payload hle'
      rw [hfound] at hsame
      have hkept := hreflects'.payload_earlier (hgrows index) hle hsame
      rw [hbytes] at hkept
      cases hkept
      rw [hsame] at hlast
      exact .inl hlast
    | none =>
      obtain ⟨head', config', last, retention, key, hheaded', hdecoded'⟩ :=
        hreflects'.chain.gone (hgrows index) hle hfound
      have hshown' := adapter.shows_head hlater.1 index
      rw [hreflects'.head, hheaded'] at hshown'
      exact .inr ⟨head', config', last, retention, key, hshown', hdecoded'⟩

/-- Readers are isolated on both adapters, whatever drivers run beside them. -/
theorem reader_isolation (hdistinguishes : Distinguishes issued) (index : IndexIdentity) :
    IsolatesReaders issued Atmis.LifecycleState.empty index ∧
      ∀ limit, IsolatesReaders issued (Thesauros.ThesaurosBackend.empty limit) index :=
  ⟨Atmis.adapter.isolates .empty hdistinguishes index,
    fun limit => (Thesauros.adapter limit).isolates (.empty limit) hdistinguishes index⟩

end Isolation

section Witness

attribute [local instance] Consumer.identity Consumer.reference SerdeJson.compact Unicode.ascii
  Consumer.sha256 Line.math

/-- Readers beside drivers of the consumer's operations are isolated. -/
theorem reader_isolation_consumer : IsolatesReaders (· ∈ Consumer.operations)
    Atmis.LifecycleState.empty Consumer.index :=
  (reader_isolation Consumer.distinguishes Consumer.index).1

end Witness

end Heurema
