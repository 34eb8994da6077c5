import Heurema.Adapters.Atmis
import Heurema.Lifecycle.Alone

/-! # What is stored of an index

The maps of the in-memory adapter hold of every index what its head says: the payloads of
all its versions, and one more beside the one staging marker. -/

namespace Heurema

open Serde Hnsw Digest

/-- What is stored of an index, by version and by operation key. -/
structure Holdings where
  head : Option Bytes
  payloads : IndexVersion → Option Bytes
  markers : IndexVersion → Option Bytes
  records : OperationKey → Option Bytes

/-- What the maps store of an index. -/
def Atmis.LifecycleState.holdings (state : LifecycleState) (index : IndexIdentity) : Holdings where
  head := state.heads[StorageKey.head index]?
  payloads version := state.versions[StorageKey.version index version]?
  markers version := state.staging[StorageKey.staging index version]?
  records key := state.operations[StorageKey.operation index key]?

def Store.holdings (store : Store) (index : IndexIdentity) : Holdings where
  head := store.heads index
  payloads version := store.payloads (index, version)
  markers version := store.markers (index, version)
  records key := store.records (index, key)

theorem Atmis.Represents.holdings {state : LifecycleState} {store : Store}
    (h : Represents state store) (index : IndexIdentity) :
    state.holdings index = store.holdings index := by
  have hpayloads (version : IndexVersion) : state.versions[StorageKey.version index version]? = _ :=
    h.versions.lookup (index, version)
  have hmarkers (version : IndexVersion) : state.staging[StorageKey.staging index version]? = _ :=
    h.staging.lookup (index, version)
  have hrecords (key : OperationKey) : state.operations[StorageKey.operation index key]? = _ :=
    h.operations.lookup (index, key)
  simp only [LifecycleState.holdings, Store.holdings, h.heads.lookup, hpayloads, hmarkers, hrecords]

theorem Store.markers_ne_none {store : Store} {index : IndexIdentity} {version : IndexVersion} :
    store.markers (index, version) ≠ none ↔
      ∃ marker, store.staged index = some (version, marker) := by
  rw [Option.ne_none_iff_exists']
  exact exists_congr fun marker => Store.markers_eq_some

section Indexes

variable {M P R : Type} [MemberIdentity M] [ProvenanceReference P] [RetentionReference R]
  [SerdeJson] [Unicode] [Sha256] [VectorMath]

variable (R) in
omit [Unicode] [Sha256] [VectorMath] in
/-- What is stored of an index under no head, under an active one and under a destroyed one. -/
inductive Holdings.Shape (index : IndexIdentity) (held : Holdings) : Prop where
  | absent (head : held.head = none) (records : ∀ key, held.records key = none)
      (payloads : ∀ version, held.payloads version ≠ none ↔
        version = .FIRST ∧ held.markers .FIRST ≠ none)
  | active {head : Bytes} {config : IndexConfig} {active : IndexVersion}
      (headed : held.head = some head)
      (decoded : decodeHead head index = .ok (⟨index, config, .active active⟩ : IndexRecord R))
      (payloads : ∀ version, held.payloads version ≠ none ↔ version ≤ active ∨
        version.get = active.get + 1 ∧ ∃ other, held.markers other ≠ none)
      (markers : ∀ version, held.markers version ≠ none → version.get = active.get + 1)
  | destroyed {head : Bytes} {config : IndexConfig} {last : IndexVersion} {retention : R}
      {key : OperationKey} (headed : held.head = some head)
      (decoded : decodeHead head index =
        .ok (⟨index, config, .destroyed last retention key⟩ : IndexRecord R))
      (payloads : ∀ version, held.payloads version = none)
      (markers : ∀ version, held.markers version = none)

/-- The markers of an index name one version, and that version has a payload. -/
structure Holdings.Staged (held : Holdings) : Prop where
  once : ∀ version other, held.markers version ≠ none → held.markers other ≠ none →
    version = other
  beside : ∀ version, held.markers version ≠ none → held.payloads version ≠ none

/-! ## From the chain -/

section Reflected

variable {issued : LifecycleOperation M P R → Prop} {store : Store} {index : IndexIdentity}
  {log : List (Commit M P R)}

theorem Store.Reflects.staged_holdings (h : store.Reflects issued index log) :
    (store.holdings index).Staged where
  once version other hversion hother := by
    obtain ⟨marker, hversion⟩ := Store.markers_ne_none.mp hversion
    obtain ⟨marker', hother⟩ := Store.markers_ne_none.mp hother
    rw [hversion] at hother
    exact (Prod.mk.inj (Option.some.inj hother)).1
  beside version hversion := by
    obtain ⟨marker, hstaged⟩ := Store.markers_ne_none.mp hversion
    obtain ⟨payload, hpayload, -⟩ := h.staged version marker hstaged
    exact Option.ne_none_iff_exists'.mpr ⟨payload, hpayload⟩

/-- A payload is stored for what is published and for what is staged. -/
theorem Store.Reflects.payload_iff (h : store.Reflects issued index log) (version : IndexVersion) :
    store.payloads (index, version) ≠ none ↔
      Chain.payload log version ≠ none ∨ store.markers (index, version) ≠ none := by
  by_cases hmarker : store.markers (index, version) = none
  · have hunstaged (marker : Bytes) : store.staged index ≠ some (version, marker) :=
      fun hstaged => Store.markers_ne_none.mpr ⟨marker, hstaged⟩ hmarker
    rw [h.published version hunstaged, hmarker]
    simp
  · have hstored : store.payloads (index, version) ≠ none :=
      h.staged_holdings.beside version hmarker
    exact iff_of_true hstored (.inr hmarker)

/-- What is staged follows the last version of the chain. -/
theorem Store.Reflects.marker_numbered (h : store.Reflects issued index log)
    {version : IndexVersion} (hmarker : store.markers (index, version) ≠ none) :
    version.get = log.length + 1 := by
  obtain ⟨marker, hstaged⟩ := Store.markers_ne_none.mp hmarker
  obtain ⟨payload, -, hstageable⟩ := h.staged version marker hstaged
  exact hstageable.numbered h.chain.top

theorem Store.Reflects.shape (h : store.Reflects issued index log) :
    (store.holdings index).Shape R index := by
  cases h.chain.top with
  | absent hempty =>
    subst hempty
    refine .absent h.head h.record fun version => ?_
    refine (h.payload_iff version).trans ?_
    constructor
    · intro hstored
      have hmarker : store.markers (index, version) ≠ none := hstored.resolve_left fun hne => hne rfl
      obtain rfl : version = .FIRST := IndexVersion.ext (h.marker_numbered hmarker)
      exact ⟨rfl, hmarker⟩
    · intro hfirst
      obtain ⟨rfl, hmarker⟩ := hfirst
      exact .inr hmarker
  | @active head bytes config active payload hheaded hdecoded hnumbered =>
    refine .active (h.head.trans hheaded) hdecoded (fun version => ?_) fun version hmarker => ?_
    · refine (h.payload_iff version).trans ?_
      rw [IndexVersion.le_iff]
      constructor
      · intro hstored
        rcases hstored with hpublished | hmarker
        · refine .inl (not_lt.mp fun hbeyond => hpublished ?_)
          exact h.chain.payload_beyond (hnumbered ▸ hbeyond)
        · exact .inr ⟨hnumbered ▸ h.marker_numbered hmarker, version, hmarker⟩
      · intro hstored
        rcases hstored with hle | hnext
        · obtain ⟨bytes, hbytes⟩ := h.chain.payload_stored hheaded hdecoded (hnumbered ▸ hle)
          exact .inl (Option.ne_none_iff_exists'.mpr ⟨bytes, hbytes⟩)
        · obtain ⟨hversion, other, hmarker⟩ := hnext
          have hother : store.markers (index, other) ≠ none := hmarker
          obtain rfl : version = other :=
            IndexVersion.ext (by rw [hversion, h.marker_numbered hother, hnumbered])
          exact .inr hother
    · rw [h.marker_numbered hmarker, hnumbered]
  | @destroyed head config last retention key hheaded hdecoded hnumbered hnone =>
    have hmarkers (version : IndexVersion) : store.markers (index, version) = none := by
      by_contra hmarker
      obtain ⟨marker, hstaged⟩ := Store.markers_ne_none.mp hmarker
      obtain ⟨payload, -, twin, hbuilds, hwrite⟩ := h.staged version marker hstaged
      obtain ⟨config', active, hactive⟩ :=
        (hbuilds.advances h.chain.top).standing_version hwrite hheaded
      rw [hactive] at hdecoded
      cases hdecoded
    refine .destroyed (h.head.trans hheaded) hdecoded (fun version => ?_) hmarkers
    by_contra hstored
    rcases (h.payload_iff version).mp hstored with hpublished | hmarker
    · exact hpublished (hnone version)
    · exact hmarker (hmarkers version)

end Reflected

/-! ## In every run -/

/-- However drivers, quarantines and reads are interleaved, and whichever are dropped or lose
an answer, the maps hold of every index what its head says. -/
theorem storage_invariant {pool : Drivers Atmis.LifecycleState}
    (h : Reached (fun _ : LifecycleOperation M P R => True) .empty pool) (index : IndexIdentity) :
    (pool.state.1.holdings index).Shape R index ∧ (pool.state.1.holdings index).Staged := by
  obtain ⟨world, hrepresents, -, hsound⟩ := Atmis.adapter.reached .empty h
  have hreflects := hsound.inv.reflects index
  rw [hrepresents.holdings index]
  exact ⟨hreflects.shape, hreflects.staged_holdings⟩

end Indexes

section Witness

attribute [local instance] Consumer.identity Consumer.reference SerdeJson.compact Unicode.ascii
  Consumer.sha256 Line.math

/-- The maps after an index was created. -/
theorem storage_invariant_created : ∃ pool : Drivers Atmis.LifecycleState,
    Reached (fun _ : LifecycleOperation Str Str Str => True) .empty pool ∧
    (pool.state.1.holdings Consumer.index).Shape Str Consumer.index ∧
      (pool.state.1.holdings Consumer.index).Staged := by
  have hreached : Reached (fun _ : LifecycleOperation Str Str Str => True)
      Atmis.LifecycleState.empty
      ⟨(Driver.alone (Driver.apply Consumer.created) (Atmis.LifecycleState.empty, [])).2, []⟩ :=
    reached_apply .init trivial
  exact ⟨_, hreached, storage_invariant hreached Consumer.index⟩

end Witness

end Heurema
