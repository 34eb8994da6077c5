import Heurema.Adapters.RealTime
import Heurema.Fts.Query
import Heurema.Lifecycle.Overtaken
import Heurema.Lifecycle.Vectors

/-! # Searches answer from what was published

A reader that runs beside any drivers gets an index as the first operations that were published
left it, at least all that were published before it started. Its searches answer from the
vectors and the texts of these operations alone. -/

namespace Heurema

open Serde Hnsw Digest

section Definitions

variable {M P R : Type} [MemberIdentity M] [ProvenanceReference P] [RetentionReference R]
  [SerdeJson] [Unicode] [Sha256] [VectorMath]

/-- Hits that name a version, and the provenance of the last operation that wrote each. -/
def Attributed {F : Type} (log : List (Publication M P R)) (version : IndexVersion)
    (hits : List (IndexHit M P F)) : Prop :=
  ∀ hit ∈ hits, hit.version = version ∧
    (lastWrite log hit.id).map IndexMember.provenance = some hit.provenance

/-- A published index answers from what the operations of a log leave: a vector with the nearest
of the vectors, and a text with the best ranked of the texts. -/
structure Answers (F : Type) [ScoreArith F] (log : List (Publication M P R))
    (found : PublishedIndex M P) : Prop where
  version : found.version.get = log.length
  members : ∀ id, id ∈ found.members ↔ id ∈ contents log
  refuses : ∀ config vector e k, found.config = .vector config →
    checkVector config vector = .error e → found.queryVector vector k = Outcome.refuse e
  vectors : ∀ config vector k, found.config = .vector config →
    checkVector config vector = .ok () →
    (∀ (id : M) (components : List F32), (memberVectors log)[id]? = some components →
      (publicScore config vector components).isFinite = true) →
    ∃ hits, found.queryVector vector k = .ok hits ∧
      Nearest config (memberVectors log) vector k (hits.map fun hit => (hit.id, hit.score)) ∧
      Attributed log found.version hits
  texts : ∀ config text k, found.config = .fts config →
    ∃ hits, found.queryText text k = .ok hits ∧
      (hits.map fun hit => (hit.id, hit.score)) = (Bm25Index.ranking F (texts log) text).take k ∧
      Attributed log found.version hits

/-- What a reader is given beside drivers: the history of the first operations that were
published, all that were published before it started among them, and searches that answer from
these. -/
structure Searched (F : Type) [ScoreArith F] (issued : LifecycleOperation M P R → Prop)
    (index : IndexIdentity) (before after : List Write) (found : PublishedIndex M P)
    (log : List (Publication M P R)) : Prop where
  issued : ∀ publication ∈ log, issued publication.checked.operation
  history : History index log
  first : (log.reverse.map fun publication => publication.staged.publishing) <+:
    after.filter (·.Publishes index)
  seen : before.filter (·.Publishes index) <+:
    log.reverse.map fun publication => publication.staged.publishing
  answers : Answers F log found

end Definitions

section Histories

variable {M P R : Type} [MemberIdentity M] [ProvenanceReference P] [RetentionReference R]
  [SerdeJson] [Unicode] [Sha256] [VectorMath] {index : IndexIdentity}
  {log : List (Publication M P R)}

/-- The table of a version names the members whose contents its history leaves. -/
theorem History.tabled (h : History index log) {record : IndexRecord R}
    {payload : VersionPayload M P} (hcurrent : currentVersion log = some (record, payload)) (id : M) :
    id ∈ payload.members ↔ id ∈ contents log := by
  have hsound := h.readable.standing.sound record payload hcurrent
  have hheld := h.held_contents id
  rw [hcurrent] at hheld
  have hnamed := VersionEngine.holdsExactly_iff.mp hsound.members id
  rw [show payload.engine.held id = _ from hheld, Option.isSome_map] at hnamed
  rw [Std.ExtTreeMap.mem_iff_isSome_getElem?, Std.ExtTreeMap.mem_iff_isSome_getElem?, hnamed]

/-- A full-text version answers with the ranking of the texts that its history leaves. -/
theorem History.best (F : Type) [ScoreArith F] (h : History index log) {record : IndexRecord R}
    {payload : VersionPayload M P} (hcurrent : currentVersion log = some (record, payload))
    {config : FtsConfig} (hconfig : payload.config = .fts config) (text : Str) (k : Nat) :
    ∃ hits, (PublishedIndex.fromPayload payload).queryText text k = .ok hits ∧
      (hits.map fun hit => (hit.id, hit.score)) = (Bm25Index.ranking F (texts log) text).take k ∧
      Attributed log payload.version hits := by
  have hsound := h.readable.standing.sound record payload hcurrent
  cases hengine : payload.engine with
  | vector engine =>
    have hbuilt := VersionEngine.isBuiltUnder_iff.mp hsound.built
    rw [hconfig, hengine] at hbuilt
    cases hbuilt
  | fts engine =>
    obtain ⟨hsame, -, hrepresents⟩ := h.represents hcurrent hengine
    rw [hconfig] at hsame
    cases hsame
    have hpipeline : engine.simplePipeline = .ok () := by
      have hvalid := hsound.config
      rw [hconfig] at hvalid
      exact hvalid
    have hquery := hrepresents.query (F := F) hpipeline text k
    -- A ranked identity has a text, so the table names it.
    have hmembers : ∀ entry ∈ (Bm25Index.ranking F (texts log) text).take k,
        entry.1 ∈ payload.members := by
      intro entry hmem
      obtain ⟨found, hfound, -⟩ := (Bm25Index.mem_ranking F).mp (List.mem_of_mem_take hmem)
      have hheld := VersionEngine.holdsExactly_iff.mp hsound.members entry.1
      rw [hengine, VersionEngine.held, Option.isSome_map, hrepresents.documents, hfound] at hheld
      exact Std.ExtTreeMap.mem_iff_isSome_getElem?.mpr hheld.symm
    obtain ⟨hits, hhits, hpaired, hattributed⟩ := h.hits hcurrent hmembers
    refine ⟨hits, ?_, hpaired, hattributed⟩
    have hpublished : (PublishedIndex.fromPayload payload).engine = .fts engine := hengine
    rw [PublishedIndex.queryText, hpublished]
    simp only [hquery, Outcome.ofResult_ok, Outcome.ok_bind]
    exact hhits

/-- A version answers from its history. -/
theorem History.answers (F : Type) [ScoreArith F] (h : History index log)
    {record : IndexRecord R} {payload : VersionPayload M P}
    (hcurrent : currentVersion log = some (record, payload))
    (hnumbered : payload.version.get = log.length) : Answers F log (.fromPayload payload) where
  version := hnumbered
  members := h.tabled hcurrent
  refuses config vector e k hconfig hrefused := h.unfit hcurrent hconfig hrefused k
  vectors config vector k hconfig hvector hfinite := by
    obtain ⟨_, hits, hhits, rfl, hnearest, hattributed⟩ :=
      h.nearest hcurrent hconfig hvector hfinite k
    exact ⟨hits, hhits, hnearest, hattributed⟩
  texts config text k hconfig := h.best F hcurrent hconfig text k

end Histories

section Reading

variable {M P R : Type} [MemberIdentity M] [ProvenanceReference P] [RetentionReference R]
  [SerdeJson] [Unicode] [Sha256] [VectorMath] {issued : LifecycleOperation M P R → Prop}
  {limit : Option Nat} {index : IndexIdentity} {world : World M P R}
  {pool last : Pool Call.Reply HeuremaError (Store × List Write) Unit}
  {calls : List (Σ call : Call, Except HeuremaError call.Reply)}

omit [VectorMath] [Sha256] [RetentionReference R] in
theorem decodeActive_named {bytes : Bytes} {version : IndexVersion} {head : IndexRecord R}
    {payload : VersionPayload M P} (h : decodeActive bytes index version head = .ok payload) :
    payload.version = version := by
  rw [decodeActive] at h
  obtain ⟨decoded, hdecoded, h⟩ := Outcome.bind_eq_ok.mp h
  split at h
  · cases h
  · cases h
    exact (decodePayload_named hdecoded).2

/-- A reader beside drivers returns the version that the chain of its first read ends in. -/
theorem index_current (hdistinguishes : Distinguishes issued)
    (hsound : (drivers issued limit).Sound world pool) {found : PublishedIndex M P}
    (h : Pool.Beside (Store.acts limit) (Runs issued) (Driver.index R index) pool calls (.ok found)
      last) :
    ∃ (final : World M P R) (log : List (Commit M P R)) (record : IndexRecord R)
      (payload : VersionPayload M P), (drivers issued limit).Sound final last ∧
      Chain issued index log ∧ world.logs index <:+ log ∧ log <:+ final.logs index ∧
      found = .fromPayload payload ∧ payload.version.get = log.length ∧
      readCurrent index (Chain.head log) (Chain.payload log) =
        .ok (some record, some (record, payload)) := by
  unfold Driver.index at h
  obtain ⟨first, rest, pool', rfl, hfirst, hsound', h⟩ := beside_readHead hsound h
  have hchain := (hsound'.inv.reflects index).chain
  obtain ⟨head, current, hread⟩ := hchain.reads hdistinguishes
  cases hbytes : Chain.head (first.logs index) with
  | none =>
    rw [hbytes] at h
    cases h.of_done.2
  | some bytes =>
    rw [hbytes] at h hread
    obtain ⟨record, hdecoded, hread⟩ := Outcome.bind_eq_ok.mp hread
    simp only [hdecoded, Program.lift_ok] at h
    cases hstate : record.state with
    | destroyed last retention key =>
      simp only [hstate] at h
      cases h.of_done.2
    | active version =>
      have hnumbered := hchain.active_numbered hbytes hdecoded hstate
      simp only [hstate, Driver.activePayload, Program.bind_assoc] at h hread
      obtain ⟨second, rest, pool'', rfl, hsecond, hsound'', h⟩ := beside_readVersion hsound' h
      cases hfound : second.store.payloads (index, version) with
      | none =>
        -- Whatever is read of the head again, nothing is returned.
        rw [hfound] at h
        exfalso
        refine h.yields (P := fun _ => False) ?_ found rfl
        refine .bind (P := (· = none)) (.after fun again => ?_) fun payload hnone => ?_
        · split
          · exact .done fun _ hpayload => by cases hpayload
          · exact .pure rfl
        · subst hnone
          exact .done fun _ hfound => by cases hfound
      | some stored =>
        rw [hfound] at h
        have hstored := (hsound''.inv.reflects index).payload_earlier (hsecond index)
          hnumbered.le hfound
        rw [hstored] at hread
        obtain ⟨payload, hactive, hread⟩ := Outcome.bind_eq_ok.mp hread
        simp only [hactive, Program.lift_ok] at h
        obtain ⟨final, rfl, hreturned, hfinal, hlast⟩ := beside_done hsound'' h
        refine ⟨final, first.logs index, record, payload, hlast, hchain, hfirst index,
          (hsecond index).trans (hfinal index), Except.ok.inj hreturned, ?_, ?_⟩
        · rw [decodeActive_named hactive]
          exact hnumbered
        · simp only [readCurrent, hbytes, hdecoded, Outcome.ok_bind, hstate, hstored, hactive,
            Outcome.pure_eq]

/-- The publishing writes of an earlier part of a chain come first. -/
theorem World.Inv.first (h : world.Inv issued) {log : List (Commit M P R)}
    (hearlier : log <:+ world.logs index) :
    ((Chain.publications log).reverse.map fun publication => publication.staged.publishing) <+:
      world.writes.filter (·.Publishes index) := by
  rw [h.recorded, Chain.publications, ← List.map_reverse, List.map_map]
  exact (List.reverse_prefix.mpr hearlier).map _

/-- A reader beside drivers is given what the operations before its first read left. -/
theorem index_searched (F : Type) [ScoreArith F] (hdistinguishes : Distinguishes issued)
    (hsound : (drivers issued limit).Sound world pool) {found : PublishedIndex M P}
    (h : Pool.Beside (Store.acts limit) (Runs issued) (Driver.index R index) pool calls (.ok found)
      last) :
    ∃ log : List (Publication M P R),
      Searched F issued index pool.state.2 last.state.2 found log := by
  obtain ⟨final, log, record, payload, hlast, hchain, hbefore, hafter, rfl, hnumbered, hread⟩ :=
    index_current hdistinguishes hsound h
  have hhistory := hchain.history hdistinguishes
  rw [← Chain.headBytes, ← funext (hchain.payloadBytes hdistinguishes)] at hread
  have hcurrent := hhistory.current_of_read hread
  refine ⟨Chain.publications log, ?_⟩
  constructor
  case issued =>
    intro publication hmem
    obtain ⟨commit, hcommit, rfl⟩ := List.mem_map.mp hmem
    exact hchain.asked commit hcommit
  case history => exact hhistory
  case first =>
    rw [← show final.writes = last.state.2 from congrArg Prod.snd hlast.view]
    exact hlast.inv.first hafter
  case seen =>
    rw [← show world.writes = pool.state.2 from congrArg Prod.snd hsound.view,
      hsound.inv.recorded, Chain.publications, ← List.map_reverse, List.map_map]
    exact (List.reverse_prefix.mpr hbefore).map _
  case answers =>
    refine hhistory.answers F hcurrent ?_
    rw [Chain.publications, List.length_map]
    exact hnumbered

end Reading

/-! ## On the adapters -/

section Adapters

variable {M P R : Type} [MemberIdentity M] [ProvenanceReference P] [RetentionReference R]
  [SerdeJson] [Unicode] [Sha256] [VectorMath] {issued : LifecycleOperation M P R → Prop}
  {limit : Option Nat}

/-- Whatever drivers run beside a reader, its searches answer from the first operations that were
published, all that were published before it started among them. -/
def SearchesPublished (F : Type) [ScoreArith F] (issued : LifecycleOperation M P R → Prop)
    {σ : Type} [LifecycleBackend σ] (start : σ) : Prop :=
  ∀ (pool last : Drivers σ) index calls (found : PublishedIndex M P), Reached issued start pool →
    Pool.Beside LifecycleBackend.acts (Runs issued) (Driver.index R index) pool calls (.ok found)
      last →
    ∃ log : List (Publication M P R),
      Searched F issued index pool.state.2 last.state.2 found log

theorem Adapter.searchesPublished (F : Type) [ScoreArith F] {σ : Type} [LifecycleBackend σ]
    {Represents : σ → Store → Prop} (adapter : Adapter σ limit Represents)
    (hdistinguishes : Distinguishes issued) {start : σ} (hstart : Represents start .empty) :
    SearchesPublished F issued start := by
  intro pool last index calls found hreached hbeside
  obtain ⟨world, hrepresents, hwrites, hsound⟩ := adapter.reached hstart hreached
  have hcontents : Contents Represents pool.state (world.store, world.writes) :=
    ⟨hrepresents, hwrites⟩
  obtain ⟨contents, hstore, hlast⟩ := hbeside.simulates adapter.simulates hcontents
  rw [hwrites, show last.state.2 = contents.2 from hlast.2]
  exact index_searched F hdistinguishes hsound hstore

/-- On both adapters, whatever drivers run, searches answer from what was published. -/
theorem searches_published (F : Type) [ScoreArith F] (hdistinguishes : Distinguishes issued) :
    SearchesPublished F issued Atmis.LifecycleState.empty ∧
      ∀ limit, SearchesPublished F issued (Thesauros.ThesaurosBackend.empty limit) :=
  ⟨Atmis.adapter.searchesPublished F hdistinguishes .empty,
    fun limit => (Thesauros.adapter limit).searchesPublished F hdistinguishes (.empty limit)⟩

end Adapters

section Witness

attribute [local instance] Consumer.identity Consumer.reference SerdeJson.compact Unicode.ascii
  Consumer.sha256 Line.math Bm25Index.exactScores

/-- Readers beside drivers that insert documents and remove one. -/
theorem searches_published_consumer :
    SearchesPublished Int (· ∈ Consumer.operations) Atmis.LifecycleState.empty :=
  (searches_published Int Consumer.distinguishes).1

end Witness

end Heurema
