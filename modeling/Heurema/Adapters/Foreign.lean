import Heurema.Adapters.Grounded
import Heurema.Fts.Decoder
import Heurema.Hnsw.Query
import Heurema.Lifecycle.Category
import Heurema.Lifecycle.Chain
import Heurema.Lifecycle.Published

/-! # What decodes can be read

An index that a reader is given was checked when it was decoded, whoever wrote its bytes. No
query on it panics or ranks a member that its table does not name. -/

namespace Heurema

open Serde Hnsw Digest

open Outcome (refuse ofResult)

/-! ## The engines -/

section Queries

variable {Id : Type} [LinearOrder Id]

/-- A list of the best that names each identity once, all of them among `ids`. -/
structure Ranks {F : Type} (ids : List Id) (k : Nat) (ranked : List (Id × F)) : Prop where
  cut : ranked.length ≤ k
  distinct : (ranked.map Prod.fst).Nodup
  among : ∀ entry ∈ ranked, entry.1 ∈ ids

omit [LinearOrder Id] in
/-- The best of a list that names each identity once. -/
theorem Ranks.best {F : Type} {ids : List Id} {ranked sorted : List (Id × F)} (k : Nat)
    (hperm : sorted.Perm ranked) (hdistinct : (ranked.map Prod.fst).Nodup)
    (hamong : ∀ entry ∈ ranked, entry.1 ∈ ids) : Ranks ids k (sorted.take k) where
  cut := List.length_take_le k sorted
  distinct := by
    have hsorted : (sorted.map Prod.fst).Nodup := (hperm.map Prod.fst).nodup_iff.mpr hdistinct
    exact hsorted.sublist ((List.take_sublist k sorted).map Prod.fst)
  among := by
    intro entry hentry
    exact hamong entry (hperm.mem_iff.mp (List.mem_of_mem_take hentry))

/-- A graph with the invariant ranks as many of its members as are asked for, or refuses what it
is asked. -/
theorem graph_ranks [VectorMath] {engine : HnswIndex Id} (h : Inv engine) (vector : List F32)
    (k : Nat) : (∃ ranked, engine.query vector k = .ok ranked ∧ Ranks engine.memberIds k ranked ∧
        ranked.length = min k engine.memberIds.length) ∨
      ∃ e, engine.query vector k = refuse e ∧ e.OfInput := by
  cases hcheck : checkVector engine.config vector with
  | error e =>
    right
    refine ⟨e, ?_, checkVector_ofInput engine.config vector e hcheck⟩
    rw [HnswIndex.query, hcheck, Outcome.ofResult_error, Outcome.refuse_bind]
  | ok =>
    obtain ⟨found, hsub, hcount, hquery⟩ := query_found h hcheck k
    have hfound (id : Id) (hid : id ∈ found) : id ∈ engine.memberIds := hsub.subset hid
    have hids : (scores engine vector found).map Prod.fst = found := by
      refine scores_ids vector fun id hid => ?_
      simpa [HnswIndex.memberIds] using hfound id hid
    have hscored : (candidates engine vector found).mapM HnswIndex.score =
        .ok (scores engine vector found) ∧ _ ∨ _ := mapM_score vector found
    rcases hscored with ⟨hok, -⟩ | ⟨⟨reason, herror⟩, -⟩
    · left
      have hperm := List.perm_insertionSort HnswIndex.ranksBefore (scores engine vector found)
      refine ⟨_, by rw [hquery, hok]; rfl, .best k hperm ?_ fun entry hentry => ?_, ?_⟩
      · rw [hids]
        have hmembers : engine.memberIds.Nodup :=
          (BTreeMap.keys_sorted engine.nodes).imp fun h => ne_of_lt h
        obtain ⟨hids, hperm, hsublist⟩ := hsub
        exact hperm.nodup_iff.mp (hmembers.sublist hsublist)
      · apply hfound
        rw [← hids]
        exact List.mem_map_of_mem hentry
      · have hlength : (scores engine vector found).length = found.length := by
          rw [← List.length_map Prod.fst, hids]
        have hbeam : k ≤ engine.queryBeam k := by
          unfold HnswIndex.queryBeam
          omega
        have hall : engine.len = engine.memberIds.length := by
          simp [HnswIndex.memberIds, HnswIndex.len]
        have hle := hsub.length_le
        rw [List.length_take, hperm.length_eq, hlength]
        by_cases hk : 0 < k
        · have hcount := hcount hk
          omega
        · omega
    · right
      refine ⟨_, by rw [hquery, herror]; rfl, ?_⟩
      exact .inl rfl

section Texts

variable {F : Type} [ScoreArith F] {engine : Bm25Index Id}

/-- A term scores documents only, whatever its posting names. -/
theorem scoreTerm_documents (count average : F) {scores : BTreeMap Id F}
    (h : ∀ id ∈ scores, id ∈ engine.documents) (term : Str) :
    ∀ id ∈ engine.scoreTerm count average scores term, id ∈ engine.documents := by
  rw [Bm25Index.scoreTerm]
  cases engine.postings[term]? with
  | none => exact h
  | some posting =>
    simp only [Std.ExtTreeMap.foldl_eq_foldl_toList]
    induction posting.toList generalizing scores with
    | nil => exact h
    | cons entry entries ih =>
      apply ih
      intro id hid
      dsimp only at hid
      split at hid
      · exact h id hid
      · next document hdocument =>
        rw [BTreeMap.mem_iff, BTreeMap.getElem?_alter_ite] at hid
        by_cases hentry : entry.1 = id
        · exact BTreeMap.mem_iff.mpr ⟨document, hentry ▸ hdocument⟩
        · rw [if_neg hentry] at hid
          exact h id (BTreeMap.mem_iff.mpr hid)

theorem scoreTerms_documents (count average : F) {scores : BTreeMap Id F}
    (h : ∀ id ∈ scores, id ∈ engine.documents) (terms : List Str) :
    ∀ id ∈ terms.foldl (engine.scoreTerm count average) scores, id ∈ engine.documents := by
  induction terms generalizing scores with
  | nil => exact h
  | cons term terms ih => exact ih (scoreTerm_documents count average h term)

/-- A text index ranks its own members, or refuses what it is asked. -/
theorem texts_rank [Unicode] (query : Str) (k : Nat) :
    (∃ ranked : List (Id × F), engine.query query k = .ok ranked ∧ Ranks engine.memberIds k ranked) ∨
      ∃ e, (engine.query query k : Except HeuremaError (List (Id × F))) = .error e ∧ e.OfInput := by
  unfold Bm25Index.query
  cases hpipeline : engine.simplePipeline with
  | error e => exact .inr ⟨e, rfl, requireSimplePipeline_ofInput engine.config e hpipeline⟩
  | ok =>
    left
    rw [Outcome.ok_bind]
    split
    · exact ⟨[], rfl, Nat.zero_le k, List.nodup_nil, fun entry hentry => by cases hentry⟩
    · refine ⟨_, rfl, .best k (List.perm_insertionSort _ _) (BTreeMap.toList_keys_nodup _) ?_⟩
      intro entry hentry
      have hscored := BTreeMap.mem_iff.mpr ⟨_, BTreeMap.mem_toList.mp hentry⟩
      rw [Std.ExtTreeSet.foldl_eq_foldl_toList] at hscored
      have hdocument : entry.1 ∈ engine.documents := by
        refine scoreTerms_documents _ _ (fun id hid => ?_) _ entry.1 hscored
        simp at hid
      simpa [Bm25Index.memberIds] using hdocument

end Texts

end Queries

section Engines

variable {Id : Type} [LinearOrder Id] [KeyCodec Id] [SerdeJson]

omit [LinearOrder Id] [KeyCodec Id] [SerdeJson] in
/-- A record that is read passed the checks behind its fields. -/
theorem record_checked {ρ β : Type} {names : List Str}
    {fields : List (Option Json) → Outcome String ρ} {check : ρ → Outcome String β} {json : Json}
    {value : β} (h : readRecord names (fun found => do check (← fields found)) json = .ok value) :
    ∃ raw, check raw = .ok value := by
  obtain ⟨found, -, h⟩ := Outcome.bind_eq_ok.mp h
  obtain ⟨raw, -, h⟩ := Outcome.bind_eq_ok.mp h
  exact ⟨raw, h⟩

/-- A graph that is read has the invariant. -/
theorem decoded_graph {json : Json} {engine : HnswIndex Id} (h : deserialize json = .ok engine) :
    Inv engine := by
  obtain ⟨raw, hraw⟩ : ∃ raw, HnswIndex.tryFrom raw = .ok engine := record_checked h
  exact (tryFrom_eq_ok.mp hraw).2

omit [SerdeJson] in
/-- A text index that is read is sound. -/
theorem decoded_texts {json : Json} {engine : Bm25Index Id} (h : deserialize json = .ok engine) :
    engine.Sound := by
  obtain ⟨raw, hraw⟩ : ∃ raw, Bm25Index.tryFrom raw = .ok engine := record_checked h
  exact (Bm25Index.tryFrom_eq_ok.mp hraw).2

end Engines

section Payloads

variable {M P R : Type} [MemberIdentity M] [ProvenanceReference P] [RetentionReference R]
  [SerdeJson] [Unicode]

omit [Unicode] in
theorem decoded_engine {json : Json} {engine : VersionEngine M}
    (h : deserialize json = .ok engine) : engine.Sound := by
  have h : VersionEngine.read json = .ok engine := h
  unfold VersionEngine.read at h
  obtain ⟨tagged, -, h⟩ := Outcome.bind_eq_ok.mp h
  split at h
  · obtain ⟨content, -, h⟩ := Outcome.bind_eq_ok.mp h
    obtain ⟨graph, hgraph, h⟩ := Outcome.bind_eq_ok.mp h
    cases h
    exact decoded_graph hgraph
  · split at h
    · obtain ⟨content, -, h⟩ := Outcome.bind_eq_ok.mp h
      obtain ⟨texts, htexts, h⟩ := Outcome.bind_eq_ok.mp h
      cases h
      exact decoded_texts htexts
    · cases h

omit [SerdeJson] [Unicode] in
/-- A field that is required was read. -/
theorem required_read {α : Type} [Codec α] {found : List (Option Json)} {i : Nat} {value : α}
    (h : requiredField found i = .ok value) : ∃ json, deserialize json = .ok value := by
  unfold requiredField at h
  split at h
  · exact ⟨_, h⟩
  · cases h

/-- The engine of a payload passed its own decoder before the payload is checked. -/
theorem decoded_raw {json : Json} {raw : RawVersionPayload M P}
    (h : deserialize json = .ok raw) : raw.engine.Sound := by
  obtain ⟨found, -, h⟩ := Outcome.bind_eq_ok.mp h
  obtain ⟨format, -, h⟩ := Outcome.bind_eq_ok.mp h
  obtain ⟨index, -, h⟩ := Outcome.bind_eq_ok.mp h
  obtain ⟨version, -, h⟩ := Outcome.bind_eq_ok.mp h
  obtain ⟨predecessor, -, h⟩ := Outcome.bind_eq_ok.mp h
  obtain ⟨operation, -, h⟩ := Outcome.bind_eq_ok.mp h
  obtain ⟨config, -, h⟩ := Outcome.bind_eq_ok.mp h
  obtain ⟨engine, hengine, h⟩ := Outcome.bind_eq_ok.mp h
  obtain ⟨members, -, h⟩ := Outcome.bind_eq_ok.mp h
  cases h
  obtain ⟨json, hjson⟩ := required_read hengine
  exact decoded_engine hjson

/-- What the decoder of a payload checked. -/
theorem decoded_payload {bytes : Bytes} {index : IndexIdentity} {version : IndexVersion}
    {payload : VersionPayload M P} (h : decodePayload bytes index version = .ok payload) :
    payload.engine.Sound ∧ payload.engine.isBuiltUnder payload.config = true ∧
      payload.engine.holdsExactly payload.members = true ∧
      ∀ (id : M) (entry : MemberEntry P), payload.members[id]? = some entry →
        VersionPayload.precedes payload.version entry = true := by
  rw [decodePayload] at h
  obtain ⟨-, h⟩ := Outcome.then_eq_ok.mp h
  obtain ⟨raw, hraw, h⟩ := Outcome.bind_eq_ok.mp h
  obtain ⟨json, -, hread⟩ := Outcome.bind_eq_ok.mp (Outcome.mapError_eq_ok.mp hraw)
  have hengine := decoded_raw hread
  obtain ⟨decoded, hdecoded, h⟩ := Outcome.bind_eq_ok.mp h
  have hdecoded := Outcome.ofResult_eq_ok.mp hdecoded
  split at h
  · cases h
  cases h
  -- Each check was passed, or the payload was refused.
  rw [VersionPayload.tryFrom] at hdecoded
  split at hdecoded
  · cases hdecoded
  split at hdecoded
  · cases hdecoded
  next hbuilt =>
  split at hdecoded
  · cases hdecoded
  next hmembers =>
  split at hdecoded
  · cases hdecoded
  split at hdecoded
  · cases hdecoded
  next hentries =>
  cases hdecoded
  simp only [Bool.not_eq_true', Bool.not_eq_false] at hbuilt hmembers hentries
  refine ⟨hengine, hbuilt, hmembers, ?_⟩
  intro id entry hentry
  exact List.all_eq_true.mp hentries (id, entry) (BTreeMap.mem_toList.mpr hentry)

/-! ## What a reader is given -/

/-- What holds of an index that a reader is given, whoever wrote it. -/
structure PublishedIndex.Checked (name : IndexIdentity) (found : PublishedIndex M P) : Prop where
  named : found.identity = name
  engine : found.engine.Sound
  built : found.engine.isBuiltUnder found.config = true
  members : found.engine.memberIds = found.members.keys
  entries : ∀ (id : M) (entry : MemberEntry P), found.members[id]? = some entry →
    entry.introduced ≤ found.version ∧ ∀ old, entry.supersedes = some old → old < entry.introduced

/-- How a query of an index ends: with at most `k` of its members, each once and as its table has
it, or with what the query itself is to blame for. -/
inductive QueryEnds {F : Type} (found : PublishedIndex M P) (k : Nat) :
    Run (List (IndexHit M P F)) → Prop where
  | answered {hits : List (IndexHit M P F)} (cut : hits.length ≤ k)
      (distinct : (hits.map IndexHit.id).Nodup)
      (attributed : ∀ hit ∈ hits, hit.version = found.version ∧
        (found.members[hit.id]?).map MemberEntry.provenance = some hit.provenance) :
      QueryEnds found k (.ok hits)
  | refused {e : HeuremaError} (input : e.OfInput) : QueryEnds found k (refuse e)

omit [RetentionReference R] in
theorem decodeActive_checked {bytes : Bytes} {index : IndexIdentity} {version : IndexVersion}
    {head : IndexRecord R} {payload : VersionPayload M P}
    (h : decodeActive bytes index version head = .ok payload) :
    (PublishedIndex.fromPayload payload).Checked index := by
  rw [decodeActive] at h
  obtain ⟨decoded, hdecoded, h⟩ := Outcome.bind_eq_ok.mp h
  split at h
  · cases h
  cases h
  obtain ⟨hengine, hbuilt, hmembers, hentries⟩ := decoded_payload hdecoded
  constructor
  case named => exact (decodePayload_named hdecoded).1
  case engine => exact hengine
  case built => exact hbuilt
  case members => exact of_decide_eq_true hmembers
  case entries =>
    intro id entry hentry
    have hprecedes := hentries id entry hentry
    simp only [VersionPayload.precedes, Bool.and_eq_true, decide_eq_true_eq, Option.all_eq_true]
      at hprecedes
    exact hprecedes

variable {name : IndexIdentity} {found : PublishedIndex M P}

omit [ProvenanceReference P] [SerdeJson] [Unicode] in
/-- What an engine ranks of its members becomes as many hits. -/
theorem PublishedIndex.Checked.hits {F : Type} (h : found.Checked name) {k : Nat}
    {ranked : List (M × F)} (hranks : Ranks found.engine.memberIds k ranked) :
    QueryEnds found k (found.hits ranked) ∧
      ∀ hits, found.hits ranked = .ok hits → hits.length = ranked.length := by
  have hmembers (entry : M × F) (hentry : entry ∈ ranked) : entry.1 ∈ found.members := by
    have hranked := hranks.among entry hentry
    rw [h.members, Std.ExtTreeMap.mem_keys] at hranked
    exact hranked
  obtain ⟨hits, hok, hpaired, hattributed⟩ := PublishedIndex.hits_total hmembers
  have hids : hits.map IndexHit.id = ranked.map Prod.fst := by
    rw [← hpaired, List.map_map]
    rfl
  have hlength : hits.length = ranked.length := by simpa using congrArg List.length hids
  rw [hok]
  refine ⟨.answered ?_ ?_ hattributed, fun other hother => ?_⟩
  · rw [hlength]
    exact hranks.cut
  · rw [hids]
    exact hranks.distinct
  · cases hother
    exact hlength

omit [ProvenanceReference P] [SerdeJson] [Unicode] in
/-- A vector query that is answered has as many hits as were asked for, or all members. -/
theorem PublishedIndex.Checked.queryVector [VectorMath] (h : found.Checked name)
    (vector : List F32) (k : Nat) : QueryEnds found k (found.queryVector vector k) ∧
      ∀ hits, found.queryVector vector k = .ok hits → hits.length = min k found.members.size := by
  cases hengine : found.engine with
  | fts texts =>
    rw [PublishedIndex.queryVector, hengine]
    refine ⟨.refused (.inl rfl), fun hits hanswered => ?_⟩
    cases hanswered
  | vector graph =>
    have hsound := h.engine
    have hmembers := h.members
    rw [hengine] at hsound hmembers
    have hsize : graph.memberIds.length = found.members.size := by
      rw [show graph.memberIds = found.members.keys from hmembers, Std.ExtTreeMap.length_keys]
    rw [PublishedIndex.queryVector, hengine]
    rcases graph_ranks hsound vector k with ⟨ranked, hok, hranks, hcount⟩ | ⟨e, hrefused, hinput⟩
    · simp only [hok, Outcome.ok_bind]
      have hranked : Ranks found.engine.memberIds k ranked := hengine ▸ hranks
      obtain ⟨hends, hlength⟩ := h.hits hranked
      refine ⟨hends, fun hits hanswered => ?_⟩
      rw [hlength hits hanswered, hcount, hsize]
    · simp only [hrefused, Outcome.refuse_bind]
      refine ⟨.refused hinput, fun hits hanswered => ?_⟩
      cases hanswered

omit [ProvenanceReference P] [SerdeJson] in
theorem PublishedIndex.Checked.queryText {F : Type} [ScoreArith F] (h : found.Checked name)
    (text : Str) (k : Nat) : QueryEnds (F := F) found k (found.queryText text k) := by
  cases hengine : found.engine with
  | vector graph =>
    rw [PublishedIndex.queryText, hengine]
    exact .refused (.inl rfl)
  | fts texts =>
    rw [PublishedIndex.queryText, hengine]
    have hrank : (∃ ranked : List (M × F), texts.query text k = .ok ranked ∧ _) ∨ _ :=
      texts_rank text k
    rcases hrank with ⟨ranked, hok, hranks⟩ | ⟨e, herror, hinput⟩
    · simp only [hok, Outcome.ofResult_ok, Outcome.ok_bind]
      exact (h.hits (hengine ▸ hranks)).1
    · simp only [herror, Outcome.ofResult_error, Outcome.refuse_bind]
      exact .refused hinput

/-! ## Beside any programs, on any backend -/

/-- A reader that is given an index was given a checked one. -/
theorem index_checked {σ : Type} {acts : Acts Call.Reply HeuremaError σ}
    {starts : Driver Unit → Prop} {pool last : Pool Call.Reply HeuremaError σ Unit}
    {calls : List (Σ call : Call, Except HeuremaError call.Reply)}
    (h : Pool.Beside acts starts (Driver.index R name) pool calls (.ok found) last) :
    found.Checked name := by
  unfold Driver.index at h
  obtain ⟨head, rest, pool', rfl, hdecode⟩ := h.of_perform
  cases head with
  | none => cases hdecode.of_done.2
  | some bytes =>
    cases hdecoded : (decodeHead bytes name : Run (IndexRecord R)) with
    | error failure =>
      simp only [hdecoded] at hdecode
      cases hdecode.of_done.2
    | ok record =>
      simp only [hdecoded, Program.lift_ok] at hdecode
      cases hstate : record.state with
      | destroyed version retention key =>
        simp only [hstate] at hdecode
        cases hdecode.of_done.2
      | active version =>
        simp only [hstate] at hdecode
        rcases hdecode.of_bind with hfailed | hread
        · obtain ⟨failure, -, hfailure⟩ := hfailed
          cases hfailure
        · obtain ⟨first, second, payload, middle, rfl, hpayload, hreturned⟩ := hread
          cases payload with
          | none => cases hreturned.of_done.2
          | some payload =>
            cases hreturned.of_done.2
            obtain ⟨stored, -, hactive⟩ := activePayload_grounded hpayload
            exact decodeActive_checked hactive

end Payloads

section Readers

variable (M P R F : Type) [MemberIdentity M] [ProvenanceReference P] [RetentionReference R]
  [SerdeJson] [Unicode] [VectorMath] [ScoreArith F]

/-- Whatever a backend answers and whatever runs beside it, a reader that is given an index is
given one that it can query. -/
def ReadsChecked : Prop :=
  ∀ {σ : Type} (acts : Acts Call.Reply HeuremaError σ) (starts : Driver Unit → Prop)
    (pool last : Pool Call.Reply HeuremaError σ Unit) calls name (found : PublishedIndex M P),
    Pool.Beside acts starts (Driver.index R name) pool calls (.ok found) last →
    found.Checked name ∧
      (∀ vector k, QueryEnds found k (found.queryVector vector k) ∧
        ∀ hits, found.queryVector vector k = .ok hits → hits.length = min k found.members.size) ∧
      ∀ text k, QueryEnds (F := F) found k (found.queryText text k)

/-- What decodes can be read, whoever wrote it. -/
theorem reads_checked : ReadsChecked M P R F := by
  intro σ acts starts pool last calls name found h
  have hchecked := index_checked h
  exact ⟨hchecked, hchecked.queryVector, hchecked.queryText⟩

end Readers

end Heurema
