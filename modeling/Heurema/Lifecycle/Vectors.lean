import Heurema.Hnsw.Query
import Heurema.Lifecycle.Published

/-! # Vector queries on published versions

A history leaves the content that was last written under each identity. A vector version holds
exactly these contents, so a query on it returns the nearest of them, and a scan of them all
whenever its budget covers them. -/

namespace Heurema

open Serde Hnsw Digest

open Outcome (refuse)

/-! ## The contents an index stands for -/

section Contents

variable {M P R : Type} [LinearOrder M]

/-- What a change does to the contents: an insertion writes each, a removal deletes, a rebuild
replaces them all. -/
def IndexChange.contents (contents : BTreeMap M MemberContent) :
    IndexChange M P R → BTreeMap M MemberContent
  | .create _ => contents
  | .insert members =>
    members.foldl (fun contents member => contents.insert member.id member.content) contents
  | .remove ids => ids.foldl (·.erase ·) contents
  | .rebuild _ members =>
    members.foldl (fun contents member => contents.insert member.id member.content) ∅
  | .destroy _ => ∅

/-- A change does to the contents what it does to each identity. -/
theorem IndexChange.getElem?_contents {change : IndexChange M P R} (hids : change.ids.Nodup)
    (contents : BTreeMap M MemberContent) (id : M) :
    (change.contents contents)[id]? = match change.effect id with
      | none => contents[id]?
      | some none => none
      | some (some member) => some member.content := by
  cases change with
  | create config => rfl
  | insert members =>
    rw [IndexChange.contents, BTreeMap.getElem?_foldl_insert IndexMember.content hids, IndexChange.effect]
    cases members.find? (·.id = id) <;> rfl
  | remove ids =>
    rw [IndexChange.contents, IndexChange.effect, getElem?_foldl_erase]
    split <;> rfl
  | rebuild config members =>
    rw [IndexChange.contents, BTreeMap.getElem?_foldl_insert IndexMember.content hids, IndexChange.effect]
    cases members.find? (·.id = id) <;> simp
  | destroy retention => simp [IndexChange.contents, IndexChange.effect]

end Contents

/-- The vector of a content. -/
def MemberContent.components : MemberContent → Option (List F32)
  | vector components => some components
  | document _ => none

section Scans

variable {Id : Type} [LinearOrder Id] [VectorMath]

/-- The public score of a vector. -/
def publicScore (config : HnswConfig) (vector components : List F32) : F32 :=
  VectorMath.narrow (VectorMath.distance config.distance vector components)

/-- Every vector scored, best first, cut to `k`. -/
def scan (config : HnswConfig) (members : BTreeMap Id (List F32)) (vector : List F32) (k : Nat) :
    List (Id × F32) :=
  ((members.toList.map fun member => (member.1, publicScore config vector member.2)).insertionSort
    HnswIndex.ranksBefore).take k

variable {index : HnswIndex Id} {vector : List F32}

/-- Scoring every live node is scoring its vectors. -/
theorem scores_vectors (index : HnswIndex Id) (vector : List F32) :
    scores index vector index.memberIds =
      (vectors index.nodes).toList.map fun member =>
        (member.1, publicScore index.config vector member.2) := by
  have hkeys : index.memberIds = index.nodes.toList.map Prod.fst :=
    (Std.ExtTreeMap.map_fst_toList_eq_keys).symm
  rw [scores, hkeys, List.filterMap_map, vectors, Std.ExtTreeMap.toList_map, List.map_map,
    ← List.filterMap_eq_map]
  refine List.filterMap_congr fun entry hentry => ?_
  have hnode : index.nodes[entry.1]? = some entry.2 := BTreeMap.mem_toList.mp hentry
  simp only [Function.comp_apply, hnode, Option.map_some]
  rfl

/-- The nearest of some vectors, as a query answers: as many as there can be, distinct, best
first, each with its own score, and all there are where the budget of the query covers them. -/
structure Nearest (config : HnswConfig) (members : BTreeMap Id (List F32)) (vector : List F32)
    (k : Nat) (results : List (Id × F32)) : Prop where
  length : results.length = min k members.size
  distinct : (results.map Prod.fst).Nodup
  scored : ∀ id score, (id, score) ∈ results → ∃ components, members[id]? = some components ∧
    score = publicScore config vector components
  sorted : results.Pairwise HnswIndex.ranksBefore
  exact : members.size < usizeLimit → members.size ≤ max (max k (8 * config.mNeighbours)) 1 →
    results = scan config members vector k

/-- The best of distinct live nodes, of which there are enough, are the nearest. -/
theorem nearest_of_found {found : List Id} {k : Nat} (hsub : found.Subperm index.memberIds)
    (hcount : 0 < k → min (index.queryBeam k) index.len ≤ found.length) :
    Nearest index.config (vectors index.nodes) vector k
      (((scores index vector found).insertionSort HnswIndex.ranksBefore).take k) := by
  have hlive : ∀ id ∈ found, id ∈ index.nodes := fun id hid => by
    simpa [HnswIndex.memberIds] using hsub.subset hid
  have hids := scores_ids vector hlive
  have hsize : (vectors index.nodes).size = index.len := by simp [vectors, HnswIndex.len]
  have hlength : (scores index vector found).length = found.length := by
    rw [← List.length_map Prod.fst, hids]
  have hle : found.length ≤ index.len := by
    simpa [HnswIndex.memberIds, HnswIndex.len] using hsub.length_le
  have hperm := List.perm_insertionSort HnswIndex.ranksBefore (scores index vector found)
  have hmembers : index.memberIds.Nodup := (BTreeMap.keys_sorted index.nodes).imp fun h => ne_of_lt h
  constructor
  case length =>
    have hbeam : k ≤ index.queryBeam k := by
      unfold HnswIndex.queryBeam
      omega
    rw [List.length_take, hperm.length_eq, hlength, hsize]
    rcases Nat.eq_zero_or_pos k with rfl | hk
    · omega
    · have := hcount hk
      omega
  case distinct =>
    obtain ⟨ids, hperms, hsublist⟩ := hsub
    have hfound : found.Nodup := hperms.nodup_iff.mp (hmembers.sublist hsublist)
    refine List.Nodup.sublist ((List.take_sublist _ _).map _) ?_
    rwa [(hperm.map Prod.fst).nodup_iff, hids]
  case scored =>
    intro id score hmem
    obtain ⟨-, node, hnode, hscore⟩ := mem_scores.mp (hperm.mem_iff.mp (List.mem_of_mem_take hmem))
    exact ⟨node.vector, by simp [vectors, hnode], hscore⟩
  case sorted => exact (List.pairwise_insertionSort _ _).sublist (List.take_sublist _ _)
  case exact =>
    intro husize hcovers
    rw [hsize] at husize hcovers
    rw [scan, ← scores_vectors]
    rcases Nat.eq_zero_or_pos k with rfl | hk
    · rfl
    · have hfull := len_le_queryBeam husize hcovers
      have henough := hcount hk
      have hall : found.Perm index.memberIds := all_of_length hsub (by omega)
      have hscores : (scores index vector found).Perm (scores index vector index.memberIds) :=
        hall.filterMap _
      rw [sorted_unique hscores]

end Scans

section Readers

variable {M P R : Type} [MemberIdentity M] [ProvenanceReference P] [RetentionReference R]
  [SerdeJson] [Unicode] [Sha256]

/-- The contents a history leaves. -/
def contents : List (Publication M P R) → BTreeMap M MemberContent
  | [] => ∅
  | publication :: log => publication.checked.operation.change.contents (contents log)

/-- The vectors among the contents a history leaves. -/
def memberVectors (log : List (Publication M P R)) : BTreeMap M (List F32) :=
  (contents log).filterMap fun _ content => content.components

/-- What a history leaves is what its operations leave. -/
theorem contents_operations (log : List (Publication M P R)) : contents log =
    (log.map fun publication => publication.checked.operation).foldr
      (fun operation contents => operation.change.contents contents) ∅ := by
  induction log with
  | nil => rfl
  | cons publication log ih =>
    rw [contents, ih]
    rfl

variable [VectorMath] {index : IndexIdentity} {log : List (Publication M P R)}

/-- The engine of a version keeps what was last written under each identity. -/
theorem History.held_contents (h : History index log) (id : M) :
    (currentVersion log).held id = (contents log)[id]?.map MemberContent.held := by
  induction log with
  | nil => simp [currentVersion, Current.held, contents]
  | cons publication log ih =>
    obtain ⟨history, -⟩ := h.published
    have hids := checkChange_nodup publication.checked.change
    rw [h.audited.held, ih history, contents, IndexChange.getElem?_contents hids, IndexChange.held]
    cases publication.checked.operation.change.effect id with
    | none => rfl
    | some effect => cases effect <;> rfl

/-- The vectors of a vector version are those that the history leaves. -/
theorem History.vectors (h : History index log) {record : IndexRecord R}
    {payload : VersionPayload M P} {engine : HnswIndex M}
    (hcurrent : currentVersion log = some (record, payload))
    (hengine : payload.engine = .vector engine) : vectors engine.nodes = memberVectors log := by
  refine BTreeMap.ext_lookup fun id => ?_
  have hheld := h.held_contents id
  rw [hcurrent] at hheld
  have hvector : (Hnsw.vectors engine.nodes)[id]?.map HeldContent.vector =
      (contents log)[id]?.map MemberContent.held := by
    rw [← hheld]
    show _ = payload.engine.held id
    rw [hengine]
    rfl
  rw [memberVectors, Std.ExtTreeMap.getElem?_filterMap, Option.pbind_eq_bind]
  cases hcontent : (contents log)[id]? with
  | none =>
    rw [hcontent] at hvector
    exact Option.map_eq_none_iff.mp hvector
  | some content =>
    rw [hcontent] at hvector
    obtain ⟨components, hcomponents, hsame⟩ := Option.map_eq_some_iff.mp hvector
    cases content with
    | vector stored =>
      cases hsame
      exact hcomponents
    | document text => cases hsame

/-- What a version ranks of its members are hits of the version, each with the provenance of the
last operation that wrote the member. -/
theorem History.hits {F : Type} (h : History index log) {record : IndexRecord R}
    {payload : VersionPayload M P} (hcurrent : currentVersion log = some (record, payload))
    {ranked : List (M × F)} (hmembers : ∀ entry ∈ ranked, entry.1 ∈ payload.members) :
    ∃ hits, (PublishedIndex.fromPayload payload).hits ranked = .ok hits ∧
      (hits.map fun hit => (hit.id, hit.score)) = ranked ∧
      ∀ hit ∈ hits, hit.version = payload.version ∧
        (Heurema.lastWrite log hit.id).map IndexMember.provenance = some hit.provenance := by
  have htotal : ∃ hits, (PublishedIndex.fromPayload payload).hits ranked = .ok hits ∧ _ :=
    PublishedIndex.hits_total hmembers
  obtain ⟨hits, hhits, hpaired, hprovenance⟩ := htotal
  refine ⟨hits, hhits, hpaired, fun hit hmem => ?_⟩
  obtain ⟨hversion, hentry⟩ := hprovenance hit hmem
  obtain ⟨entry, hentry, hsame⟩ := Option.map_eq_some_iff.mp hentry
  refine ⟨hversion, ?_⟩
  rw [← hsame]
  refine h.lastWrite ?_
  rw [memberTable, hcurrent]
  exact hentry

/-- A vector that the engine of a version refuses is refused by its reader. -/
theorem History.unfit (h : History index log) {record : IndexRecord R}
    {payload : VersionPayload M P} (hcurrent : currentVersion log = some (record, payload))
    {config : HnswConfig} (hconfig : payload.config = .vector config) {vector : List F32}
    {e : HeuremaError} (hrefused : checkVector config vector = .error e) (k : Nat) :
    (PublishedIndex.fromPayload payload).queryVector vector k = refuse e := by
  have hsound := h.readable.standing.sound record payload hcurrent
  have hbuilt := VersionEngine.isBuiltUnder_iff.mp hsound.built
  rw [hconfig] at hbuilt
  cases hengine : payload.engine with
  | fts engine =>
    rw [hengine] at hbuilt
    cases hbuilt
  | vector engine =>
    rw [hengine] at hbuilt
    cases hbuilt
    have hpublished : (PublishedIndex.fromPayload payload).engine = .vector engine := hengine
    rw [PublishedIndex.queryVector, hpublished]
    simp only [HnswIndex.query, hrefused]
    rfl

/-- A vector version answers with the nearest of the vectors that its history leaves. -/
theorem History.nearest (h : History index log) {record : IndexRecord R}
    {payload : VersionPayload M P} (hcurrent : currentVersion log = some (record, payload))
    {config : HnswConfig} (hconfig : payload.config = .vector config) {vector : List F32}
    (hvector : checkVector config vector = .ok ())
    (hfinite : ∀ (id : M) (components : List F32), (memberVectors log)[id]? = some components →
      (publicScore config vector components).isFinite = true) (k : Nat) :
    ∃ (ranked : List (M × F32)) (hits : List (IndexHit M P F32)),
      (PublishedIndex.fromPayload payload).queryVector vector k = .ok hits ∧
      (hits.map fun hit => (hit.id, hit.score)) = ranked ∧
      Nearest config (memberVectors log) vector k ranked ∧
      ∀ hit ∈ hits, hit.version = payload.version ∧
        (Heurema.lastWrite log hit.id).map IndexMember.provenance = some hit.provenance := by
  have hsound := h.readable.standing.sound record payload hcurrent
  have hbuilt := VersionEngine.isBuiltUnder_iff.mp hsound.built
  rw [hconfig] at hbuilt
  cases hengine : payload.engine with
  | fts engine =>
    rw [hengine] at hbuilt
    cases hbuilt
  | vector engine =>
    rw [hengine] at hbuilt
    cases hbuilt
    have hinv : Inv engine := by
      have hengineSound := hsound.engine
      rwa [hengine] at hengineSound
    have hvectors := h.vectors hcurrent hengine
    have hrep : Representable engine vector := by
      intro id node hnode
      refine hfinite id node.vector ?_
      rw [← hvectors]
      simp [Hnsw.vectors, hnode]
    obtain ⟨found, hsub, hcount, hquery⟩ := query_spec hinv hvector hrep k
    have hnearest : Nearest engine.config (Hnsw.vectors engine.nodes) vector k _ :=
      nearest_of_found hsub hcount
    rw [hvectors] at hnearest
    -- Every ranked identity has a vector, so the engine holds it and the table names it.
    have hmembers : ∀ entry ∈ ((scores engine vector found).insertionSort
        HnswIndex.ranksBefore).take k, entry.1 ∈ payload.members := by
      intro entry hmem
      obtain ⟨components, hcomponents, -⟩ := hnearest.scored entry.1 entry.2 hmem
      have hheld := VersionEngine.holdsExactly_iff.mp hsound.members entry.1
      rw [hengine, VersionEngine.held, Option.isSome_map, hvectors, hcomponents] at hheld
      exact Std.ExtTreeMap.mem_iff_isSome_getElem?.mpr hheld.symm
    obtain ⟨hits, hhits, hpaired, hprovenance⟩ := h.hits hcurrent hmembers
    refine ⟨_, hits, ?_, hpaired, hnearest, hprovenance⟩
    have hpublished : (PublishedIndex.fromPayload payload).engine = .vector engine := hengine
    rw [PublishedIndex.queryVector, hpublished]
    simp only [hquery, Outcome.ok_bind]
    exact hhits

/-- A published vector version answers with the nearest of the vectors that the operations up to
it leave: as many as there can be, best first, each with its own score, its version and the
provenance of the last operation that wrote the member, and with a scan of them all whenever the
budget of the query covers them. It refuses a vector exactly as its engine does. -/
theorem nearest_members (h : History index log) (upTo : List (Publication M P R))
    (hupTo : upTo <:+ log) (head : Option (IndexRecord R)) (record : IndexRecord R)
    (payload : VersionPayload M P)
    (hread : readCurrent index (headBytes upTo) (payloadBytes upTo) =
      .ok (head, some (record, payload)))
    (config : HnswConfig) (hconfig : payload.config = .vector config) (vector : List F32) (k : Nat) :
    (∀ e, checkVector config vector = .error e →
      (PublishedIndex.fromPayload payload).queryVector vector k = refuse e) ∧
    (checkVector config vector = .ok () →
      (∀ (id : M) (components : List F32), (memberVectors upTo)[id]? = some components →
        (publicScore config vector components).isFinite = true) →
      ∃ (ranked : List (M × F32)) (hits : List (IndexHit M P F32)),
        (PublishedIndex.fromPayload payload).queryVector vector k = .ok hits ∧
        (hits.map fun hit => (hit.id, hit.score)) = ranked ∧
        Nearest config (memberVectors upTo) vector k ranked ∧
        ∀ hit ∈ hits, hit.version = payload.version ∧
          (lastWrite upTo hit.id).map IndexMember.provenance = some hit.provenance) := by
  obtain ⟨_, rfl⟩ := hupTo
  have history := h.suffix
  have hcurrent := history.current_of_read hread
  constructor
  · intro e hrefused
    exact history.unfit hcurrent hconfig hrefused k
  · intro hvector hfinite
    exact history.nearest hcurrent hconfig hvector hfinite k

end Readers

section Witness

attribute [local instance] Consumer.identity Consumer.reference SerdeJson.compact Unicode.ascii
  Consumer.sha256 Line.math

namespace Consumer

/-- Creates an index of points on a line. -/
def pointsCreated : LifecycleOperation Str Str Str where
  index := index
  key := key
  change := .create (.vector Line.config)

/-- Inserts the points 0, 1 and 2. -/
def pointsInserted : LifecycleOperation Str Str Str where
  index := index
  key := inserted.key
  change := .insert [
    ⟨"a".toList, "scan-1".toList, .vector [⟨0x00000000#32⟩]⟩,
    ⟨"b".toList, "scan-2".toList, .vector [⟨0x3f800000#32⟩]⟩,
    ⟨"c".toList, "scan-3".toList, .vector [⟨0x40000000#32⟩]⟩]

theorem pointsCreated_checked :
    ∃ checked : CheckedOperation Str Str Str, checked.operation = pointsCreated :=
  exists_checked pointsCreated rfl rfl rfl

theorem pointsInserted_checked :
    ∃ checked : CheckedOperation Str Str Str, checked.operation = pointsInserted := by
  refine exists_checked pointsInserted ?_ rfl ?_
  · have hids : checkMemberIdentities ["a".toList, "b".toList, "c".toList] = .ok () :=
      checkMemberIdentities_text (by decide) (by decide)
    show (do
      checkMemberIdentities ["a".toList, "b".toList, "c".toList]
      _) = _
    rw [hids]
    rfl
  · refine Outcome.checkEach_eq_ok.mpr fun member _ => Outcome.mapError_eq_ok.mpr ?_
    exact jsonRoundTrip_of_stores ((Stores.str member.provenance).mono (Nat.zero_le _))

/-- The points are published. -/
theorem pointsHistory : ∃ (log : List (Publication Str Str Str)) (record : IndexRecord Str)
    (payload : VersionPayload Str Str), History Consumer.index log ∧
    (log.map fun publication => publication.checked.operation) = [pointsInserted, pointsCreated] ∧
    currentVersion log = some (record, payload) ∧ payload.config = .vector Line.config := by
  obtain ⟨create, hcreate⟩ := pointsCreated_checked
  obtain ⟨insert, hinsert⟩ := pointsInserted_checked
  have hindex : create.operation.index = Consumer.index := hcreate ▸ rfl
  have hchange : create.operation.change = .create (.vector Line.config) := hcreate ▸ rfl
  obtain ⟨first, hfirst, history, record, payload, hcurrent, hconfig, hengine⟩ :=
    History.start hindex hchange
  have hindex' : insert.operation.index = Consumer.index := hinsert ▸ rfl
  obtain ⟨second, hsecond, history⟩ := history.extend_active hcurrent (by simp; decide)
    hindex' (by simp [hfirst, hcreate, hinsert]; decide)
    (by rw [hinsert, hconfig]; rfl) (by rw [hinsert]; rfl)
    (by rw [hinsert, hengine]; decide +kernel)
  obtain ⟨record', payload', hcurrent', hconfig'⟩ := history.published.2.active (by
    rw [hsecond, hinsert]
    exact fun retention heq => by cases heq)
  rw [hsecond, hinsert, hcurrent] at hconfig'
  refine ⟨_, record', payload', history, by simp [hfirst, hsecond, hcreate, hinsert], hcurrent', ?_⟩
  exact (Option.some.inj hconfig').trans hconfig

end Consumer

theorem nearest_members_points : ∃ (log : List (Publication Str Str Str))
    (payload : VersionPayload Str Str) (hits : List (IndexHit Str Str F32)),
    (log.map fun publication => publication.checked.operation) =
      [Consumer.pointsInserted, Consumer.pointsCreated] ∧
    (PublishedIndex.fromPayload payload).queryVector [⟨0x3f800000#32⟩] 2 = .ok hits ∧
    hits.length = 2 ∧
    (hits.map fun hit => (hit.id, hit.score)) =
      scan Line.config (memberVectors log) [⟨0x3f800000#32⟩] 2 := by
  obtain ⟨log, record, payload, history, hoperations, hcurrent, hconfig⟩ := Consumer.pointsHistory
  have hread := history.readable.read
  rw [hcurrent] at hread
  have hfinite (distance : F64) : (VectorMath.narrow distance).isFinite = true := by
    unfold VectorMath.narrow Line.math
    dsimp only
    split
    · rfl
    · split <;> rfl
  obtain ⟨ranked, hits, hhits, hpaired, hnearest, -⟩ :=
    (nearest_members history log (List.suffix_refl log) _ _ _ hread Line.config hconfig
      [⟨0x3f800000#32⟩] 2).2 (by decide) fun _ _ _ => hfinite _
  have hsize : (memberVectors log).size = 3 := by
    rw [memberVectors, contents_operations, hoperations]
    decide +kernel
  refine ⟨log, payload, hits, hoperations, hhits, ?_, ?_⟩
  · have hlength := hnearest.length
    rw [← hpaired, List.length_map, hsize] at hlength
    exact hlength
  · rw [hpaired]
    exact hnearest.exact (by rw [hsize]; decide) (by rw [hsize]; decide)

end Witness

end Heurema
