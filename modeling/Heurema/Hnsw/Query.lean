import Heurema.Hnsw.Runs

/-! # Queries

The base layer is connected by its backbone, so the beam search of a query finds
as many nodes as its budget allows; a budget that covers the index finds them
all, and the query answers as a scan would. -/

namespace Heurema.Hnsw

open Outcome (Ensures)

variable {Id : Type} [LinearOrder Id] {index : HnswIndex Id} {nodes : Nodes Id} {budget k : Nat}
  {vector : List F32} {x : Id}

/-! ## The public order -/

section Order

theorem ranksBefore_iff {left right : Id × F32} : HnswIndex.ranksBefore left right ↔
    toLex (left.2, left.1) ≤ toLex (right.2, right.1) := by
  rw [HnswIndex.ranksBefore, Prod.Lex.toLex_le_toLex]

instance : IsTrans (Id × F32) HnswIndex.ranksBefore :=
  ⟨fun _ _ _ h h' => ranksBefore_iff.mpr ((ranksBefore_iff.mp h).trans (ranksBefore_iff.mp h'))⟩

instance : Std.Total (HnswIndex.ranksBefore : Id × F32 → Id × F32 → Prop) :=
  ⟨fun _ _ => by simp only [ranksBefore_iff]; exact le_total _ _⟩

instance : Std.Antisymm (HnswIndex.ranksBefore : Id × F32 → Id × F32 → Prop) :=
  ⟨fun a b h h' => by
    have heq := le_antisymm (ranksBefore_iff.mp h) (ranksBefore_iff.mp h')
    have := toLex.injective heq
    exact Prod.ext (congrArg Prod.snd this) (congrArg Prod.fst this)⟩

/-- Sorting forgets the order of its input. -/
theorem sorted_unique {scored scored' : List (Id × F32)} (h : scored.Perm scored') :
    scored.insertionSort HnswIndex.ranksBefore = scored'.insertionSort HnswIndex.ranksBefore :=
  (((List.perm_insertionSort _ scored).trans h).trans
    (List.perm_insertionSort _ scored').symm).eq_of_pairwise'
    (List.pairwise_insertionSort _ scored) (List.pairwise_insertionSort _ scored')

end Order

/-! ## What the search finds -/

variable {config : HnswConfig} {found : List Id}

/-- A search that did not spend its budget found every node. -/
theorem Expanded.all_or_spent (h : Expanded nodes 0 x budget found) (hgraph : GraphOk config nodes)
    (hx : x ∈ nodes) : found.length = budget ∨ ∀ y, y ∈ nodes → y ∈ found := by
  refine h.exhausted.imp_right fun ⟨hstart, hclosed⟩ y hy => ?_
  have hpath := hgraph.backbone.connected (backbones_mem.mpr hx) (backbones_mem.mpr hy)
  clear hy
  induction hpath with
  | refl => exact hstart
  | @tail y z _ hstep ih =>
    -- Every node reaches the base layer, where a search also goes along the backbone.
    obtain ⟨node, hnode⟩ := mem_nodes.mp (backbones_mem.mp hstep.mem)
    have hreach : Reaches nodes 0 y := ((hgraph.shape hnode).reaches hnode).mpr (Nat.zero_le _)
    obtain ⟨node', links, hnode', hlinks, -⟩ := hreach.links
    have hbone : z ∈ node'.backbone :=
      (Cycle.edge_iff (by rw [backbones_lookup, hnode', Option.map_some])).mp hstep
    exact hclosed y z ih ⟨node', links, hnode', hlinks, mem_onward.mpr (.inr ⟨rfl, hbone⟩)⟩

theorem Expanded.subperm (h : Expanded nodes 0 x budget found) : found.Subperm nodes.keys :=
  List.subperm_of_subset h.unique fun y hy => by simpa using (h.reaches y hy).mem

theorem Expanded.length_ge (h : Expanded nodes 0 x budget found) (hgraph : GraphOk config nodes)
    (hx : x ∈ nodes) : min budget nodes.size ≤ found.length := by
  rcases h.all_or_spent hgraph hx with hspent | hall
  · omega
  · have hkeys : nodes.keys.Nodup := (BTreeMap.keys_sorted nodes).imp fun h => ne_of_lt h
    have hsub : nodes.keys.Subperm found :=
      List.subperm_of_subset hkeys fun y hy => hall y (by simpa using hy)
    have hle := hsub.length_le
    simp only [Std.ExtTreeMap.length_keys] at hle
    omega

/-- Nodes that are not fewer than the index holds are all it holds. -/
theorem all_of_length {found : List Id} (hsub : found.Subperm index.memberIds)
    (h : index.len ≤ found.length) : found.Perm index.memberIds := by
  refine hsub.perm_of_length_le ?_
  simpa [HnswIndex.memberIds, HnswIndex.len] using h

/-- The budget of a query covers an index this small; the length of a map is a `usize`. -/
theorem len_le_queryBeam (husize : index.len < usizeLimit)
    (hcovers : index.len ≤ max (max k (8 * index.config.mNeighbours)) 1) :
    index.len ≤ index.queryBeam k := by
  unfold HnswIndex.queryBeam saturatingMul
  omega

section Scores

variable [VectorMath]

/-- The public score of each of some nodes. -/
def scores (index : HnswIndex Id) (vector : List F32) (ids : List Id) : List (Id × F32) :=
  ids.filterMap fun id => index.nodes[id]?.map fun node =>
    (id, VectorMath.narrow (VectorMath.distance index.config.distance vector node.vector))

/-- Every live node, best first, cut to `k`. -/
def bruteForce (index : HnswIndex Id) (vector : List F32) (k : Nat) : List (Id × F32) :=
  ((scores index vector index.memberIds).insertionSort HnswIndex.ranksBefore).take k

/-- Every live node's distance can be returned. -/
def Representable (index : HnswIndex Id) (vector : List F32) : Prop :=
  ∀ {id : Id} {node : Node Id}, index.nodes[id]? = some node →
    (VectorMath.narrow (VectorMath.distance index.config.distance vector node.vector)).isFinite = true

theorem scores_ids (vector : List F32) {ids : List Id} (h : ∀ id ∈ ids, id ∈ index.nodes) :
    (scores index vector ids).map Prod.fst = ids := by
  induction ids with
  | nil => rfl
  | cons id ids ih =>
    obtain ⟨node, hnode⟩ := mem_nodes.mp (h id (by simp))
    have hrest := ih fun other hother => h other (List.mem_cons_of_mem _ hother)
    rw [scores, List.filterMap_cons, hnode, Option.map_some, List.map_cons]
    exact congrArg _ hrest

theorem mem_scores {vector : List F32} {ids : List Id} {id : Id} {score : F32} :
    (id, score) ∈ scores index vector ids ↔ id ∈ ids ∧ ∃ node, index.nodes[id]? = some node ∧
      score = VectorMath.narrow (VectorMath.distance index.config.distance vector node.vector) := by
  simp only [scores, List.mem_filterMap, Option.map_eq_some_iff, Prod.mk.injEq]
  constructor
  · rintro ⟨id', hid', node, hnode, rfl, rfl⟩
    exact ⟨hid', node, hnode, rfl⟩
  · rintro ⟨hid, node, hnode, rfl⟩
    exact ⟨id, hid, node, hnode, rfl, rfl⟩

/-- The distances of the nodes a search found. -/
def candidates (index : HnswIndex Id) (vector : List F32) (found : List Id) : List (Id × F64) :=
  found.filterMap fun id =>
    (nodeDistance index.config index.nodes vector id).map fun distance => (id, distance)

/-- Scoring takes every candidate, or stops at one that cannot be returned. -/
theorem mapM_score (vector : List F32) (found : List Id) :
    (candidates index vector found).mapM HnswIndex.score = .ok (scores index vector found) ∧
        (∀ entry ∈ scores index vector found, entry.2.isFinite = true) ∨
      (∃ reason, (candidates index vector found).mapM HnswIndex.score =
        .error (.distanceNotRepresentable reason)) ∧
        ∃ entry ∈ scores index vector found, entry.2.isFinite = false := by
  induction found with
  | nil => exact .inl ⟨rfl, by simp [scores]⟩
  | cons id found ih =>
    rw [candidates, scores, List.filterMap_cons, List.filterMap_cons, nodeDistance]
    cases hnode : index.nodes[id]? with
    | none => exact ih
    | some node =>
      set distance := VectorMath.distance index.config.distance vector node.vector with hdistance
      simp only [Option.map_some, List.mapM_cons]
      cases hfinite : (VectorMath.narrow distance).isFinite with
      | false =>
        have hscore : HnswIndex.score (id, distance) = .error (.distanceNotRepresentable
            (VectorMath.display distance ++ " cannot be returned by VectorIndex::query")) :=
          if_neg (by simp [hfinite])
        refine .inr ⟨⟨_, by rw [hscore]; rfl⟩, (id, VectorMath.narrow distance), List.mem_cons_self,
          hfinite⟩
      | true =>
        rw [HnswIndex.score, if_pos hfinite, Outcome.ok_bind]
        rcases ih with ⟨hok, hall⟩ | ⟨⟨reason, herror⟩, entry, hmem, hentry⟩
        · refine .inl ⟨?_, List.forall_mem_cons.mpr ⟨hfinite, hall⟩⟩
          rw [candidates] at hok
          rw [hok]
          rfl
        · refine .inr ⟨⟨reason, ?_⟩, entry, List.mem_cons_of_mem _ hmem, hentry⟩
          rw [candidates] at herror
          rw [herror]
          rfl

/-- The candidates of a query: what its descent and its beam search find. -/
def searched (index : HnswIndex Id) (vector : List F32) (k : Nat) : List Id :=
  match index.entryPoint with
  | none => []
  | some entry =>
    let found : Run (List Id) := do
      let entry ← HnswIndex.descend index.config index.nodes vector (index.queryBeam k) 0 index.maxLevel entry
      searchLayer index.config index.nodes vector [entry] 0 (index.queryBeam k) (index.queryBeam k)
    found.toOption.getD []

/-- The search of a query returns, from an entry that reaches the base layer. -/
theorem searched_spec (h : Inv index) (hne : ¬ index.nodes.isEmpty) (vector : List F32) (k : Nat) :
    ∃ entry base, index.entryPoint = some entry ∧ Reaches index.nodes 0 base ∧
      HnswIndex.descend index.config index.nodes vector (index.queryBeam k) 0 index.maxLevel entry =
        .ok base ∧
      searchLayer index.config index.nodes vector [base] 0 (index.queryBeam k) (index.queryBeam k) =
        .ok (searched index vector k) ∧
      Expanded index.nodes 0 base (index.queryBeam k) (searched index vector k) := by
  obtain ⟨x, hx⟩ : ∃ x, x ∈ index.nodes := by
    by_contra hno
    have hempty : index.nodes = ∅ := BTreeMap.eq_empty_iff.mpr (by simpa using hno)
    simp [hempty] at hne
  obtain ⟨entry, hentry, htops⟩ := exists_tops hx
  rw [← h.entryPoint] at hentry
  have hreach : Reaches index.nodes index.maxLevel entry := by
    obtain ⟨node, hnode, hlevel⟩ := htops.reached
    rw [h.maxLevel]
    exact ((h.shape hnode).reaches hnode).mpr hlevel.ge
  have hdescend : Ensures (HnswIndex.descend index.config index.nodes vector (index.queryBeam k) 0
      index.maxLevel entry) (Reaches index.nodes (min 0 index.maxLevel)) :=
    descend_spec h.toGraphOk.closed h.toGraphOk.reaches_down (index.queryBeam k) 0 hreach
  obtain ⟨base, hbase, hbaseReach⟩ := hdescend
  rw [Nat.zero_min] at hbaseReach
  have hsearch : Ensures (searchLayer index.config index.nodes vector [base] 0
      (index.queryBeam k) (index.queryBeam k)) (Expanded index.nodes 0 base (index.queryBeam k)) :=
    searchLayer_spec (h.toGraphOk.closed 0) hbaseReach (index.queryBeam k)
  obtain ⟨found, hfound, hexpanded⟩ := hsearch
  have hsearched : searched index vector k = found := by
    simp [searched, hentry, hbase, hfound, Except.toOption]
  exact ⟨entry, base, hentry, hbaseReach, hbase, hsearched ▸ hfound, hsearched ▸ hexpanded⟩

theorem searched_empty (h : Inv index) (hempty : index.nodes.isEmpty) :
    searched index vector k = [] := by
  have hnodes : index.nodes = ∅ := by simpa using hempty
  have hentry : index.entryPoint = none := by
    rw [h.entryPoint, hnodes]
    simp [selectEntry]
  rw [searched, hentry]

/-- The candidates are distinct live nodes. -/
theorem searched_subperm (h : Inv index) :
    (searched index vector k).Subperm index.memberIds := by
  by_cases hempty : index.nodes.isEmpty
  · rw [searched_empty h hempty]
    exact List.nil_subperm
  · obtain ⟨_, _, -, -, -, -, hexpanded⟩ := searched_spec h hempty vector k
    exact hexpanded.subperm

theorem searched_length (h : Inv index) :
    min (index.queryBeam k) index.len ≤ (searched index vector k).length := by
  by_cases hempty : index.nodes.isEmpty
  · have hnodes : index.nodes = ∅ := by simpa using hempty
    simp [HnswIndex.len, hnodes]
  · obtain ⟨_, _, -, hreach, -, -, hexpanded⟩ := searched_spec h hempty vector k
    exact hexpanded.length_ge h.toGraphOk hreach.mem

/-- A query for something in an index that holds something scores its candidates. -/
theorem query_searched (h : Inv index) (hvector : checkVector index.config vector = .ok ())
    (hk : 0 < k) (hne : ¬ index.nodes.isEmpty) : index.query vector k =
      (do
        let results ← Outcome.ofResult
          ((candidates index vector (searched index vector k)).mapM HnswIndex.score)
        return (results.insertionSort HnswIndex.ranksBefore).take k) := by
  obtain ⟨entry, base, hentry, -, hbase, hfound, -⟩ := searched_spec h hne vector k
  unfold HnswIndex.query
  rw [hvector, Outcome.ofResult_ok, Outcome.ok_bind, if_neg (by simp [hk.ne', hne]), hentry]
  simp only [hbase, hfound, Outcome.ok_bind]
  rfl

/-- A query finds as many nodes as its budget allows, and scores what it found. -/
theorem query_found (h : Inv index) (hvector : checkVector index.config vector = .ok ())
    (k : Nat) : ∃ found, found.Subperm index.memberIds ∧
      (0 < k → min (index.queryBeam k) index.len ≤ found.length) ∧ index.query vector k =
        (do
          let results ← Outcome.ofResult ((candidates index vector found).mapM HnswIndex.score)
          return (results.insertionSort HnswIndex.ranksBefore).take k) := by
  by_cases hnone : k = 0 ∨ index.nodes.isEmpty
  · refine ⟨[], List.nil_subperm, fun hk => ?_, ?_⟩
    · have hempty : index.nodes = ∅ := by simpa [Nat.pos_iff_ne_zero.mp hk] using hnone
      simp [HnswIndex.len, hempty]
    · unfold HnswIndex.query
      rw [hvector, Outcome.ofResult_ok, Outcome.ok_bind, if_pos hnone]
      simp [candidates]
  · obtain ⟨hk, hne⟩ := not_or.mp hnone
    exact ⟨_, searched_subperm h, fun _ => searched_length h,
      query_searched h hvector (Nat.pos_of_ne_zero hk) hne⟩

/-- A query returns the best of what its search found. -/
theorem query_spec (h : Inv index) (hvector : checkVector index.config vector = .ok ())
    (hrep : Representable index vector) (k : Nat) : ∃ found, found.Subperm index.memberIds ∧
      (0 < k → min (index.queryBeam k) index.len ≤ found.length) ∧ index.query vector k =
        .ok (((scores index vector found).insertionSort HnswIndex.ranksBefore).take k) := by
  obtain ⟨found, hsub, hcount, hquery⟩ := query_found h hvector k
  refine ⟨found, hsub, hcount, ?_⟩
  rcases mapM_score vector found with ⟨hscores, -⟩ | ⟨-, ⟨id, score⟩, hmem, hinfinite⟩
  · rw [hquery, hscores, Outcome.ofResult_ok, Outcome.ok_bind, Outcome.pure_eq]
  · obtain ⟨-, node, hnode, rfl⟩ := mem_scores.mp hmem
    rw [hrep hnode] at hinfinite
    cases hinfinite

/-- The answer of a query on a reachable index: as many entries as there can be,
of distinct live nodes with their own scores, best first; and the answer of a
scan whenever the budget covers the index. -/
theorem query_exact (h : Reachable index) (hvector : checkVector index.config vector = .ok ())
    (hrep : Representable index vector) (k : Nat) : ∃ results,
      index.query vector k = .ok results ∧
      results.length = min k index.len ∧
      (results.map Prod.fst).Nodup ∧
      (∀ id score, (id, score) ∈ results → ∃ node, index.nodes[id]? = some node ∧
        score = VectorMath.narrow (VectorMath.distance index.config.distance vector node.vector)) ∧
      results.Pairwise HnswIndex.ranksBefore ∧
      -- The length of a map is a `usize`.
      (index.len < usizeLimit → index.len ≤ max (max k (8 * index.config.mNeighbours)) 1 →
        results = bruteForce index vector k) := by
  obtain ⟨found, hsub, hcount, hquery⟩ := query_spec h.inv hvector hrep k
  have hlive : ∀ id ∈ found, id ∈ index.nodes := fun id hid => by
    simpa [HnswIndex.memberIds] using hsub.subset hid
  have hids := scores_ids vector hlive
  have hlen : (scores index vector found).length = found.length := by
    rw [← List.length_map Prod.fst, hids]
  have hle : found.length ≤ index.len := by
    simpa [HnswIndex.memberIds, HnswIndex.len] using hsub.length_le
  have hperm := List.perm_insertionSort HnswIndex.ranksBefore (scores index vector found)
  have hmembers : index.memberIds.Nodup := (BTreeMap.keys_sorted index.nodes).imp fun h => ne_of_lt h
  refine ⟨_, hquery, ?_, ?_, fun id score hmem => ?_, ?_, fun husize hcovers => ?_⟩
  · have hbeam : k ≤ index.queryBeam k := by
      unfold HnswIndex.queryBeam
      omega
    rw [List.length_take, hperm.length_eq, hlen]
    rcases Nat.eq_zero_or_pos k with rfl | hk
    · omega
    · have := hcount hk
      omega
  · have hnodup : (((scores index vector found).insertionSort HnswIndex.ranksBefore).map
        Prod.fst).Nodup := by
      rw [(hperm.map Prod.fst).nodup_iff, hids]
      obtain ⟨ids, hids, hsublist⟩ := hsub
      exact hids.nodup_iff.mp (hmembers.sublist hsublist)
    exact hnodup.sublist ((List.take_sublist _ _).map _)
  · have := hperm.mem_iff.mp (List.mem_of_mem_take hmem)
    exact (mem_scores.mp this).2
  · exact (List.pairwise_insertionSort _ _).sublist (List.take_sublist _ _)
  · rcases Nat.eq_zero_or_pos k with rfl | hk
    · simp [bruteForce]
    · have hfull := len_le_queryBeam husize hcovers
      have hall : found.Perm index.memberIds := by
        have := hcount hk
        exact all_of_length hsub (by omega)
      have hscores : (scores index vector found).Perm (scores index vector index.memberIds) :=
        hall.filterMap _
      rw [bruteForce, sorted_unique hscores]

end Scores

theorem query_exact_line : ∃ index : HnswIndex Nat, index.len = 3 ∧ ∃ results,
    @HnswIndex.query Nat _ Line.math index [⟨0x00000000#32⟩] 2 = .ok results ∧
    results.length = 2 ∧ results = @bruteForce Nat _ Line.math index [⟨0x00000000#32⟩] 2 := by
  obtain ⟨index, hreach, hconfig, hlen⟩ := Line.exists_reachable
  have hfinite (distance : F64) : (@VectorMath.narrow Line.math distance).isFinite = true := by
    unfold VectorMath.narrow Line.math
    dsimp only
    split
    · rfl
    · split <;> rfl
  have hrep : @Representable Nat _ Line.math index [⟨0x00000000#32⟩] := fun _ => hfinite _
  obtain ⟨results, hquery, hlength, -, -, -, hexact⟩ :=
    @query_exact Nat _ index [⟨0x00000000#32⟩] Line.math hreach (by rw [hconfig]; decide) hrep 2
  refine ⟨index, hlen, results, hquery, by omega, hexact (by rw [hlen]; decide) ?_⟩
  rw [hlen, hconfig]
  decide

end Heurema.Hnsw
