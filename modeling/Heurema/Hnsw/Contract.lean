import Heurema.Data.Ranking
import Heurema.Hnsw.Metric
import Heurema.Hnsw.Query

/-! # The ranking contract

The ranking contract of a query asks that equal scores stand by ascending id,
the cut to `k` included. The comparator tells the two zeros apart and a caller
does not; they are the one way a query misses the contract. A score that cannot
be returned is looked for in the whole candidate pool, before the cut. -/

namespace Heurema.Hnsw

variable {Id : Type} [LinearOrder Id] {index : HnswIndex Id} {pool results : List (Id × F32)}
  {k : Nat} {vector : List F32}

/-- Equal scores stand by ascending id, among the results and across the cut. -/
structure TiesById (pool results : List (Id × F32)) : Prop where
  returned : results.Pairwise fun x y => x.2.toRat = y.2.toRat → x.1 < y.1
  cut : ∀ last ∈ results.getLast?, ∀ c ∈ pool, c ∉ results → c.2.toRat = last.2.toRat →
    ¬ c.1 < last.1

/-- A candidate at negative zero makes the cut, and one at positive zero has a
smaller id. -/
def ZeroClash (pool : List (Id × F32)) (k : Nat) : Prop :=
  ∃ a ∈ pool, ∃ b ∈ pool, a.1 < b.1 ∧ a.2 = F32.ZERO ∧ b.2 = F32.NEG_ZERO ∧
    (pool.filter fun c => HnswIndex.ranksBefore c b ∧ c ≠ b).length < k

section Pool

/-- The best `k` of a pool. -/
def best (pool : List (Id × F32)) (k : Nat) : List (Id × F32) :=
  (pool.insertionSort HnswIndex.ranksBefore).take k

theorem best_subset {x : Id × F32} (h : x ∈ best pool k) : x ∈ pool :=
  (List.perm_insertionSort _ pool).mem_iff.mp (List.mem_of_mem_take h)

theorem best_sorted (pool : List (Id × F32)) (k : Nat) :
    (best pool k).Pairwise HnswIndex.ranksBefore :=
  (List.pairwise_insertionSort _ pool).sublist (List.take_sublist k _)

/-- What is left out stands behind all that is returned. -/
theorem ranksBefore_of_cut {x c : Id × F32} (hx : x ∈ best pool k) (hc : c ∈ pool)
    (hout : c ∉ best pool k) : HnswIndex.ranksBefore x c := by
  have hmem := (List.perm_insertionSort HnswIndex.ranksBefore pool).mem_iff.mpr hc
  have hsorted := List.pairwise_insertionSort HnswIndex.ranksBefore pool
  rw [← List.take_append_drop k (pool.insertionSort _)] at hmem hsorted
  rcases List.mem_append.mp hmem with hin | hrest
  · exact absurd hin hout
  · exact (List.pairwise_append.mp hsorted).2.2 x hx c hrest

theorem mem_best (hnodup : pool.Nodup) {x : Id × F32} (hx : x ∈ pool) : x ∈ best pool k ↔
    (pool.filter fun c => HnswIndex.ranksBefore c x ∧ c ≠ x).length < k := by
  have hperm := List.perm_insertionSort HnswIndex.ranksBefore pool
  rw [best, mem_take_sorted (List.pairwise_insertionSort HnswIndex.ranksBefore pool)
    (hperm.nodup_iff.mpr hnodup) (hperm.mem_iff.mpr hx), (hperm.filter _).length_eq]

theorem best_nodup (hnodup : pool.Nodup) (k : Nat) : (best pool k).Nodup :=
  ((List.perm_insertionSort _ pool).nodup_iff.mpr hnodup).sublist (List.take_sublist k _)

theorem score_le {x y : Id × F32} (h : HnswIndex.ranksBefore x y) : x.2 ≤ y.2 := by
  rcases h with hlt | ⟨heq, -⟩
  · exact hlt.le
  · exact heq.le

theorem le_last {x last : Id × F32} (hlast : (best pool k).getLast? = some last)
    (hx : x ∈ best pool k) : HnswIndex.ranksBefore x last := by
  obtain ⟨front, hfront⟩ := List.getLast?_eq_some_iff.mp hlast
  have hsorted := best_sorted pool k
  rw [hfront] at hx hsorted
  rcases List.mem_append.mp hx with hx | hx
  · exact (List.pairwise_append.mp hsorted).2.2 x hx last List.mem_cons_self
  · rw [List.mem_singleton.mp hx]
    exact .inr ⟨rfl, le_rfl⟩

/-- Two entries of one value, where the first is ranked before the second: the
order of the ids decides, unless they are the two zeros. -/
theorem id_lt_of_tie {x y : Id × F32} (hrank : HnswIndex.ranksBefore x y) (hne : x.1 ≠ y.1)
    (htie : x.2.toRat = y.2.toRat) : x.1 < y.1 ∨ (x.2 = F32.NEG_ZERO ∧ y.2 = F32.ZERO) := by
  rcases F32.toRat_eq_iff.mp htie with heq | ⟨hx, hy⟩ | hzeros
  · left
    rcases hrank with hlt | ⟨-, hle⟩
    · exact absurd heq hlt.ne
    · exact lt_of_le_of_ne hle hne
  · exfalso
    rw [HnswIndex.ranksBefore, hx, hy] at hrank
    revert hrank
    rw [imp_false, not_or, not_and_or]
    exact ⟨by decide, .inl (by decide)⟩
  · exact .inr hzeros

theorem ties_of_noClash (hids : (pool.map Prod.fst).Nodup) (h : ¬ ZeroClash pool k) :
    TiesById pool (best pool k) := by
  -- Of two entries of one value, only a returned negative zero may stand before a smaller id.
  have hstep {x y : Id × F32} (hx : x ∈ best pool k) (hy : y ∈ pool)
      (hrank : HnswIndex.ranksBefore x y) (hne : x ≠ y) (htie : x.2.toRat = y.2.toRat) :
      x.1 < y.1 := by
    have hpool := best_subset hx
    have hid : x.1 ≠ y.1 := fun heq => hne (List.inj_on_of_nodup_map hids hpool hy heq)
    rcases id_lt_of_tie hrank hid htie with hlt | ⟨hneg, hzero⟩
    · exact hlt
    · by_contra hnot
      have hyx : y.1 < x.1 := lt_of_le_of_ne (not_lt.mp hnot) hid.symm
      exact h ⟨y, hy, x, hpool, hyx, hzero, hneg, (mem_best hids.of_map hpool).mp hx⟩
  constructor
  · refine List.Pairwise.imp_of_mem ?_ ((best_sorted pool k).and (best_nodup hids.of_map k))
    intro x y hx hy hxy htie
    exact hstep hx (best_subset hy) hxy.1 hxy.2 htie
  · intro last hlast c hc hout htie
    have hlast := List.mem_of_getLast? hlast
    have hne : last ≠ c := fun heq => hout (heq ▸ hlast)
    exact (hstep hlast hc (ranksBefore_of_cut hlast hc hout) hne htie.symm).not_gt

theorem noClash_of_ties (hids : (pool.map Prod.fst).Nodup) (h : TiesById pool (best pool k)) :
    ¬ ZeroClash pool k := by
  rintro ⟨a, ha, b, hb, hab, hzero, hneg, hcount⟩
  have hbest : b ∈ best pool k := (mem_best hids.of_map hb).mpr hcount
  have hlt : b.2 < a.2 := by
    rw [hzero, hneg]
    decide
  have hvalue : b.2.toRat = a.2.toRat := by
    rw [hzero, hneg]
    exact F32.toRat_eq_iff.mpr (.inr (.inr ⟨rfl, rfl⟩))
  -- Whatever positive zero is returned stands behind `b`.
  have hbehind {x : Id × F32} (hx : x ∈ best pool k) (hxzero : x.2 = F32.ZERO) : b.1 < x.1 := by
    have hne : b ≠ x := fun heq => hlt.ne (by rw [heq, hxzero, hzero])
    rcases sublist_or_sublist hbest hx hne with hsub | hsub
    · refine List.rel_of_pairwise_cons (h.returned.sublist hsub) List.mem_cons_self ?_
      rw [hvalue, hxzero, hzero]
    · have hrank : HnswIndex.ranksBefore x b :=
        List.rel_of_pairwise_cons ((best_sorted pool k).sublist hsub) List.mem_cons_self
      rw [hzero] at hlt
      rcases hrank with hbad | ⟨hbad, -⟩
      · exact absurd (hxzero ▸ hbad) hlt.not_gt
      · exact absurd (hbad.symm.trans hxzero) hlt.ne
  by_cases hin : a ∈ best pool k
  · exact absurd (hbehind hin hzero) hab.not_gt
  · obtain ⟨last, hlast⟩ : ∃ last, (best pool k).getLast? = some last :=
      Option.isSome_iff_exists.mp (List.getLast?_isSome.mpr (List.ne_nil_of_mem hbest))
    have hmem := List.mem_of_getLast? hlast
    have hhigh := ranksBefore_of_cut hmem ha hin
    have hlow := le_last hlast hbest
    -- The last entry stands between the two zeros, so it is one of them.
    have hlastZero : last.2 = F32.NEG_ZERO ∨ last.2 = F32.ZERO :=
      F32.zero_of_between (hneg ▸ score_le hlow) (hzero ▸ score_le hhigh)
    have hid : b.1 ≤ last.1 := by
      rcases hlastZero with hlastNeg | hlastPos
      · rcases hlow with hbad | ⟨-, hle⟩
        · exact absurd (hneg.trans hlastNeg.symm) hbad.ne
        · exact hle
      · exact (hbehind hmem hlastPos).le
    have htie : a.2.toRat = last.2.toRat := by
      rcases hlastZero with hlastNeg | hlastPos
      · rw [← hvalue, hneg, hlastNeg]
      · rw [hzero, hlastPos]
    exact h.cut last hlast a ha hin htie (hab.trans_le hid)

theorem ties_iff (hids : (pool.map Prod.fst).Nodup) :
    TiesById pool (best pool k) ↔ ¬ ZeroClash pool k :=
  ⟨noClash_of_ties hids, ties_of_noClash hids⟩

end Pool

/-! ## Queries -/

section Queries

variable [VectorMath]

/-- The candidates of a query, with their scores. -/
def candidatePool (index : HnswIndex Id) (vector : List F32) (k : Nat) : List (Id × F32) :=
  scores index vector (searched index vector k)

theorem candidatePool_ids (h : Inv index) :
    (candidatePool index vector k).map Prod.fst = searched index vector k :=
  scores_ids vector fun id hid => by
    simpa [HnswIndex.memberIds] using (searched_subperm h).subset hid

theorem candidatePool_nodup (h : Inv index) :
    ((candidatePool index vector k).map Prod.fst).Nodup := by
  have hmembers : index.memberIds.Nodup := (BTreeMap.keys_sorted index.nodes).imp fun h => ne_of_lt h
  have hsub : (searched index vector k).Subperm index.memberIds := searched_subperm h
  obtain ⟨ids, hids, hsublist⟩ := hsub
  rw [candidatePool_ids h]
  exact hids.nodup_iff.mp (hmembers.sublist hsublist)

/-- A query that succeeds returns the best of its candidates. -/
theorem query_best (h : Inv index) (hvector : checkVector index.config vector = .ok ())
    {results : List (Id × F32)} (hquery : index.query vector k = .ok results) :
    results = best (candidatePool index vector k) k := by
  by_cases hnone : k = 0 ∨ index.nodes.isEmpty
  · unfold HnswIndex.query at hquery
    rw [hvector, Outcome.ofResult_ok, Outcome.ok_bind, if_pos hnone] at hquery
    cases hquery
    rcases hnone with rfl | hempty
    · rfl
    · rw [candidatePool, searched_empty h hempty]
      simp [best, scores]
  · obtain ⟨hk, hne⟩ := not_or.mp hnone
    rw [query_searched h hvector (Nat.pos_of_ne_zero hk) hne] at hquery
    rcases mapM_score vector (searched index vector k) with ⟨hok, -⟩ | ⟨⟨reason, herror⟩, -⟩
    · rw [hok, Outcome.ofResult_ok, Outcome.ok_bind] at hquery
      cases hquery
      rfl
    · rw [herror] at hquery
      cases hquery

/-- A query keeps the tie rule exactly when no two zeros clash among its candidates. -/
theorem ties_by_id (h : Reachable index) (hvector : checkVector index.config vector = .ok ())
    {results : List (Id × F32)} (hquery : index.query vector k = .ok results) :
    TiesById (candidatePool index vector k) results ↔
      ¬ ZeroClash (candidatePool index vector k) k := by
  rw [query_best h.inv hvector hquery]
  exact ties_iff (candidatePool_nodup h.inv)

/-- A query is refused for a distance exactly when one of its candidates, whether
returned or cut, cannot be returned. -/
theorem query_refuses (h : Inv index) (hvector : checkVector index.config vector = .ok ()) :
    (∃ reason, index.query vector k = Outcome.refuse (.distanceNotRepresentable reason)) ↔
      0 < k ∧ ∃ entry ∈ candidatePool index vector k, entry.2.isFinite = false := by
  by_cases hnone : k = 0 ∨ index.nodes.isEmpty
  · have hquery : index.query vector k = .ok [] := by
      unfold HnswIndex.query
      rw [hvector, Outcome.ofResult_ok, Outcome.ok_bind, if_pos hnone, Outcome.pure_eq]
    constructor
    · rintro ⟨reason, hrefuse⟩
      rw [hquery] at hrefuse
      cases hrefuse
    · rintro ⟨hk, entry, hentry, -⟩
      have hempty := hnone.resolve_left hk.ne'
      rw [candidatePool, searched_empty h hempty] at hentry
      cases hentry
  · obtain ⟨hk, hne⟩ := not_or.mp hnone
    have hk := Nat.pos_of_ne_zero hk
    rw [query_searched h hvector hk hne]
    rcases mapM_score vector (searched index vector k) with ⟨hok, hall⟩ | ⟨⟨reason, herror⟩, hbad⟩
    · rw [hok, Outcome.ofResult_ok, Outcome.ok_bind]
      constructor
      · rintro ⟨reason, hrefuse⟩
        cases hrefuse
      · rintro ⟨-, entry, hentry, hinfinite⟩
        rw [hall entry hentry] at hinfinite
        cases hinfinite
    · rw [herror, Outcome.ofResult_error, Outcome.refuse_bind]
      exact ⟨fun _ => ⟨hk, hbad⟩, fun _ => ⟨reason, rfl⟩⟩

/-- Where the budget covers the index, the candidates are all it holds. -/
theorem candidatePool_all (h : Inv index) (husize : index.len < usizeLimit)
    (hcovers : index.len ≤ max (max k (8 * index.config.mNeighbours)) 1) :
    (candidatePool index vector k).Perm (scores index vector index.memberIds) := by
  have hfull := len_le_queryBeam husize hcovers
  have hlength : min (index.queryBeam k) index.len ≤ (searched index vector k).length :=
    searched_length h
  exact (all_of_length (searched_subperm h) (by omega)).filterMap _

theorem query_refuses_small (h : Inv index) (hvector : checkVector index.config vector = .ok ())
    (husize : index.len < usizeLimit) (hcovers : index.len ≤ max k (8 * index.config.mNeighbours)) :
    (∃ reason, index.query vector k = Outcome.refuse (.distanceNotRepresentable reason)) ↔
      0 < k ∧ ∃ (id : Id) (node : Node Id), index.nodes[id]? = some node ∧
        (VectorMath.narrow
          (VectorMath.distance index.config.distance vector node.vector)).isFinite = false := by
  have hall : (candidatePool index vector k).Perm (scores index vector index.memberIds) :=
    candidatePool_all h husize (hcovers.trans (le_max_left _ 1))
  rw [query_refuses h hvector]
  refine and_congr_right fun _ => ?_
  constructor
  · rintro ⟨⟨id, score⟩, hentry, hinfinite⟩
    obtain ⟨-, node, hnode, rfl⟩ := mem_scores.mp (hall.mem_iff.mp hentry)
    exact ⟨id, node, hnode, hinfinite⟩
  · rintro ⟨id, node, hnode, hinfinite⟩
    have hmember : id ∈ index.memberIds := by
      simpa [HnswIndex.memberIds] using mem_nodes.mpr ⟨node, hnode⟩
    exact ⟨_, hall.mem_iff.mpr (mem_scores.mpr ⟨hmember, node, hnode, rfl⟩), hinfinite⟩

/-- A small index refuses a query for a distance exactly when one of its vectors,
however far from the first `k`, is at a distance that cannot be returned. -/
theorem any_distance_refuses (h : Reachable index)
    (hvector : checkVector index.config vector = .ok ())
    (husize : index.len < usizeLimit) (hcovers : index.len ≤ max k (8 * index.config.mNeighbours)) :
    (∃ reason, index.query vector k = Outcome.refuse (.distanceNotRepresentable reason)) ↔
      0 < k ∧ ∃ (id : Id) (node : Node Id), index.nodes[id]? = some node ∧
        (VectorMath.narrow
          (VectorMath.distance index.config.distance vector node.vector)).isFinite = false :=
  query_refuses_small h.inv hvector husize hcovers

/-- The exact order: the smaller distance, then the smaller id. -/
def closest (left right : Id × F64) : Prop :=
  left.2 < right.2 ∨ (left.2 = right.2 ∧ left.1 ≤ right.1)

omit [VectorMath] in
instance : DecidableRel (closest : Id × F64 → Id × F64 → Prop) :=
  fun _ _ => inferInstanceAs (Decidable (_ ∨ _))

/-- The distances of some stored vectors. -/
def distances (config : HnswConfig) (stored : BTreeMap Id (List F32)) (vector : List F32) :
    List (Id × F64) :=
  stored.toList.map fun entry => (entry.1, VectorMath.distance config.distance vector entry.2)

/-- The public score of a distance. -/
def narrowed (entry : Id × F64) : Id × F32 := (entry.1, VectorMath.narrow entry.2)

/-- The `k` nearest stored vectors, by exact distance. -/
def nearest (index : HnswIndex Id) (vector : List F32) (k : Nat) : List (Id × F64) :=
  ((distances index.config (vectors index.nodes) vector).insertionSort closest).take k

theorem scores_memberIds (index : HnswIndex Id) (vector : List F32) :
    scores index vector index.memberIds =
      (distances index.config (vectors index.nodes) vector).map narrowed := by
  have hlookup (entry : Id × Node Id) (hentry : entry ∈ index.nodes.toList) :
      index.nodes[entry.1]?.map (fun node =>
        (entry.1, VectorMath.narrow (VectorMath.distance index.config.distance vector node.vector))) =
      some (entry.1, VectorMath.narrow
        (VectorMath.distance index.config.distance vector entry.2.vector)) := by
    rw [BTreeMap.mem_toList.mp hentry]
    rfl
  rw [scores, HnswIndex.memberIds, ← Std.ExtTreeMap.map_fst_toList_eq_keys, List.filterMap_map,
    distances, vectors, Std.ExtTreeMap.toList_map, List.map_map, List.map_map, ← List.filterMap_eq_map]
  exact List.filterMap_congr hlookup

omit [VectorMath] in
theorem len_eq (index : HnswIndex Id) : index.len = (vectors index.nodes).size := by
  simp [HnswIndex.len, vectors]

/-- A query of a small index answers from the stored vectors alone. -/
theorem query_stored (h : Inv index) (hvector : checkVector index.config vector = .ok ())
    (hk : 0 < k) (husize : index.len < usizeLimit)
    (hcovers : index.len ≤ max (max k (8 * index.config.mNeighbours)) 1)
    (hfinite : ∀ entry ∈ distances index.config (vectors index.nodes) vector,
      (VectorMath.narrow entry.2).isFinite = true) :
    index.query vector k =
      .ok (best ((distances index.config (vectors index.nodes) vector).map narrowed) k) := by
  have hrep : Representable index vector := by
    intro id node hnode
    refine hfinite (id, _) (List.mem_map.mpr ⟨(id, node.vector), BTreeMap.mem_toList.mpr ?_, rfl⟩)
    simp [vectors, hnode]
  obtain ⟨found, hsub, hcount, hquery⟩ := query_spec h hvector hrep k
  have hfull := len_le_queryBeam husize hcovers
  have hcount := hcount hk
  have hall : found.Perm index.memberIds := all_of_length hsub (by omega)
  have hscores : (scores index vector found).Perm (scores index vector index.memberIds) :=
    hall.filterMap _
  rw [hquery, sorted_unique hscores, scores_memberIds, best]

end Queries

namespace Pair

/-- The engine's arithmetic; the texts of its numbers do not matter here. -/
abbrev math : VectorMath := Metric.math fun _ => ""

def config (distance : VectorDistance) : HnswConfig := { Line.config with distance }

/-- 1e-30, whose square is below the least `f32`. -/
def tiny : List F32 := [⟨0x0da24260#32⟩]

def opposite : List (Mutation Nat) := [.insert 0 [⟨0x8da24260#32⟩], .insert 1 tiny]

def origin : List F32 := [F32.ZERO]

/-- `f32::MAX`. -/
def far : List F32 := [⟨0x7f7fffff#32⟩]

theorem exists_opposite : ∃ index : HnswIndex Nat, @Reachable Nat _ math index ∧
    checkVector index.config tiny = .ok () ∧
    @HnswIndex.query Nat _ math index tiny 2 = .ok [(1, F32.NEG_ZERO), (0, F32.ZERO)] := by
  obtain ⟨index, -, hreach, hconfig, hvectors⟩ :=
    @run_spec Nat _ math (config .innerProduct) (by decide) opposite
  have hvector : checkVector index.config tiny = .ok () := by
    rw [hconfig]
    decide
  have hdistances : @distances Nat _ math index.config (vectors index.nodes) tiny =
      [(0, ⟨0x3379b604ad690000#64⟩), (1, ⟨0xb379b604ad690000#64⟩)] := by
    rw [hconfig, hvectors]
    decide +kernel
  have hlen : index.len = 2 := by
    rw [len_eq, hvectors]
    decide +kernel
  refine ⟨index, hreach, hvector, ?_⟩
  rw [@query_stored Nat _ index 2 tiny math (@Reachable.inv Nat _ math index hreach) hvector
    (by decide) (by rw [hlen]; decide) (by rw [hlen, hconfig]; decide)
    (by rw [hdistances]; decide +kernel), hdistances]
  decide +kernel

theorem not_ties (pool : List (Nat × F32)) :
    ¬ TiesById pool [(1, F32.NEG_ZERO), (0, F32.ZERO)] := by
  intro h
  have hfirst := (List.pairwise_cons.mp h.returned).1 (0, F32.ZERO) List.mem_cons_self
  exact absurd (hfirst (F32.toRat_eq_iff.mpr (.inr (.inr ⟨rfl, rfl⟩)))) (by decide)

/-- An index that answers, and what it is after a vector far away went in. -/
theorem exists_far : ∃ index index' : HnswIndex Nat, @Reachable Nat _ math index' ∧
    @HnswIndex.mutate Nat _ math index (.insert 1 far) = .ok index' ∧
    index'.config = config .l2 ∧ index'.len = 2 ∧
    (∃ node, index'.nodes[1]? = some node ∧ node.vector = far) ∧
    @HnswIndex.query Nat _ math index origin 1 = .ok [(0, F32.ZERO)] ∧
    @nearest Nat _ math index' origin 1 = [(0, ⟨0x0000000000000000#64⟩)] := by
  obtain ⟨index, -, hreach, hconfig, hvectors⟩ :=
    @run_spec Nat _ math (config .l2) (by decide) [.insert 0 origin]
  have hinv := @Reachable.inv Nat _ math index hreach
  obtain ⟨index', hstep, -, hconfig', hvectors'⟩ := @mutate_spec Nat _ math index hinv (.insert 1 far)
  rw [hvectors, hconfig] at hvectors'
  rw [hconfig] at hconfig'
  have hdistances : @distances Nat _ math index.config (vectors index.nodes) origin =
      [(0, ⟨0x0000000000000000#64⟩)] := by
    rw [hconfig, hvectors]
    decide +kernel
  have hlen : index.len = 1 := by
    rw [len_eq, hvectors]
    decide +kernel
  refine ⟨index, index', @Reachable.mutated Nat _ math _ _ _ hreach hstep, hstep, hconfig', ?_, ?_, ?_, ?_⟩
  · rw [len_eq, hvectors']
    decide +kernel
  · have hfar : (vectors index'.nodes)[1]? = some far := by
      rw [hvectors']
      decide +kernel
    simpa [vectors] using hfar
  · rw [@query_stored Nat _ index 1 origin math hinv (by rw [hconfig]; decide) (by decide)
      (by rw [hlen]; decide) (by rw [hlen, hconfig]; decide) (by rw [hdistances]; decide +kernel),
      hdistances]
    decide +kernel
  · unfold nearest
    rw [hconfig', hvectors']
    decide +kernel

end Pair

theorem ties_by_id_opposite : ∃ index : HnswIndex Nat, @Reachable Nat _ Pair.math index ∧
    ZeroClash (@candidatePool Nat _ Pair.math index Pair.tiny 2) 2 := by
  obtain ⟨index, hreach, hvector, hquery⟩ := Pair.exists_opposite
  have hties := @ties_by_id Nat _ index 2 Pair.tiny Pair.math hreach hvector _ hquery
  refine ⟨index, hreach, ?_⟩
  by_contra hnone
  exact Pair.not_ties _ (hties.mpr hnone)

/-- Two equal scores in descending order of their ids. -/
theorem crossed_zeros : ∃ index : HnswIndex Nat, @Reachable Nat _ Pair.math index ∧
    checkVector index.config Pair.tiny = .ok () ∧
    ∃ results, @HnswIndex.query Nat _ Pair.math index Pair.tiny 2 = .ok results ∧
      ¬ TiesById (@candidatePool Nat _ Pair.math index Pair.tiny 2) results := by
  obtain ⟨index, hreach, hvector, hquery⟩ := Pair.exists_opposite
  exact ⟨index, hreach, hvector, _, hquery, Pair.not_ties _⟩

theorem any_distance_refuses_far : ∃ index : HnswIndex Nat, @Reachable Nat _ Pair.math index ∧
    ∃ reason, @HnswIndex.query Nat _ Pair.math index Pair.origin 1 =
      Outcome.refuse (.distanceNotRepresentable reason) := by
  obtain ⟨_, index, hreach, -, hconfig, hlen, ⟨node, hnode, hvector⟩, -, -⟩ := Pair.exists_far
  refine ⟨index, hreach, (@any_distance_refuses Nat _ index 1 Pair.origin Pair.math hreach
    (by rw [hconfig]; decide) (by rw [hlen]; decide) (by rw [hlen, hconfig]; decide)).mpr
    ⟨by decide, 1, node, hnode, ?_⟩⟩
  rw [hvector, hconfig]
  decide +kernel

/-- A vector that is not the nearest turns a query for one into a refusal. -/
theorem far_vector_refuses : ∃ index index' : HnswIndex Nat, @Reachable Nat _ Pair.math index' ∧
    @HnswIndex.mutate Nat _ Pair.math index (.insert 1 Pair.far) = .ok index' ∧
    index'.len ≤ max 1 (8 * index'.config.mNeighbours) ∧
    checkVector index'.config Pair.origin = .ok () ∧
    @HnswIndex.query Nat _ Pair.math index Pair.origin 1 = .ok [(0, F32.ZERO)] ∧
    (∃ reason, @HnswIndex.query Nat _ Pair.math index' Pair.origin 1 =
      Outcome.refuse (.distanceNotRepresentable reason)) ∧
    ∀ entry ∈ @nearest Nat _ Pair.math index' Pair.origin 1,
      (@VectorMath.narrow Pair.math entry.2).isFinite = true := by
  obtain ⟨index, index', hreach, hstep, hconfig, hlen, ⟨node, hnode, hvector⟩, hquery, hnearest⟩ :=
    Pair.exists_far
  have horigin : checkVector index'.config Pair.origin = .ok () := by
    rw [hconfig]
    decide
  have hcovers : index'.len ≤ max 1 (8 * index'.config.mNeighbours) := by
    rw [hlen, hconfig]
    decide
  refine ⟨index, index', hreach, hstep, hcovers, horigin, hquery, ?_, ?_⟩
  · refine (@query_refuses_small Nat _ index' 1 Pair.origin Pair.math
      (@Reachable.inv Nat _ Pair.math _ hreach) horigin (by rw [hlen]; decide) hcovers).mpr
      ⟨by decide, 1, node, hnode, ?_⟩
    rw [hvector, hconfig]
    decide +kernel
  · rw [hnearest]
    decide +kernel

end Heurema.Hnsw
