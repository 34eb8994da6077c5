import Heurema.Data.Cycle
import Mathlib.Combinatorics.SimpleGraph.Hamiltonian
import Mathlib.Combinatorics.SimpleGraph.Matching

/-! # A cycle as a graph

From three vertices on, `IsCycle` is one simple cycle through all of them: some
closed walk visits every vertex once and uses every edge there is. -/

namespace Cycle

variable {κ : Type} [LinearOrder κ] {adj : Adjacency κ}

/-- The vertices and edges of the adjacency sets. -/
def graph (h : IsCycle adj) : SimpleGraph {x // x ∈ adj} where
  Adj x y := Edge adj x.1 y.1
  symm := ⟨fun _ _ hxy => h.symm hxy⟩
  loopless := ⟨fun x => h.irrefl x.1⟩

instance finite_vertices : Finite {x // x ∈ adj} :=
  Finite.of_injective (fun x : {x // x ∈ adj} => (⟨x.1, by simpa using x.2⟩ : {x // x ∈ adj.keys}))
    fun _ _ h => Subtype.ext (by simpa using congrArg Subtype.val h)

theorem ncard_neighborSet (h : IsCycle adj) (hsize : 3 ≤ adj.size) (x : {x // x ∈ adj}) :
    ((graph h).neighborSet x).ncard = 2 := by
  obtain ⟨near, hnear⟩ := BTreeMap.mem_iff.mp x.2
  have hlen : near.toList.length = 2 := by
    rw [Std.ExtTreeSet.length_toList, h.degree hnear, cycleDegree_of_le hsize]
  obtain ⟨a, b, hab⟩ := List.length_eq_two.mp hlen
  have hmem {y : κ} : Edge adj x.1 y ↔ y = a ∨ y = b := by
    rw [edge_iff hnear, ← Std.ExtTreeSet.mem_toList, hab]
    simp
  have hne : a ≠ b := by
    have := BTreeSet.toList_nodup near
    rw [hab] at this
    simpa using this
  have hva : a ∈ adj := (h.symm (hmem.mpr (.inl rfl))).mem
  have hvb : b ∈ adj := (h.symm (hmem.mpr (.inr rfl))).mem
  have hset : (graph h).neighborSet x = {⟨a, hva⟩, ⟨b, hvb⟩} := by
    ext y
    simp [graph, hmem, Subtype.ext_iff]
  rw [hset, Set.ncard_pair (by simpa using hne)]

theorem graph_reachable (h : IsCycle adj) (x y : {x // x ∈ adj}) : (graph h).Reachable x y := by
  obtain ⟨x, hx⟩ := x
  obtain ⟨y, hy⟩ := y
  have hpath := h.connected hx hy
  induction hpath with
  | refl => exact .refl _
  | tail hpath hstep ih =>
    have hstep' : (graph h).Adj ⟨_, hstep.mem⟩ ⟨_, hy⟩ := hstep
    exact (ih hstep.mem).trans hstep'.reachable

/-- One closed walk visits every vertex once and uses every edge. -/
theorem exists_hamiltonian (h : IsCycle adj) (hsize : 3 ≤ adj.size) (v : {x // x ∈ adj}) :
    ∃ p : (graph h).Walk v v, p.IsHamiltonianCycle ∧
      ∀ x y, (graph h).Adj x y → s(x, y) ∈ p.edges := by
  have hcycles : (graph h).IsCycles := fun x _ => ncard_neighborSet h hsize x
  have hnonempty : ((graph h).neighborSet v).Nonempty := by
    rw [← Set.ncard_pos, ncard_neighborSet h hsize]
    decide
  obtain ⟨p, hp, hverts⟩ := hcycles.exists_cycle_toSubgraph_verts_eq_connectedComponentSupp
    (c := (graph h).connectedComponentMk v) (by simp) hnonempty
  -- The component of `v` is the whole graph.
  have hall (x : {x // x ∈ adj}) : x ∈ p.toSubgraph.verts := by
    rw [hverts, SimpleGraph.ConnectedComponent.mem_supp_iff, SimpleGraph.ConnectedComponent.eq]
    exact graph_reachable h x v
  have hsupport (x : {x // x ∈ adj}) : x ∈ p.support := by
    simpa [SimpleGraph.Walk.verts_toSubgraph] using hall x
  refine ⟨p, ⟨hp, ?_⟩, fun x y hxy => ?_⟩
  · apply hp.isPath_tail.isHamiltonian_of_mem
    intro x
    by_cases hxv : x = v
    · subst hxv
      exact SimpleGraph.Walk.end_mem_support _
    · have hx := hsupport x
      rw [← SimpleGraph.Walk.cons_tail_support, List.mem_cons] at hx
      rw [SimpleGraph.Walk.support_tail_of_not_nil p hp.not_nil]
      exact hx.resolve_left hxv
  · have : (graph h).LocallyFinite := fun x => Fintype.ofFinite _
    have hadj := (hp.adj_toSubgraph_iff_of_isCycles hcycles (hall x) y).mpr hxy
    rwa [SimpleGraph.Walk.adj_toSubgraph_iff_mem_edges] at hadj

end Cycle
