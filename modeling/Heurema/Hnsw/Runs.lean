import Heurema.Data.CycleGraph
import Heurema.Hnsw.Snapshot

/-! # Runs of the index

Every mutation of an index with the invariant returns an index with the
invariant, so every reachable index has it, and is what the decoder makes of its
snapshot. -/

namespace Heurema.Hnsw

open Outcome (Ensures)

variable {Id : Type} [LinearOrder Id]

inductive Mutation (Id : Type) where
  | insert (id : Id) (vector : List F32)
  | remove (id : Id)

/-- The mutation of the map that an index is, for its caller. -/
def Mutation.store (config : HnswConfig) (stored : BTreeMap Id (List F32)) :
    Mutation Id → BTreeMap Id (List F32)
  | .insert id vector =>
    match checkVector config vector with
    | .ok () => stored.insert id vector
    | .error _ => stored
  | .remove id => stored.erase id

section Runs

variable [VectorMath] {index index' : HnswIndex Id}

/-- The index after a mutation. An insertion is refused before its first write. -/
def HnswIndex.mutate (index : HnswIndex Id) : Mutation Id → Except String (HnswIndex Id)
  | .insert id vector =>
    match index.insert id vector with
    | .ok index' => .ok index'
    | .error (.refused _) => .ok index
    | .error (.panicked reason) => .error reason
  | .remove id =>
    match index.remove id with
    | .ok index' => .ok index'
    | .error (.refused _) => .ok index
    | .error (.panicked reason) => .error reason

/-- The indexes that mutations make of an empty index or of a decoded snapshot. -/
inductive Reachable : HnswIndex Id → Prop where
  | new {config : HnswConfig} (h : validateConfig config = .ok ()) : Reachable (.new config)
  | decoded {raw : RawHnswIndex Id} {index : HnswIndex Id} (h : HnswIndex.tryFrom raw = .ok index) :
    Reachable index
  | mutated {index index' : HnswIndex Id} {mutation : Mutation Id} (h : Reachable index)
    (hstep : index.mutate mutation = .ok index') : Reachable index'

omit [VectorMath] in
theorem new_inv {config : HnswConfig} (h : validateConfig config = .ok ()) :
    Inv (HnswIndex.new config : HnswIndex Id) := by
  have hlinked (l : Nat) (x y : Id) : ¬ Linked (∅ : Nodes Id) l x y := by
    rintro ⟨links, hlinks, -⟩
    simp [layer] at hlinks
  refine ⟨⟨fun hx => ?_, fun l => ⟨⟨fun x => hlinked l x x, fun hxy => (hlinked _ _ _ hxy).elim⟩,
    fun hx => ?_⟩, ?_⟩, h, ?_, rfl, rfl⟩
  · simp [HnswIndex.new] at hx
  · simp [HnswIndex.new, layer] at hx
  · exact Cycle.isCycle_empty
  · simp [HnswIndex.new]

/-- What a mutation leaves behind: the vectors it should, in a sound index. -/
theorem mutate_spec (h : Inv index) (mutation : Mutation Id) : ∃ index',
    index.mutate mutation = .ok index' ∧ Inv index' ∧ index'.config = index.config ∧
    vectors index'.nodes = mutation.store index.config (vectors index.nodes) := by
  cases mutation with
  | insert id vector =>
    cases hcheck : checkVector index.config vector with
    | ok =>
      obtain ⟨index', hinsert, hinv, hconfig, hvectors⟩ := insert_spec h id hcheck
      exact ⟨index', by simp [HnswIndex.mutate, hinsert], hinv, hconfig,
        by rw [hvectors, Mutation.store, hcheck]⟩
    | error e =>
      have hrefused : index.insert id vector = Outcome.refuse e := by
        rw [HnswIndex.insert, hcheck, Outcome.ofResult_error, Outcome.refuse_bind]
      exact ⟨index, by rw [HnswIndex.mutate, hrefused]; rfl, h, rfl, by rw [Mutation.store, hcheck]⟩
  | remove id =>
    obtain ⟨index', hremove, hinv, hconfig, -, hvectors⟩ := removeNode_spec h id
    exact ⟨index', by simp [HnswIndex.mutate, HnswIndex.remove, hremove], hinv, hconfig, hvectors⟩

theorem Reachable.inv (h : Reachable index) : Inv index := by
  induction h with
  | new h => exact new_inv h
  | decoded h => exact (tryFrom_eq_ok.mp h).2
  | @mutated index index' mutation _ hstep ih =>
    obtain ⟨next, hnext, hinv, -⟩ := mutate_spec ih mutation
    rw [hstep] at hnext
    cases hnext
    exact hinv

/-- A run from an empty index stores what the mutations say. -/
theorem run_spec {config : HnswConfig} (h : validateConfig config = .ok ())
    (mutations : List (Mutation Id)) : ∃ index,
      mutations.foldlM HnswIndex.mutate (.new config) = .ok index ∧ Reachable index ∧ index.config = config ∧
      vectors index.nodes = mutations.foldl (Mutation.store config) ∅ := by
  have hrun (mutations : List (Mutation Id)) : ∀ index : HnswIndex Id, Reachable index →
      ∃ index', mutations.foldlM HnswIndex.mutate index = .ok index' ∧ Reachable index' ∧
        index'.config = index.config ∧
        vectors index'.nodes = mutations.foldl (Mutation.store index.config) (vectors index.nodes) := by
    induction mutations with
    | nil => exact fun index hreach => ⟨index, rfl, hreach, rfl, rfl⟩
    | cons mutation mutations ih =>
      intro index hreach
      obtain ⟨next, hstep, -, hconfig, hvectors⟩ := mutate_spec hreach.inv mutation
      obtain ⟨index', hrest, hreach', hconfig', hvectors'⟩ := ih next (hreach.mutated hstep)
      refine ⟨index', ?_, hreach', hconfig'.trans hconfig, ?_⟩
      · rw [List.foldlM_cons, hstep]
        exact hrest
      · rw [hvectors', hconfig, hvectors, List.foldl_cons]
  have hempty : vectors (HnswIndex.new config : HnswIndex Id).nodes = ∅ := by
    simp [vectors, HnswIndex.new]
  obtain ⟨index, hfold, hreach, hconfig, hvectors⟩ := hrun mutations (.new config) (.new h)
  exact ⟨index, hfold, hreach, hconfig, by rw [hvectors, hempty]; rfl⟩

/-- The invariant is what the decoder checks, an empty index has it, no mutation
panics or breaks it, so a reachable index is what its snapshot decodes to; and
the backbone of three nodes or more is one simple cycle through all of them. -/
theorem graph_invariant :
    (∀ (raw : RawHnswIndex Id) (index : HnswIndex Id),
      HnswIndex.tryFrom raw = .ok index ↔ index.toRaw = raw ∧ Inv index) ∧
    (∀ config : HnswConfig, validateConfig config = .ok () →
      Inv (HnswIndex.new config : HnswIndex Id)) ∧
    (∀ (index : HnswIndex Id) (mutation : Mutation Id), Inv index →
      ∃ index', index.mutate mutation = .ok index' ∧ Inv index') ∧
    (∀ index : HnswIndex Id, Reachable index → HnswIndex.tryFrom index.toRaw = .ok index) ∧
    (∀ (index : HnswIndex Id) (h : Inv index), 3 ≤ index.len →
      ∀ start, ∃ walk : (Cycle.graph h.backbone).Walk start start, walk.IsHamiltonianCycle ∧
        ∀ x y, (Cycle.graph h.backbone).Adj x y → s(x, y) ∈ walk.edges) := by
  refine ⟨fun raw index => tryFrom_eq_ok, fun config h => new_inv h, fun index mutation h => ?_,
    fun index h => tryFrom_eq_ok.mpr ⟨rfl, h.inv⟩, fun index h hlen start => ?_⟩
  · obtain ⟨index', hstep, hinv, -⟩ := mutate_spec h mutation
    exact ⟨index', hstep, hinv⟩
  · exact Cycle.exists_hamiltonian h.backbone (by rwa [backbones_size]) start

end Runs

namespace Line

/-- The squared distances of the points 0, 1 and 2 of a line. -/
abbrev math : VectorMath where
  distance _ left right :=
    if left = right then ⟨0x0000000000000000#64⟩
    else if [⟨0x3f800000#32⟩] ∈ [left, right] then ⟨0x3ff0000000000000#64⟩
    else ⟨0x4010000000000000#64⟩
  narrow distance :=
    if distance = ⟨0x0000000000000000#64⟩ then ⟨0x00000000#32⟩
    else if distance = ⟨0x3ff0000000000000#64⟩ then ⟨0x3f800000#32⟩
    else ⟨0x40800000#32⟩
  display distance :=
    if distance = ⟨0x0000000000000000#64⟩ then "0"
    else if distance = ⟨0x3ff0000000000000#64⟩ then "1"
    else "4"

def config : HnswConfig :=
  { dimensions := 1, distance := .l2, efConstruction := 200, mNeighbours := 16 }

/-- Puts the three points in. -/
def points : List (Mutation Nat) :=
  [.insert 0 [⟨0x00000000#32⟩], .insert 1 [⟨0x3f800000#32⟩], .insert 2 [⟨0x40000000#32⟩]]

theorem exists_reachable : ∃ index : HnswIndex Nat, @Reachable Nat _ math index ∧
    index.config = config ∧ index.len = 3 := by
  obtain ⟨index, -, hreach, hconfig, hvectors⟩ := @run_spec Nat _ math config rfl points
  refine ⟨index, hreach, hconfig, ?_⟩
  have hsize : (vectors index.nodes).size = 3 := by
    rw [hvectors]
    decide +kernel
  simpa [vectors, HnswIndex.len] using hsize

end Line

theorem graph_invariant_triangle : ∃ (index : HnswIndex Nat) (h : Inv index), index.len = 3 ∧
    HnswIndex.tryFrom index.toRaw = .ok index ∧
    ∀ start, ∃ walk : (Cycle.graph h.backbone).Walk start start, walk.IsHamiltonianCycle := by
  obtain ⟨hdecoder, -, -, hreachable, hcycle⟩ := @graph_invariant Nat _ Line.math
  obtain ⟨index, hreach, -, hlen⟩ := Line.exists_reachable
  have hsnapshot := hreachable index hreach
  have hinv := ((hdecoder index.toRaw index).mp hsnapshot).2
  refine ⟨index, hinv, hlen, hsnapshot, fun start => ?_⟩
  obtain ⟨walk, hwalk, -⟩ := hcycle index hinv hlen.ge start
  exact ⟨walk, hwalk⟩

end Heurema.Hnsw
