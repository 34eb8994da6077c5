import Heurema.Hnsw.Snapshot
import Heurema.Lifecycle.Scalars

/-! # The encoding of a graph

An index is written as its fields and read back through the snapshot decoder, so
an index with the invariant stores when its ids do. -/

namespace Heurema.Hnsw

open Serde

variable {Id : Type} [LinearOrder Id] [KeyCodec Id] [SerdeJson]

namespace Node

def FIELDS : List Str :=
  ["vector".toList, "level".toList, "neighbours".toList, "backbone".toList]

instance : Codec (Node Id) where
  serialize node := record "Node".toList FIELDS [serialize node.vector, serialize node.level,
    serialize node.neighbours, serialize node.backbone]
  deserialize := readRecord FIELDS fun found => do
    return {
      vector := ← requiredField found 0
      level := ← requiredField found 1
      neighbours := ← requiredField found 2
      backbone := ← requiredField found 3 }

theorem stores {config : HnswConfig} {node : Node Id} {d : Nat} (h : WellShaped config node)
    (hlinks : ∀ links ∈ node.neighbours, ∀ id ∈ links, Stores d id)
    (hbones : ∀ id ∈ node.backbone, Stores d id) : Stores (d + 3) node := by
  obtain ⟨vector, hvector⟩ : Stores (0 + 1) node.vector :=
    .list fun x hx => .f32 (List.all_eq_true.mp h.finite x hx)
  have hlevel : node.level < UInt64.size := lt_of_le_of_lt h.level (by decide)
  obtain ⟨level, hlevel⟩ := Stores.usize hlevel
  obtain ⟨neighbours, hneighbours⟩ : Stores (d + 1 + 1) node.neighbours :=
    .list fun links hmem => .set (hlinks links hmem)
  obtain ⟨backbone, hbackbone⟩ := Stores.set hbones
  have hitems : Items (d + 2) _ _ :=
    .cons hvector (.cons hlevel (.cons hneighbours (.cons hbackbone .nil)))
  exact .record rfl rfl hitems rfl (by decide) (by decide)
    (by simp [requiredField, hvector.read, hlevel.read, hneighbours.read, hbackbone.read])

end Node

namespace HnswIndex

def FIELDS : List Str :=
  ["config".toList, "nodes".toList, "entry_point".toList, "max_level".toList, "level_state".toList]

/-- The fields of a snapshot, before they are checked. -/
def readRaw (found : List (Option Json)) : Outcome String (RawHnswIndex Id) := do
  return {
    config := ← requiredField found 0
    nodes := ← requiredField found 1
    entryPoint := ← optionalField found 2
    maxLevel := ← requiredField found 3
    levelState := BitVec.ofNat 64 (← requiredField found 4) }

instance : Codec (HnswIndex Id) where
  serialize index := record "HnswIndex".toList FIELDS [serialize index.config,
    serialize index.nodes, serialize index.entryPoint, serialize index.maxLevel,
    serialize index.levelState.toNat]
  deserialize := readRecord FIELDS fun found => do
    tryFrom (← readRaw found)

omit [KeyCodec Id] [SerdeJson] in
theorem maxLevel_lt {index : HnswIndex Id} (h : Inv index) : index.maxLevel < UInt64.size := by
  rw [h.maxLevel]
  by_cases hempty : index.nodes = ∅
  · rw [hempty]
    simp [highestLevel, Std.ExtTreeMap.toList_eq_nil_iff.mpr, UInt64.size]
  · obtain ⟨id, node, hnode⟩ := BTreeMap.exists_lookup hempty
    obtain ⟨top, node, hnode, hlevel⟩ := exists_highestLevel (mem_nodes.mpr ⟨node, hnode⟩)
    exact hlevel ▸ lt_of_le_of_lt (h.shape hnode).level (by decide)

/-- An index with the invariant stores when its ids do. -/
theorem stores {index : HnswIndex Id} {d : Nat} (h : Inv index)
    (hids : ∀ id ∈ index.nodes, StoresMember d id) : Stores (d + 5) index := by
  obtain ⟨config, hconfig⟩ := index.config.stores
  have hlinked {x y : Id} {l : Nat} (hxy : Linked index.nodes l x y) : Stores d y :=
    (hids y ((h.layers l).reaches hxy).mem).value
  obtain ⟨nodes, hnodes⟩ : Stores (d + 3 + 1) index.nodes := by
    refine .map (fun id hid => (hids id hid).key) fun id node hnode => ?_
    refine Node.stores (h.shape hnode) (fun links hlinks neighbour hneighbour => ?_)
      fun neighbour hneighbour => ?_
    · obtain ⟨l, hl⟩ := List.mem_iff_getElem?.mp hlinks
      exact hlinked (x := id) (l := l) ⟨links, by simp [layer, hnode, hl], hneighbour⟩
    · have hedge : Cycle.Edge (backbones index.nodes) id neighbour :=
        ⟨node.backbone, by simp [backbones, hnode], hneighbour⟩
      exact (hids neighbour (by simpa [backbones] using (h.backbone.symm hedge).mem)).value
  obtain ⟨entry, hentry⟩ : Stores d index.entryPoint := by
    refine .option index.entryPoint fun id hid => ?_
    have hmem := (tops_iff.mpr ⟨h.entryPoint ▸ hid, rfl⟩).mem
    exact ⟨(hids id hmem).value, (hids id hmem).present⟩
  obtain ⟨maxLevel, hmaxLevel⟩ := Stores.usize (maxLevel_lt h)
  obtain ⟨state, hstate⟩ := Stores.usize index.levelState.isLt
  have hitems : Items (d + 4) _ _ := .cons hconfig (.cons hnodes (.cons hentry (.cons hmaxLevel
    (.cons hstate .nil))))
  refine .record rfl rfl hitems rfl (by decide) (by decide) ?_
  have hraw : readRaw ([config, nodes, entry, maxLevel, state].map some) = .ok index.toRaw := by
    simp [readRaw, requiredField, optionalField, hconfig.read, hnodes.read, hentry.read, hmaxLevel.read,
      hstate.read, toRaw]
  rw [hraw, Outcome.ok_bind]
  exact tryFrom_eq_ok.mpr ⟨rfl, h⟩

end HnswIndex

end Heurema.Hnsw
