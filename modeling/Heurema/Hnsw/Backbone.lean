import Heurema.Hnsw.Graph

/-! # The backbone

The backbone writes are the cycle operations on `backbones`, and they touch
nothing else of a node: `rest` is their frame. -/

namespace Heurema.Hnsw

open Outcome (Ensures)

variable {Id : Type} [LinearOrder Id] {nodes nodes' : Nodes Id} {l : Nat} {a b x y : Id}
  {config : HnswConfig}

/-- What no backbone operation changes in a node. -/
def rest (nodes : Nodes Id) : BTreeMap Id (List F32 × Nat × List (BTreeSet Id)) :=
  nodes.map fun _ node => (node.vector, node.level, node.neighbours)

theorem rest_lookup (nodes : Nodes Id) (x : Id) : (rest nodes)[x]? =
    nodes[x]?.map fun node => (node.vector, node.level, node.neighbours) := by
  simp [rest]

theorem rest_layer (h : rest nodes' = rest nodes) (l : Nat) (x : Id) :
    layer nodes' l x = layer nodes l x := by
  have hlayer (n : Nodes Id) : layer n l x = (rest n)[x]?.bind fun f => f.2.2[l]? := by
    rw [rest_lookup]
    cases hx : n[x]? <;> simp [layer, hx]
  rw [hlayer, h, ← hlayer]

theorem rest_vectors (h : rest nodes' = rest nodes) : vectors nodes' = vectors nodes := by
  have hvectors (n : Nodes Id) : vectors n = (rest n).map fun _ f => f.1 := by
    apply BTreeMap.ext_lookup
    intro x
    simp [vectors, rest]
  rw [hvectors, h, ← hvectors]

theorem rest_levels (h : rest nodes' = rest nodes) : levels nodes' = levels nodes := by
  have hlevels (n : Nodes Id) : levels n = (rest n).toList.map fun entry => (entry.1, entry.2.2.1) := by
    simp [levels, rest, Std.ExtTreeMap.toList_map, Function.comp_def]
  rw [hlevels, h, ← hlevels]

theorem rest_shape (h : rest nodes' = rest nodes)
    (hshape : ∀ {x : Id} {node : Node Id}, nodes[x]? = some node → WellShaped config node)
    {node' : Node Id} (hx : nodes'[x]? = some node') : WellShaped config node' := by
  have hlookup := rest_lookup nodes' x
  rw [h, rest_lookup, hx] at hlookup
  cases hnode : nodes[x]? with
  | none => simp [hnode] at hlookup
  | some node =>
    simp only [hnode, Option.map_some, Option.some.injEq, Prod.mk.injEq] at hlookup
    obtain ⟨hvector, hlevel, hneighbours⟩ := hlookup
    have hs := hshape hnode
    exact ⟨hvector ▸ hs.dimension, hvector ▸ hs.finite, hlevel ▸ hs.level,
      by rw [← hneighbours, ← hlevel]; exact hs.layers⟩

theorem rest_layerOk (h : rest nodes' = rest nodes) (hok : LayerOk config nodes l) :
    LayerOk config nodes' l := by
  have hlayer := rest_layer h l
  have hlinked (x y : Id) : Linked nodes' l x y ↔ Linked nodes l x y := by
    simp [Linked, hlayer]
  refine ⟨⟨fun x => ?_, fun hxy => ?_⟩, fun hx => hok.degree (by rwa [hlayer] at hx)⟩
  · rw [hlinked]
    exact hok.irrefl x
  · rw [hlinked] at hxy ⊢
    exact hok.symm hxy

/-! ## The writes -/

@[simp] theorem modifyBackbone_backbones (nodes : Nodes Id) (a : Id)
    (f : BTreeSet Id → BTreeSet Id) :
    backbones (modifyBackbone nodes a f) = (backbones nodes).modify a f := by
  apply BTreeMap.ext_lookup
  intro x
  rw [backbones_lookup, modifyBackbone, BTreeMap.getElem?_modify_ite,
    BTreeMap.getElem?_modify_ite]
  by_cases h : a = x
  · subst h
    simp [backbones, Function.comp_def]
  · simp [backbones, h]

@[simp] theorem modifyBackbone_rest (nodes : Nodes Id) (a : Id) (f : BTreeSet Id → BTreeSet Id) :
    rest (modifyBackbone nodes a f) = rest nodes := by
  apply BTreeMap.ext_lookup
  intro x
  rw [rest_lookup, modifyBackbone, BTreeMap.getElem?_modify_ite, rest_lookup]
  by_cases h : a = x
  · subst h
    simp [Function.comp_def]
  · simp [h]

@[simp] theorem connectBackbone_backbones (nodes : Nodes Id) (a b : Id) :
    backbones (connectBackbone nodes a b) = Cycle.connect (backbones nodes) a b := by
  unfold connectBackbone Cycle.connect
  split <;> simp

@[simp] theorem connectBackbone_rest (nodes : Nodes Id) (a b : Id) :
    rest (connectBackbone nodes a b) = rest nodes := by
  unfold connectBackbone
  split <;> simp

@[simp] theorem disconnectBackbone_backbones (nodes : Nodes Id) (a b : Id) :
    backbones (disconnectBackbone nodes a b) = Cycle.disconnect (backbones nodes) a b := by
  simp [disconnectBackbone, Cycle.disconnect]

@[simp] theorem disconnectBackbone_rest (nodes : Nodes Id) (a b : Id) :
    rest (disconnectBackbone nodes a b) = rest nodes := by
  simp [disconnectBackbone]

theorem spliceBackbone_spec (ha : a ∈ nodes) :
    Ensures (spliceBackbone nodes x a) fun nodes' =>
      backbones nodes' = Cycle.splice (backbones nodes) x a ∧ rest nodes' = rest nodes := by
  obtain ⟨node, hnode⟩ := mem_nodes.mp ha
  have hbone : (backbones nodes)[a]? = some node.backbone := by
    rw [backbones_lookup, hnode, Option.map_some]
  unfold spliceBackbone Cycle.splice
  rw [hnode, hbone, Option.getD_some]
  simp only [Outcome.pure_eq]
  rcases node.backbone.toList with _ | ⟨successor, _ | ⟨_, _⟩⟩
  · exact .ok ⟨by simp, by simp⟩
  · exact .ok ⟨by simp, by simp⟩
  · exact .ok ⟨by simp, by simp⟩

theorem eraseBackbones_spec (anchors : List Id) (x : Id) (nodes : Nodes Id) :
    backbones (anchors.foldl (fun nodes anchor => modifyBackbone nodes anchor (·.erase x)) nodes) =
      anchors.foldl (fun adj anchor => adj.modify anchor (·.erase x)) (backbones nodes) ∧
    rest (anchors.foldl (fun nodes anchor => modifyBackbone nodes anchor (·.erase x)) nodes) =
      rest nodes := by
  induction anchors generalizing nodes with
  | nil => exact ⟨rfl, rfl⟩
  | cons anchor anchors ih =>
    obtain ⟨hbones, hrest⟩ := ih (modifyBackbone nodes anchor (·.erase x))
    simp only [List.foldl_cons]
    exact ⟨by rw [hbones, modifyBackbone_backbones], by rw [hrest, modifyBackbone_rest]⟩

theorem bypassBackbone_spec (nodes : Nodes Id) (x : Id) (anchors : List Id) :
    backbones (bypassBackbone nodes x anchors) = Cycle.bypass (backbones nodes) x anchors ∧
    rest (bypassBackbone nodes x anchors) = rest nodes := by
  obtain ⟨hbones, hrest⟩ := eraseBackbones_spec anchors x nodes
  unfold bypassBackbone Cycle.bypass
  rw [← hbones, ← hrest]
  rcases anchors with _ | ⟨left, _ | ⟨right, _ | ⟨_, _⟩⟩⟩
  · exact ⟨rfl, rfl⟩
  · exact ⟨rfl, rfl⟩
  · exact ⟨connectBackbone_backbones _ left right, connectBackbone_rest _ left right⟩
  · exact ⟨rfl, rfl⟩

end Heurema.Hnsw
