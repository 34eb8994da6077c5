import Heurema.Data.Cycle
import Heurema.Hnsw.Engine

/-! # The graph invariant

`layer` reads one node's links at one layer, `Linked` is the edges of a layer,
`backbones` the base-layer cycle, and `Inv` is what the snapshot decoder checks.
`Relinked` is the frame of every link operation: it rewrites one layer and
nothing else. -/

namespace Heurema.Hnsw

variable {Id : Type} [LinearOrder Id] {nodes nodes' nodes'' : Nodes Id} {l l' : Nat} {a b x y : Id}

/-- The links of a node at a layer, when it reaches the layer. -/
def layer (nodes : Nodes Id) (l : Nat) (x : Id) : Option (BTreeSet Id) :=
  nodes[x]?.bind fun node => node.neighbours[l]?

/-- The node exists and holds a set of links at the layer. -/
def Reaches (nodes : Nodes Id) (l : Nat) (x : Id) : Prop := (layer nodes l x).isSome

def Linked (nodes : Nodes Id) (l : Nat) (x y : Id) : Prop :=
  ∃ links, layer nodes l x = some links ∧ y ∈ links

/-- The backbone as a graph of its own. -/
def backbones (nodes : Nodes Id) : Cycle.Adjacency Id := nodes.map fun _ node => node.backbone

/-- What a node owes the configuration. -/
structure WellShaped (config : HnswConfig) (node : Node Id) : Prop where
  dimension : node.vector.length = config.dimensions
  finite : node.vector.all F32.isFinite = true
  level : node.level ≤ 16
  layers : node.neighbours.length = node.level + 1

/-- Every link at the layer has its reciprocal, and none is a loop. -/
structure LayerSymm (nodes : Nodes Id) (l : Nat) : Prop where
  irrefl : ∀ x, ¬ Linked nodes l x x
  symm : ∀ {x y : Id}, Linked nodes l x y → Linked nodes l y x

/-- A reciprocal layer whose nodes keep within the degree limit. -/
structure LayerOk (config : HnswConfig) (nodes : Nodes Id) (l : Nat) : Prop extends
    LayerSymm nodes l where
  degree : ∀ {x : Id} {links : BTreeSet Id}, layer nodes l x = some links → links.size ≤ degreeLimit config l

/-- The graph part of the invariant. -/
structure GraphOk (config : HnswConfig) (nodes : Nodes Id) : Prop where
  shape : ∀ {x : Id} {node : Node Id}, nodes[x]? = some node → WellShaped config node
  layers : ∀ l, LayerOk config nodes l
  backbone : Cycle.IsCycle (backbones nodes)

/-- The invariant of the index. -/
structure Inv (index : HnswIndex Id) : Prop extends GraphOk index.config index.nodes where
  validConfig : validateConfig index.config = .ok ()
  levelState : index.levelState ≠ 0
  entryPoint : index.entryPoint = selectEntry index.nodes
  maxLevel : index.maxLevel = highestLevel index.nodes

theorem mem_nodes : x ∈ nodes ↔ ∃ node, nodes[x]? = some node := by
  rw [Std.ExtTreeMap.mem_iff_isSome_getElem?, Option.isSome_iff_exists]

theorem Reaches.mem (h : Reaches nodes l x) : x ∈ nodes := by
  unfold Reaches layer at h
  cases hx : nodes[x]? with
  | none => simp [hx] at h
  | some node => exact mem_nodes.mpr ⟨node, hx⟩

theorem Linked.reaches (h : Linked nodes l x y) : Reaches nodes l x := by
  obtain ⟨links, hlinks, -⟩ := h
  simp [Reaches, hlinks]

theorem LayerSymm.reaches (h : LayerSymm nodes l) (hxy : Linked nodes l x y) :
    Reaches nodes l y :=
  (h.symm hxy).reaches

theorem linked_iff {links : BTreeSet Id} (h : layer nodes l x = some links) :
    Linked nodes l x y ↔ y ∈ links := by
  constructor
  · rintro ⟨links', h', hy⟩
    rw [h] at h'
    cases h'
    exact hy
  · exact fun hy => ⟨links, h, hy⟩

/-- A shaped node reaches exactly the layers up to its level. -/
theorem WellShaped.reaches {config : HnswConfig} {node : Node Id} (h : WellShaped config node)
    (hx : nodes[x]? = some node) : Reaches nodes l x ↔ l ≤ node.level := by
  rw [Reaches, layer, hx, Option.bind_some, Option.isSome_iff_ne_none, ne_eq,
    List.getElem?_eq_none_iff, h.layers]
  omega

/-! ## The frame of the link operations -/

/-- What no link operation changes in a node. -/
def fixed (nodes : Nodes Id) : BTreeMap Id (List F32 × Nat × BTreeSet Id × Nat) :=
  nodes.map fun _ node => (node.vector, node.level, node.backbone, node.neighbours.length)

/-- At most the links of layer `l` differ. -/
structure Relinked (l : Nat) (nodes nodes' : Nodes Id) : Prop where
  fixed : fixed nodes' = fixed nodes
  others : ∀ {l'}, l' ≠ l → ∀ x, layer nodes' l' x = layer nodes l' x

theorem Relinked.refl (l : Nat) (nodes : Nodes Id) : Relinked l nodes nodes := ⟨rfl, fun _ _ => rfl⟩

theorem Relinked.trans (h : Relinked l nodes nodes') (h' : Relinked l nodes' nodes'') :
    Relinked l nodes nodes'' :=
  ⟨h'.fixed.trans h.fixed, fun hl x => (h'.others hl x).trans (h.others hl x)⟩

theorem fixed_lookup (nodes : Nodes Id) (x : Id) : (fixed nodes)[x]? =
    nodes[x]?.map fun node => (node.vector, node.level, node.backbone, node.neighbours.length) := by
  simp [fixed]

/-- A node of one table is a node of the other, but for its links. -/
theorem fixed_node (h : fixed nodes' = fixed nodes) {node' : Node Id} (hx : nodes'[x]? = some node') :
    ∃ node, nodes[x]? = some node ∧ node.vector = node'.vector ∧ node.level = node'.level ∧
      node.backbone = node'.backbone ∧ node.neighbours.length = node'.neighbours.length := by
  have hlookup := fixed_lookup nodes' x
  rw [h, fixed_lookup, hx] at hlookup
  cases hnode : nodes[x]? with
  | none => simp [hnode] at hlookup
  | some node => exact ⟨node, rfl, by simpa [hnode] using hlookup⟩

theorem fixed_mem (h : fixed nodes' = fixed nodes) : x ∈ nodes' ↔ x ∈ nodes := by
  have hkey (n : Nodes Id) : x ∈ n ↔ x ∈ fixed n := by simp [fixed]
  rw [hkey, h, ← hkey]

theorem fixed_reaches (h : fixed nodes' = fixed nodes) : Reaches nodes' l x ↔ Reaches nodes l x := by
  have hlen (n : Nodes Id) : Reaches n l x ↔ ∃ f, (fixed n)[x]? = some f ∧ l < f.2.2.2 := by
    rw [fixed_lookup]
    cases hx : n[x]? <;> simp [Reaches, layer, hx]
  rw [hlen, h, ← hlen]

theorem backbones_lookup (nodes : Nodes Id) (x : Id) :
    (backbones nodes)[x]? = nodes[x]?.map Node.backbone := by
  simp [backbones]

theorem backbones_mem : x ∈ backbones nodes ↔ x ∈ nodes := by simp [backbones]

theorem backbones_size (nodes : Nodes Id) : (backbones nodes).size = nodes.size := by
  simp [backbones]

theorem fixed_backbones (h : fixed nodes' = fixed nodes) : backbones nodes' = backbones nodes := by
  have hbones (n : Nodes Id) : backbones n = (fixed n).map fun _ f => f.2.2.1 := by
    apply BTreeMap.ext_lookup
    intro x
    simp [backbones, fixed]
  rw [hbones, h, ← hbones]

theorem fixed_shape {config : HnswConfig} (h : fixed nodes' = fixed nodes)
    (hshape : ∀ {x : Id} {node : Node Id}, nodes[x]? = some node → WellShaped config node) {node' : Node Id}
    (hx : nodes'[x]? = some node') : WellShaped config node' := by
  obtain ⟨node, hnode, hvector, hlevel, -, hlen⟩ := fixed_node h hx
  have hs := hshape hnode
  exact ⟨hvector ▸ hs.dimension, hvector ▸ hs.finite, hlevel ▸ hs.level,
    by rw [← hlen, ← hlevel]; exact hs.layers⟩

/-- The levels of a table in the order of its ids. -/
def levels (nodes : Nodes Id) : List (Id × Nat) :=
  nodes.toList.map fun entry => (entry.1, entry.2.level)

theorem fixed_levels (h : fixed nodes' = fixed nodes) : levels nodes' = levels nodes := by
  have hlevels (n : Nodes Id) : levels n = (fixed n).toList.map fun entry => (entry.1, entry.2.2.1) := by
    simp [levels, fixed, Std.ExtTreeMap.toList_map, Function.comp_def]
  rw [hlevels, h, ← hlevels]

theorem highestLevel_eq (nodes : Nodes Id) :
    highestLevel nodes = ((levels nodes).map Prod.snd).max?.getD 0 := by
  simp [highestLevel, levels, Function.comp_def]

theorem selectEntry_eq (nodes : Nodes Id) : selectEntry nodes =
    (((levels nodes).filter fun entry => entry.2 = highestLevel nodes).map Prod.fst).head? := by
  simp [selectEntry, levels, List.filter_map, Function.comp_def]

theorem LayerOk.relinked {config : HnswConfig} (h : LayerOk config nodes l')
    (hr : Relinked l nodes nodes') (hl : l' ≠ l) : LayerOk config nodes' l' := by
  have hlayer := hr.others hl
  have hlinked (x y : Id) : Linked nodes' l' x y ↔ Linked nodes l' x y := by
    simp [Linked, hlayer]
  refine ⟨⟨fun x => ?_, fun hxy => ?_⟩, fun hx => h.degree (by rwa [hlayer] at hx)⟩
  · rw [hlinked]
    exact h.irrefl x
  · rw [hlinked] at hxy ⊢
    exact h.symm hxy

/-- Rewriting links only, layer by sound layer, keeps the graph sound. -/
theorem GraphOk.relinked {config : HnswConfig} (h : GraphOk config nodes)
    (hfixed : fixed nodes' = fixed nodes) (hlayers : ∀ l, LayerOk config nodes' l) :
    GraphOk config nodes' :=
  ⟨fun hx => fixed_shape hfixed h.shape hx, hlayers, by rw [fixed_backbones hfixed]; exact h.backbone⟩

/-- What the index stores for its caller. -/
def vectors (nodes : Nodes Id) : BTreeMap Id (List F32) := nodes.map fun _ node => node.vector

theorem fixed_vectors (h : fixed nodes' = fixed nodes) : vectors nodes' = vectors nodes := by
  have hvectors (n : Nodes Id) : vectors n = (fixed n).map fun _ f => f.1 := by
    apply BTreeMap.ext_lookup
    intro x
    simp [vectors, fixed]
  rw [hvectors, h, ← hvectors]

end Heurema.Hnsw
