import Heurema.Hnsw.Levels
import Heurema.Hnsw.Links
import Heurema.Hnsw.Search

/-! # Every mutation keeps the invariant

A removal takes a node out of a sound graph and repairs layers and backbone; an
insertion removes the old node, puts an isolated one in, splices it into the
backbone and joins the layers from its level down. -/

namespace Heurema.Hnsw

open HnswIndex (joinLayer joinLayers descend considerNewEntry)
open Outcome (Ensures)

variable {Id : Type} [LinearOrder Id] {nodes nodes' : Nodes Id} {l : Nat} {a x y : Id}
  {config : HnswConfig} {node : Node Id}

theorem layer_erase (nodes : Nodes Id) (a : Id) (l : Nat) (x : Id) :
    layer (nodes.erase a) l x = if a = x then none else layer nodes l x := by
  rw [layer, BTreeMap.getElem?_erase_ite]
  split <;> rfl

theorem layer_insert (nodes : Nodes Id) (a : Id) (node : Node Id) (l : Nat) (x : Id) :
    layer (nodes.insert a node) l x = if a = x then node.neighbours[l]? else layer nodes l x := by
  rw [layer, BTreeMap.getElem?_insert_ite]
  split <;> rfl

theorem GraphOk.reaches_down (h : GraphOk config nodes) {l' : Nat} (hl : l ≤ l')
    (hx : Reaches nodes l' x) : Reaches nodes l x := by
  obtain ⟨node, hnode⟩ := mem_nodes.mp hx.mem
  have hshape := h.shape hnode
  exact (hshape.reaches hnode).mpr (hl.trans ((hshape.reaches hnode).mp hx))

theorem GraphOk.closed (h : GraphOk config nodes) (l : Nat) : Closed nodes l :=
  closed_of_inv h.shape (h.layers l).toLayerSymm fun hxy =>
    backbones_mem.mp (h.backbone.symm hxy).mem

/-- Writing the backbone only, cycle to cycle, keeps the graph sound. -/
theorem GraphOk.reboned (hshape : ∀ {x : Id} {node : Node Id}, nodes[x]? = some node →
      WellShaped config node) (hlayers : ∀ l, LayerOk config nodes l)
    (hrest : rest nodes' = rest nodes) (hbones : Cycle.IsCycle (backbones nodes')) :
    GraphOk config nodes' :=
  ⟨fun hx => rest_shape hrest hshape hx, fun l => rest_layerOk hrest (hlayers l), hbones⟩

/-! ## Removal -/

theorem GraphOk.dangling (h : GraphOk config nodes) (ha : nodes[a]? = some node) (l : Nat) :
    Dangling config (nodes.erase a) l a (node.neighbours[l]?.getD ∅) := by
  have hok := h.layers l
  have hlinked {x y : Id} : Linked (nodes.erase a) l x y ↔ x ≠ a ∧ Linked nodes l x y := by
    unfold Linked
    rw [layer_erase]
    by_cases hax : a = x
    · simp [hax]
    · simp [hax, Ne.symm hax]
  have hat : layer nodes l a = node.neighbours[l]? := by rw [layer, ha, Option.bind_some]
  refine ⟨by simp, fun {x} => ?_, fun x hx => hok.irrefl x (hlinked.mp hx).2,
    fun hy hxy => ?_, fun {x links} hx => ?_⟩
  · have hback : Linked nodes l a x ↔ x ∈ node.neighbours[l]?.getD ∅ := by
      unfold Linked
      rw [hat]
      cases node.neighbours[l]? <;> simp
    rw [hlinked, ← hback]
    constructor
    · exact fun hxa => hok.symm hxa.2
    · intro hax
      refine ⟨?_, hok.symm hax⟩
      rintro rfl
      exact hok.irrefl x hax
  · obtain ⟨-, hold⟩ := hlinked.mp hxy
    exact hlinked.mpr ⟨hy, hok.symm hold⟩
  · rw [layer_erase] at hx
    split at hx
    · cases hx
    · exact hok.degree hx

/-- The graph work of a removal: what is left is sound and holds the others as
they were. -/
theorem GraphOk.remove [VectorMath] (h : GraphOk config nodes) (ha : nodes[a]? = some node) :
    Ensures (detachLayers config a 0 (nodes.erase a) node.neighbours) fun nodes' =>
      GraphOk config (bypassBackbone nodes' a node.backbone.toList) ∧
      vectors (bypassBackbone nodes' a node.backbone.toList) = (vectors nodes).erase a ∧
      levels (bypassBackbone nodes' a node.backbone.toList) = levels (nodes.erase a) := by
  have hshape : ∀ {x : Id} {node : Node Id}, (nodes.erase a)[x]? = some node →
      WellShaped config node := by
    intro x other hx
    rw [BTreeMap.getElem?_erase_ite] at hx
    split at hx
    · cases hx
    · exact h.shape hx
  refine (detachLayers_spec node.neighbours 0 hshape (fun l hl => absurd hl (Nat.not_lt_zero l))
    fun l => by rw [Nat.zero_add]; exact h.dangling ha l).mono ?_
  rintro nodes' ⟨hfixed, hlayers⟩
  obtain ⟨hbones, hrest⟩ := bypassBackbone_spec nodes' a node.backbone.toList
  have herase : backbones (nodes.erase a) = (backbones nodes).erase a := by
    apply BTreeMap.ext_lookup
    intro x
    rw [backbones_lookup, BTreeMap.getElem?_erase_ite, BTreeMap.getElem?_erase_ite, backbones_lookup]
    split <;> rfl
  have hcycle : Cycle.IsCycle (backbones (bypassBackbone nodes' a node.backbone.toList)) := by
    rw [hbones, fixed_backbones hfixed, herase]
    exact Cycle.bypass_isCycle h.backbone (by rw [backbones_lookup, ha, Option.map_some])
  refine ⟨.reboned (fun hx => fixed_shape hfixed hshape hx) hlayers hrest hcycle, ?_, ?_⟩
  · rw [rest_vectors hrest, fixed_vectors hfixed]
    apply BTreeMap.ext_lookup
    intro x
    simp only [vectors, Std.ExtTreeMap.getElem?_map, BTreeMap.getElem?_erase_ite]
    split <;> rfl
  · rw [rest_levels hrest, fixed_levels hfixed]

theorem highestLevel_levels (h : levels nodes' = levels nodes) :
    highestLevel nodes' = highestLevel nodes := by
  rw [highestLevel_eq, highestLevel_eq, h]

theorem selectEntry_levels (h : levels nodes' = levels nodes) :
    selectEntry nodes' = selectEntry nodes := by
  rw [selectEntry_eq, selectEntry_eq, h, highestLevel_levels h]

/-- What a removal does to the whole index. -/
structure Removed (index : HnswIndex Id) (id : Id) (index' : HnswIndex Id) : Prop where
  inv : Inv index'
  config : index'.config = index.config
  levelState : index'.levelState = index.levelState
  vectors : vectors index'.nodes = (vectors index.nodes).erase id

theorem vectors_mem : x ∈ vectors nodes ↔ x ∈ nodes := by simp [vectors]

/-! ## An isolated node -/

/-- An isolated node changes no layer. -/
theorem layerOk_isolated (h : LayerOk config nodes l) (ha : a ∉ nodes)
    (hnode : ∀ links ∈ node.neighbours, links = ∅) : LayerOk config (nodes.insert a node) l := by
  have hat {links : BTreeSet Id} (hl : node.neighbours[l]? = some links) : links = ∅ :=
    hnode links (List.mem_of_getElem? hl)
  have hlinked {x y : Id} : Linked (nodes.insert a node) l x y ↔ Linked nodes l x y := by
    unfold Linked
    rw [layer_insert]
    split
    · next heq =>
      subst heq
      have hnone : layer nodes l a = none := by
        rw [layer, BTreeMap.not_mem_iff.mp ha, Option.bind_none]
      rw [hnone]
      constructor
      · rintro ⟨links, hl, hy⟩
        rw [hat hl] at hy
        simp at hy
      · rintro ⟨links, hl, -⟩
        cases hl
    · rfl
  refine ⟨⟨fun x hx => h.irrefl x (hlinked.mp hx), fun hxy => hlinked.mpr (h.symm (hlinked.mp hxy))⟩,
    fun {x links} hx => ?_⟩
  rw [layer_insert] at hx
  split at hx
  · rw [hat hx]
    simp
  · exact h.degree hx

theorem shape_insert (h : ∀ {x : Id} {node : Node Id}, nodes[x]? = some node → WellShaped config node)
    (hnode : WellShaped config node) {other : Node Id} (hx : (nodes.insert a node)[x]? = some other) :
    WellShaped config other := by
  rw [BTreeMap.getElem?_insert_ite] at hx
  split at hx
  · cases hx
    exact hnode
  · exact h hx

theorem backbones_insert (nodes : Nodes Id) (a : Id) (node : Node Id) :
    backbones (nodes.insert a node) = (backbones nodes).insert a node.backbone := by
  apply BTreeMap.ext_lookup
  intro x
  simp only [backbones, Std.ExtTreeMap.getElem?_map, BTreeMap.getElem?_insert_ite]
  split <;> rfl

theorem vectors_insert (nodes : Nodes Id) (a : Id) (node : Node Id) :
    vectors (nodes.insert a node) = (vectors nodes).insert a node.vector := by
  apply BTreeMap.ext_lookup
  intro x
  simp only [vectors, Std.ExtTreeMap.getElem?_map, BTreeMap.getElem?_insert_ite]
  split <;> rfl

/-! ## The operations -/

section Mutation

variable [VectorMath] {index : HnswIndex Id}

theorem removeNode_spec (h : Inv index) (id : Id) :
    Ensures (index.removeNode id) (Removed index id) := by
  unfold HnswIndex.removeNode
  cases hid : index.nodes[id]? with
  | none =>
    refine .ok ⟨h, rfl, rfl, ?_⟩
    rw [BTreeMap.erase_absent]
    simp [vectors, hid]
  | some node =>
    refine (h.toGraphOk.remove hid).bind ?_
    rintro nodes ⟨hgraph, hvectors, hlevels⟩
    simp only [Outcome.pure_eq]
    generalize bypassBackbone nodes id node.backbone.toList = left at hgraph hvectors hlevels
    split
    · next hempty =>
      obtain rfl : left = ∅ := by simpa using hempty
      exact .ok ⟨⟨hgraph, h.validConfig, h.levelState, rfl, rfl⟩, rfl, rfl, hvectors⟩
    split
    · exact .ok ⟨⟨hgraph, h.validConfig, h.levelState, rfl, rfl⟩, rfl, rfl, hvectors⟩
    · next hentry =>
      -- Some other node tops the table, and still does.
      obtain ⟨top, htop, htops⟩ := exists_tops (BTreeMap.mem_iff.mpr ⟨node, hid⟩)
      have hne : id ≠ top := by
        rintro rfl
        exact hentry (h.entryPoint.trans htop)
      obtain ⟨hselect, hhighest⟩ := tops_iff.mp (htops.erase hne)
      refine .ok ⟨⟨hgraph, h.validConfig, h.levelState, ?_, ?_⟩, rfl, rfl, hvectors⟩
      · rw [selectEntry_levels hlevels, hselect]
        exact h.entryPoint.trans htop
      · rw [highestLevel_levels hlevels, hhighest]
        exact h.maxLevel

theorem joinLayer_spec {id entry : Id} (h : GraphOk config nodes) (hid : Reaches nodes l id)
    (hentry : Reaches nodes l entry) (vector : List F32) (budget : Nat) :
    Ensures (joinLayer config id vector budget nodes entry l) fun joined =>
      Relinked l nodes joined.1 ∧ GraphOk config joined.1 ∧ Reaches joined.1 l joined.2 := by
  unfold joinLayer
  refine (searchLayer_spec (h.closed l) hentry budget).bind fun candidates hfound => ?_
  have hreach : ∀ c ∈ candidates.take (degreeLimit config l), Reaches nodes l c := fun c hc =>
    hfound.reaches c (List.mem_of_mem_take hc)
  refine (links_spec _ (h.layers l) hid hreach).bind ?_
  rintro nodes' ⟨hr, hok⟩
  have hgraph : GraphOk config nodes' := h.relinked hr.fixed fun l' => by
    by_cases hl : l' = l
    · subst hl
      exact hok
    · exact (h.layers l').relinked hr hl
  refine (greedyAtLevel_spec (hgraph.closed l) ((fixed_reaches hr.fixed).mpr hentry) budget).bind
    fun entry' hentry' => ?_
  exact .ok ⟨hr, hgraph, hentry'⟩

theorem joinLayers_spec {id entry : Id} (top : Nat) (h : GraphOk config nodes)
    (hid : Reaches nodes top id) (hentry : Reaches nodes top entry) (vector : List F32)
    (budget : Nat) : Ensures (joinLayers config id vector budget nodes entry top) fun nodes' =>
      fixed nodes' = fixed nodes ∧ GraphOk config nodes' := by
  induction top generalizing nodes entry with
  | zero =>
    rw [joinLayers]
    refine (joinLayer_spec h hid hentry vector budget).bind ?_
    rintro joined ⟨hr, hgraph, -⟩
    exact .ok ⟨hr.fixed, hgraph⟩
  | succ level ih =>
    rw [joinLayers]
    refine (joinLayer_spec h hid hentry vector budget).bind ?_
    rintro joined ⟨hr, hgraph, hnext⟩
    have hid' := hgraph.reaches_down (Nat.le_succ level) ((fixed_reaches hr.fixed).mpr hid)
    have hnext' := hgraph.reaches_down (Nat.le_succ level) hnext
    refine (ih hgraph hid' hnext').mono ?_
    rintro nodes' ⟨hfixed', hgraph'⟩
    exact ⟨hfixed'.trans hr.fixed, hgraph'⟩

/-- What an insertion that is not refused does to the whole index. -/
structure Inserted (index : HnswIndex Id) (id : Id) (vector : List F32) (index' : HnswIndex Id) :
    Prop where
  inv : Inv index'
  config : index'.config = index.config
  vectors : vectors index'.nodes = (vectors index.nodes).insert id vector

omit [VectorMath] in
theorem checkVector_eq_ok {vector : List F32} (h : checkVector config vector = .ok ()) :
    vector.length = config.dimensions ∧ vector.all F32.isFinite = true := by
  unfold checkVector at h
  cases hconfig : checkConfig config with
  | error e => simp [hconfig, bind, Except.bind] at h
  | ok _ =>
    simp only [hconfig, bind, Except.bind] at h
    split at h
    · cases h
    · next hdim =>
      unfold checkFinite at h
      split at h
      · next hfinite => exact ⟨not_not.mp hdim, hfinite⟩
      · cases h

omit [VectorMath] in
/-- A node put into an empty table tops it. -/
theorem Tops.singleton (a : Id) (node : Node Id) :
    Tops ((∅ : Nodes Id).insert a node) a node.level := by
  refine ⟨⟨node, by rw [BTreeMap.getElem?_insert_ite, if_pos rfl], rfl⟩, fun {y} other hy => ?_⟩
  rw [BTreeMap.getElem?_insert_ite] at hy
  split at hy
  · next heq =>
    cases hy
    exact .inr ⟨rfl, heq.le⟩
  · simp at hy

omit [VectorMath] in
theorem considerNewEntry_spec (index : HnswIndex Id) {entry : Id} {m : Nat}
    (hentry : index.entryPoint = some entry)
    (hmax : index.maxLevel = m) (htops : Tops nodes entry m) (ha : a ∉ nodes)
    (hlevels : levels index.nodes = levels (nodes.insert a node)) :
    considerNewEntry index a node.level = { index with
      entryPoint := selectEntry index.nodes, maxLevel := highestLevel index.nodes } := by
  have hinsert := htops.insert ha node
  rw [selectEntry_levels hlevels, highestLevel_levels hlevels]
  unfold considerNewEntry
  simp only [hentry, hmax, Option.all_some, decide_eq_true_eq]
  split
  · next hover =>
    rw [if_pos hover] at hinsert
    obtain ⟨hselect, hhighest⟩ := tops_iff.mp hinsert
    rw [hselect, hhighest]
  · next hunder =>
    rw [if_neg hunder] at hinsert
    obtain ⟨hselect, hhighest⟩ := tops_iff.mp hinsert
    rw [hselect, hhighest, ← hentry, ← hmax]

omit [VectorMath] in
/-- An isolated node with its place in the backbone: a sound graph, of the layers
there were. -/
theorem GraphOk.spliced {entry : Id} {m : Nat} (h : GraphOk config nodes) (ha : a ∉ nodes)
    (htops : Tops nodes entry m) (hshape : WellShaped config node)
    (hbare : ∀ links ∈ node.neighbours, links = ∅) (hbone : node.backbone = ∅) :
    Ensures (spliceBackbone (nodes.insert a node) a entry) fun spliced =>
      rest spliced = rest (nodes.insert a node) ∧ GraphOk config spliced ∧
      Reaches spliced m entry ∧ ∀ l ≤ node.level, Reaches spliced l a := by
  have hmem : entry ∈ nodes.insert a node := BTreeMap.mem_insert_iff.mpr (.inr htops.mem)
  refine (spliceBackbone_spec hmem).mono ?_
  rintro spliced ⟨hbones, hrest⟩
  have hcycle : Cycle.IsCycle (backbones spliced) := by
    rw [hbones, backbones_insert, hbone]
    exact Cycle.splice_isCycle h.backbone (backbones_mem.not.mpr ha) (backbones_mem.mpr htops.mem)
  have hgraph : GraphOk config spliced :=
    .reboned (fun hx => shape_insert h.shape hshape hx)
      (fun l => layerOk_isolated (h.layers l) ha hbare) hrest hcycle
  have hreach {l : Nat} {x : Id} : Reaches spliced l x ↔ Reaches (nodes.insert a node) l x := by
    rw [Reaches, Reaches, rest_layer hrest]
  refine ⟨hrest, hgraph, ?_, fun l hl => ?_⟩
  · obtain ⟨top, htop, rfl⟩ := htops.reached
    have hne : a ≠ entry := fun heq => ha (heq ▸ htops.mem)
    rw [hreach, Reaches, layer_insert, if_neg hne]
    exact ((h.shape htop).reaches htop).mpr (Nat.le_refl _)
  · have hlt : l < node.neighbours.length := by
      rw [hshape.layers]
      omega
    rw [hreach, Reaches, layer_insert, if_pos rfl, List.getElem?_eq_getElem hlt, Option.isSome_some]

/-- Wiring an isolated node into a graph that is sound without it. -/
theorem GraphOk.join {entry : Id} {level m : Nat} (h : GraphOk config nodes) (ha : a ∉ nodes)
    (htops : Tops nodes entry m) (hshape : WellShaped config node) (hlevel : node.level = level)
    (hbare : ∀ links ∈ node.neighbours, links = ∅) (hbone : node.backbone = ∅)
    (vector : List F32) (budget : Nat) :
    Ensures (do
      let nodes ← spliceBackbone (nodes.insert a node) a entry
      let entry ← descend config nodes vector budget level m entry
      joinLayers config a vector budget nodes entry (min level m)) fun nodes' =>
        GraphOk config nodes' ∧ vectors nodes' = (vectors nodes).insert a node.vector ∧
        levels nodes' = levels (nodes.insert a node) := by
  refine (h.spliced ha htops hshape hbare hbone).bind ?_
  rintro spliced ⟨hrest, hgraph, hentry, hnew⟩
  refine (descend_spec hgraph.closed hgraph.reaches_down budget level hentry).bind
    fun entry' hentry' => ?_
  have hnew := hnew (min level m) (hlevel ▸ Nat.min_le_left level m)
  refine (joinLayers_spec (min level m) hgraph hnew hentry' vector budget).mono ?_
  rintro nodes' ⟨hfixed, hgraph'⟩
  refine ⟨hgraph', ?_, ?_⟩
  · rw [fixed_vectors hfixed, rest_vectors hrest, vectors_insert]
  · rw [fixed_levels hfixed, rest_levels hrest]

theorem insert_spec (h : Inv index) (id : Id) {vector : List F32}
    (hvector : checkVector index.config vector = .ok ()) :
    Ensures (index.insert id vector) (Inserted index id vector) := by
  unfold HnswIndex.insert
  rw [hvector, Outcome.ofResult_ok, Outcome.ok_bind]
  refine (removeNode_spec h id).bind ?_
  rintro removed ⟨hinv, hconfig, hstate, hvectors⟩
  obtain ⟨hlevel, hstate'⟩ := nextLevel_spec hinv.levelState
  generalize nextLevel removed.levelState = drawn at hlevel hstate'
  obtain ⟨level, levelState⟩ := drawn
  have habsent : id ∉ removed.nodes := by
    rw [← vectors_mem, hvectors]
    simp
  simp only
  generalize hnode : ({ vector, level, neighbours := List.replicate (level + 1) ∅, backbone := ∅ } :
    Node Id) = node
  -- The new node, isolated so far.
  obtain ⟨hdim, hfinite⟩ := checkVector_eq_ok hvector
  have hshape : WellShaped removed.config node := by
    rw [hconfig, ← hnode]
    exact ⟨hdim, hfinite, hlevel, by simp⟩
  have hbare : ∀ links ∈ node.neighbours, links = ∅ := by
    rw [← hnode]
    exact fun links hl => List.eq_of_mem_replicate hl
  have hnodeLevel : node.level = level := by rw [← hnode]
  have hbone : node.backbone = ∅ := by rw [← hnode]
  have hstored : (vectors removed.nodes).insert id node.vector =
      (vectors index.nodes).insert id vector := by
    rw [hvectors, BTreeMap.insert_erase, ← hnode]
  cases hsurvivor : removed.entryPoint with
  | none =>
    have hempty : removed.nodes = ∅ := selectEntry_eq_none.mp (hinv.entryPoint ▸ hsurvivor)
    obtain ⟨hselect, hhighest⟩ := tops_iff.mp (Tops.singleton id node)
    refine .ok ⟨⟨⟨?_, ?_, ?_⟩, hinv.validConfig, hstate', ?_, ?_⟩, hconfig, ?_⟩
    · exact fun hx => shape_insert hinv.shape hshape hx
    · exact fun l => layerOk_isolated (hinv.layers l) habsent hbare
    · rw [backbones_insert, hempty, hbone]
      exact Cycle.isCycle_singleton id
    · rw [hempty, hselect]
    · rw [hempty, hhighest, hnodeLevel]
    · rw [vectors_insert, hstored]
  | some entry =>
    have htops : Tops removed.nodes entry removed.maxLevel :=
      tops_iff.mpr ⟨hinv.entryPoint ▸ hsurvivor, hinv.maxLevel.symm⟩
    obtain ⟨nodes, hjoin, hgraph, hvectors', hlevels⟩ :=
      hinv.toGraphOk.join habsent htops hshape hnodeLevel hbare hbone vector
        (max (max removed.config.efConstruction removed.config.mNeighbours) 1)
    obtain ⟨spliced, hspliced, hjoin⟩ := Outcome.bind_eq_ok.mp hjoin
    obtain ⟨entry', hentry', hjoin⟩ := Outcome.bind_eq_ok.mp hjoin
    simp only [hspliced, hentry', hjoin, Outcome.ok_bind, Outcome.pure_eq]
    rw [← hnodeLevel, considerNewEntry_spec { removed with nodes, levelState, entryPoint := some entry }
      rfl rfl htops habsent hlevels]
    exact .ok ⟨⟨hgraph, hinv.validConfig, hstate', rfl, rfl⟩, hconfig, hvectors'.trans hstored⟩

end Mutation

end Heurema.Hnsw
