import Heurema.Hnsw.Snapshot

/-! # Where the snapshot decoder panics

The nodes are checked one after another, in the order of their ids. A link's
check reads the other end's list of layers, up to the level that end claims; an
end that is yet to be checked may claim more layers than it has. -/

namespace Heurema.Hnsw

open Outcome (Panics panics_then panics_bind panics_checkEach panics_index checkEach then_eq_ok
  checkEach_eq_ok)

variable {Id : Type} [LinearOrder Id] {nodes : Nodes Id} {config : HnswConfig}
  {id neighbour x y : Id} {l : Nat} {links : BTreeSet Id} {node : Node Id}

/-! ## What a snapshot should be -/

/-- A link to another node that reaches the layer and links back. -/
structure LinkOk (nodes : Nodes Id) (id : Id) (l : Nat) (neighbour : Id) : Prop where
  other : neighbour ≠ id
  reaches : ∃ other, nodes[neighbour]? = some other ∧ l ≤ other.level
  reciprocal : Linked nodes l neighbour id

/-- The links of a node at one layer. -/
structure LinksOk (config : HnswConfig) (nodes : Nodes Id) (id : Id) (l : Nat) (links : BTreeSet Id) :
    Prop where
  degree : links.size ≤ degreeLimit config l
  links : ∀ neighbour ∈ links, LinkOk nodes id l neighbour

/-- All that is checked of one node. -/
structure NodeOk (config : HnswConfig) (nodes : Nodes Id) (id : Id) (node : Node Id) : Prop where
  shape : WellShaped config node
  layers : ∀ {l links}, node.neighbours[l]? = some links → LinksOk config nodes id l links
  bones : ∀ neighbour ∈ node.backbone, neighbour ≠ id ∧ Cycle.Edge (backbones nodes) neighbour id

/-- The fields beside the nodes. -/
structure HeaderOk (raw : RawHnswIndex Id) : Prop where
  config : validateConfig raw.config = .ok ()
  levelState : raw.levelState ≠ 0
  entryPoint : raw.entryPoint = selectEntry raw.nodes
  maxLevel : raw.maxLevel = highestLevel raw.nodes

/-- A snapshot whose nodes agree with each other. -/
structure GraphAgrees (raw : RawHnswIndex Id) : Prop where
  layers : ∀ {id : Id} {node : Node Id}, raw.nodes[id]? = some node →
    node.neighbours.length = node.level + 1
  links : ∀ {id : Id} {node : Node Id} {l : Nat} {links : BTreeSet Id}, raw.nodes[id]? = some node →
    node.neighbours[l]? = some links → LinksOk raw.config raw.nodes id l links
  backbone : Cycle.IsCycle (backbones raw.nodes)

/-! ## The checks of one node -/

@[simp] theorem panics_require {condition : Prop} [Decidable condition] {reason : String} :
    ¬ Panics (require condition reason) := by
  unfold require
  split <;> simp

/-- The other end of a link claims to reach its layer and has no list for it. -/
structure Overlong (nodes : Nodes Id) (id : Id) (l : Nat) (neighbour : Id) : Prop where
  other : neighbour ≠ id
  missing : ∃ other, nodes[neighbour]? = some other ∧ l ≤ other.level ∧ other.neighbours.length ≤ l

theorem checkLink_ok : checkLink nodes id l neighbour = .ok () ↔ LinkOk nodes id l neighbour := by
  rw [checkLink_eq_ok]
  exact ⟨fun ⟨hother, hreaches, hlinked⟩ => ⟨hother, hreaches, hlinked⟩,
    fun h => ⟨h.other, h.reaches, h.reciprocal⟩⟩

theorem panics_checkLink : Panics (checkLink nodes id l neighbour) ↔
    Overlong nodes id l neighbour := by
  have hsplit : Overlong nodes id l neighbour ↔ neighbour ≠ id ∧ ∃ other,
      nodes[neighbour]? = some other ∧ l ≤ other.level ∧ other.neighbours.length ≤ l :=
    ⟨fun h => ⟨h.other, h.missing⟩, fun ⟨hother, hmissing⟩ => ⟨hother, hmissing⟩⟩
  rw [hsplit]
  unfold checkLink
  cases hn : nodes[neighbour]? with
  | none => simp [panics_then, require_eq_ok]
  | some other =>
    simp only [panics_then, panics_require, require_eq_ok, false_or]
    simp only [panics_bind, panics_require, panics_index, and_false, exists_false, or_false,
      Option.some.injEq, exists_eq_left']

theorem checkLayer_ok : checkLayer config nodes id (links, l) = .ok () ↔
    LinksOk config nodes id l links := by
  simp only [checkLayer, then_eq_ok, require_eq_ok, checkEach_eq_ok, Std.ExtTreeSet.mem_toList,
    checkLink_ok]
  exact ⟨fun h => ⟨h.1, h.2⟩, fun h => ⟨h.degree, h.links⟩⟩

theorem panics_checkLayer : Panics (checkLayer config nodes id (links, l)) ↔
    links.size ≤ degreeLimit config l ∧ ∃ neighbour ∈ links, Overlong nodes id l neighbour ∧
      ∀ earlier ∈ links, earlier < neighbour → LinkOk nodes id l earlier := by
  simp only [checkLayer, panics_then, panics_require, false_or, require_eq_ok,
    panics_checkEach (BTreeSet.toList_sorted links) (fun a => lt_irrefl a)
      (fun _ _ h => lt_asymm h),
    Std.ExtTreeSet.mem_toList, panics_checkLink, checkLink_ok]

theorem not_panics_checkBone : ¬ Panics (checkBone nodes id neighbour) := by
  unfold checkBone
  cases nodes[neighbour]? <;> simp [panics_then]

theorem checkNode_ok : checkNode config nodes (id, node) = .ok () ↔ NodeOk config nodes id node := by
  rw [checkNode_eq_ok]
  constructor
  · rintro ⟨hshape, hlinks, hbones⟩
    refine ⟨hshape, fun hl => ⟨(hlinks hl).1, fun y hy => checkLink_ok.mp ((hlinks hl).2 y hy)⟩,
      fun y hy => checkBone_eq_ok.mp (hbones y hy)⟩
  · intro h
    exact ⟨h.shape, fun hl => ⟨(h.layers hl).degree, fun y hy => checkLink_ok.mpr
      ((h.layers hl).links y hy)⟩, fun y hy => checkBone_eq_ok.mpr (h.bones y hy)⟩

/-- A check overruns at one layer of a node, having passed what comes before. -/
structure OverrunsAt (config : HnswConfig) (nodes : Nodes Id) (id : Id) (node : Node Id) (l : Nat)
    (neighbour : Id) : Prop where
  shape : WellShaped config node
  layers : ∀ {l' links}, l' < l → node.neighbours[l']? = some links → LinksOk config nodes id l' links
  links : ∃ links, node.neighbours[l]? = some links ∧ links.size ≤ degreeLimit config l ∧
    neighbour ∈ links ∧ ∀ earlier ∈ links, earlier < neighbour → LinkOk nodes id l earlier
  overlong : Overlong nodes id l neighbour

theorem not_panics_checkShape : ¬ Panics (checkShape config node) := by
  unfold checkShape
  simp only [panics_then, panics_require, false_or, require_eq_ok, not_and]
  rintro ⟨-, -, hlevel⟩
  rw [usizeAdd_ok (level_fits hlevel), Outcome.ok_bind]
  exact panics_require

theorem panics_checkNode : Panics (checkNode config nodes (id, node)) ↔
    ∃ l neighbour, OverrunsAt config nodes id node l neighbour := by
  have hsorted : node.neighbours.zipIdx.Pairwise fun a b => a.2 < b.2 :=
    List.pairwise_iff_getElem.mpr fun i j hi hj hij => by simpa using hij
  have hbones : ¬ Panics (checkEach (checkBone nodes id) node.backbone.toList) := by
    rw [panics_checkEach (BTreeSet.toList_sorted _) (fun a => lt_irrefl a) (fun _ _ h => lt_asymm h)]
    rintro ⟨neighbour, -, hpanics, -⟩
    exact not_panics_checkBone hpanics
  unfold checkNode
  simp only [panics_then, not_panics_checkShape, false_or, checkShape_eq_ok, hbones, and_false, or_false,
    panics_checkEach hsorted (fun a => lt_irrefl a.2) (fun _ _ h => lt_asymm h), Prod.exists,
    List.mk_mem_zipIdx_iff_getElem?, panics_checkLayer, Prod.forall, checkLayer_ok]
  constructor
  · rintro ⟨hshape, links, l, hl, ⟨hdegree, neighbour, hmem, hover, hbefore⟩, hearlier⟩
    exact ⟨l, neighbour, hshape, fun hlt hl' => hearlier _ _ hl' hlt,
      ⟨links, hl, hdegree, hmem, hbefore⟩, hover⟩
  · rintro ⟨l, neighbour, hshape, hearlier, ⟨links, hl, hdegree, hmem, hbefore⟩, hover⟩
    exact ⟨hshape, links, l, hl, ⟨hdegree, neighbour, hmem, hover, hbefore⟩,
      fun _ _ hl' hlt => hearlier hlt hl'⟩

/-! ## The whole decoder -/

/-- The snapshots on which the decoder reads past a list: the check of some node,
after all nodes before it are found sound, comes to an overlong link. -/
structure Overruns (raw : RawHnswIndex Id) : Prop where
  header : HeaderOk raw
  node : ∃ id node l neighbour, raw.nodes[id]? = some node ∧
    (∀ {x : Id} {earlier : Node Id}, raw.nodes[x]? = some earlier → x < id →
      NodeOk raw.config raw.nodes x earlier) ∧
    OverrunsAt raw.config raw.nodes id node l neighbour

/-- The walk of a symmetric backbone does not panic. -/
theorem not_panics_checkBackbone (hsymm : ∀ {x y : Id}, Cycle.Edge (backbones nodes) x y →
    Cycle.Edge (backbones nodes) y x) : ¬ Panics (checkBackbone nodes) := by
  unfold checkBackbone
  cases hkeys : nodes.keys.head? with
  | none => simp [panics_then]
  | some start =>
    have hstart : start ∈ nodes := by
      simpa using List.mem_of_mem_head? (Option.mem_def.mpr hkeys)
    obtain ⟨seen, hwalk, -⟩ := walkBackbone_start hsymm hstart
    simp [panics_then, hwalk]

theorem panics_tryFrom {raw : RawHnswIndex Id} : Panics (HnswIndex.tryFrom raw) ↔ Overruns raw := by
  have hnodes : Panics (checkEach (checkNode raw.config raw.nodes) raw.nodes.toList) ↔
      ∃ id node l neighbour, raw.nodes[id]? = some node ∧
        (∀ {x : Id} {earlier : Node Id}, raw.nodes[x]? = some earlier → x < id →
          NodeOk raw.config raw.nodes x earlier) ∧
        OverrunsAt raw.config raw.nodes id node l neighbour := by
    rw [panics_checkEach (BTreeMap.toList_sorted raw.nodes) (fun a => lt_irrefl a.1)
      (fun _ _ h => lt_asymm h)]
    simp only [Prod.exists, Prod.forall, BTreeMap.mem_toList, panics_checkNode, checkNode_ok]
    constructor
    · rintro ⟨id, node, hid, ⟨l, neighbour, hover⟩, hearlier⟩
      exact ⟨id, node, l, neighbour, hid, fun hx hlt => hearlier _ _ hx hlt, hover⟩
    · rintro ⟨id, node, l, neighbour, hid, hearlier, hover⟩
      exact ⟨id, node, hid, ⟨l, neighbour, hover⟩, fun _ _ hx hlt => hearlier hx hlt⟩
  have hbackbone (h : checkEach (checkNode raw.config raw.nodes) raw.nodes.toList = .ok ()) :
      ¬ Panics (do if ¬ raw.nodes.isEmpty then checkBackbone raw.nodes
                   .ok { raw with } : Decoded (HnswIndex Id)) := by
    obtain ⟨-, -, -, hsymm⟩ := checkNodes_eq_ok.mp h
    split
    · rw [panics_then]
      simp [not_panics_checkBackbone hsymm]
    · exact Outcome.panics_ok
  unfold HnswIndex.tryFrom
  simp only [panics_then, Outcome.panics_ofResult, panics_require, false_or, require_eq_ok, hnodes,
    Outcome.ofResult_eq_ok, Outcome.pure_eq]
  constructor
  · rintro ⟨hconfig, hstate, hentry, hmax, hnode | ⟨hok, hpanics⟩⟩
    · exact ⟨⟨hconfig, hstate, hentry, hmax⟩, hnode⟩
    · exact absurd hpanics (hbackbone hok)
  · rintro ⟨⟨hconfig, hstate, hentry, hmax⟩, hnode⟩
    exact ⟨hconfig, hstate, hentry, hmax, .inl hnode⟩

theorem graphAgrees_of_ok {raw : RawHnswIndex Id} {index : HnswIndex Id}
    (h : HnswIndex.tryFrom raw = .ok index) : GraphAgrees raw := by
  obtain ⟨rfl, hinv⟩ := tryFrom_eq_ok.mp h
  have hnodes : checkEach (checkNode index.config index.nodes) index.nodes.toList = .ok () :=
    checkNodes_eq_ok.mpr ⟨hinv.shape, hinv.layers, hinv.backbone.irrefl, hinv.backbone.symm⟩
  refine ⟨fun hid => (hinv.shape hid).layers, fun {id node l links} hid hl => ?_, hinv.backbone⟩
  have hnode := checkEach_eq_ok.mp hnodes (id, node) (BTreeMap.mem_toList.mpr hid)
  exact (checkNode_ok.mp hnode).layers hl

/-- The decoder returns on every snapshot and refuses those whose nodes disagree,
unless a check comes to an overlong link first. -/
theorem decoder_total (raw : RawHnswIndex Id) :
    (((∃ index, HnswIndex.tryFrom raw = .ok index) ∨
        ∃ reason, HnswIndex.tryFrom raw = Outcome.refuse reason) ∧
      (¬ GraphAgrees raw → ∃ reason, HnswIndex.tryFrom raw = Outcome.refuse reason)) ↔
    ¬ Overruns raw := by
  rw [← panics_tryFrom]
  cases hraw : HnswIndex.tryFrom raw with
  | ok index =>
    have hagrees := graphAgrees_of_ok hraw
    refine iff_of_true ⟨.inl ⟨index, rfl⟩, fun h => absurd hagrees h⟩ Outcome.panics_ok
  | error failure =>
    cases failure with
    | refused reason =>
      exact iff_of_true ⟨.inr ⟨reason, rfl⟩, fun _ => ⟨reason, rfl⟩⟩ Outcome.panics_refuse
    | panicked reason =>
      refine iff_of_false ?_ (not_not.mpr ⟨reason, rfl⟩)
      rintro ⟨⟨index, h⟩ | ⟨reason', h⟩, -⟩
      · cases h
      · cases h

/-- Two nodes of the base layer, the second without its list of links. -/
def truncated : RawHnswIndex Nat :=
  { config := { dimensions := 1, distance := .l2, efConstruction := 1, mNeighbours := 1 }
    nodes := ((∅ : BTreeMap _ _).insert 0
        ⟨[⟨0#32⟩], 0, [(∅ : BTreeSet _).insert 1], (∅ : BTreeSet _).insert 1⟩).insert 1
      ⟨[⟨0#32⟩], 0, [], (∅ : BTreeSet _).insert 0⟩
    entryPoint := some 0
    maxLevel := 0
    levelState := 1#64 }

/-- The first node's link is followed into the list that the second does not have. -/
theorem truncated_overruns : HnswIndex.tryFrom truncated = Outcome.panic "index out of bounds" ∧
    ¬ GraphAgrees truncated ∧ Overruns truncated := by
  have hpanic : HnswIndex.tryFrom truncated = Outcome.panic "index out of bounds" := by
    decide +kernel
  refine ⟨hpanic, fun h => ?_, panics_tryFrom.mp ⟨_, hpanic⟩⟩
  have hnode : truncated.nodes[1]? = some ⟨[⟨0#32⟩], 0, [], (∅ : BTreeSet _).insert 0⟩ := by
    decide +kernel
  have := h.layers hnode
  simp at this

end Heurema.Hnsw

