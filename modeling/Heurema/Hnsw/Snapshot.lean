import Heurema.Hnsw.Invariant

/-! # The snapshot decoder

`tryFrom` checks the fields of a snapshot against each other. It accepts exactly
the snapshots whose index has the invariant. -/

namespace Heurema.Hnsw

open Outcome (checkEach then_eq_ok checkEach_eq_ok)

variable {Id : Type} [LinearOrder Id]

abbrev Decoded := Outcome String

/-- Refuses for a reason unless the condition holds. -/
def require (condition : Prop) [Decidable condition] (reason : String) : Decoded Unit :=
  if condition then .ok () else Outcome.refuse reason

def checkLink (nodes : Nodes Id) (id : Id) (level : Nat) (neighbour : Id) : Decoded Unit := do
  require (neighbour ≠ id) "HNSW snapshot has a self-neighbour"
  match nodes[neighbour]? with
  | none => Outcome.refuse "HNSW snapshot has a dangling neighbour"
  | some other =>
    require (level ≤ other.level) "HNSW snapshot has a non-reciprocal neighbour"
    let back ← Outcome.index other.neighbours level
    require (id ∈ back) "HNSW snapshot has a non-reciprocal neighbour"

def checkLayer (config : HnswConfig) (nodes : Nodes Id) (id : Id) (layer : BTreeSet Id × Nat) :
    Decoded Unit := do
  require (layer.1.size ≤ degreeLimit config layer.2)
    "HNSW snapshot exceeds a normal-link degree limit"
  checkEach (checkLink nodes id layer.2) layer.1.toList

def checkBone (nodes : Nodes Id) (id : Id) (neighbour : Id) : Decoded Unit := do
  require (neighbour ≠ id) "HNSW snapshot has a self backbone link"
  match nodes[neighbour]? with
  | none => Outcome.refuse "HNSW snapshot has a dangling backbone link"
  | some other => require (id ∈ other.backbone) "HNSW snapshot has a non-reciprocal backbone link"

/-- One is added only to a level that is small enough. -/
def checkShape (config : HnswConfig) (node : Node Id) : Decoded Unit := do
  require (node.vector.length = config.dimensions ∧ node.vector.all F32.isFinite ∧ node.level ≤ 16)
    "HNSW snapshot node shape disagrees with configuration"
  let layers ← usizeAdd node.level 1
  require (node.neighbours.length = layers)
    "HNSW snapshot node shape disagrees with configuration"

def checkNode (config : HnswConfig) (nodes : Nodes Id) (entry : Id × Node Id) : Decoded Unit := do
  let (id, node) := entry
  checkShape config node
  checkEach (checkLayer config nodes id) node.neighbours.zipIdx
  checkEach (checkBone nodes id) node.backbone.toList

/-- The nodes a walk of the backbone has yet to see. -/
def unseen (nodes : Nodes Id) (seen : BTreeSet Id) : Nat := (nodes.keys.filter (· ∉ seen)).length

/-- More than one node of the backbone adds to the stack. -/
def boneBreadth (nodes : Nodes Id) : Nat := BTreeMap.sumBy (fun node => node.backbone.size) nodes + 1

theorem unseen_insert {nodes : Nodes Id} {seen : BTreeSet Id} {id : Id} (hid : id ∈ nodes)
    (hnew : id ∉ seen) : unseen nodes (seen.insert id) < unseen nodes seen := by
  unfold unseen
  have hsplit : nodes.keys.filter (· ∉ seen.insert id) =
      (nodes.keys.filter (· ∉ seen)).filter (· ≠ id) := by
    rw [List.filter_filter]
    apply List.filter_congr
    intro x _
    simp [BTreeSet.mem_insert_iff, -Std.ExtTreeSet.mem_insert]
  rw [hsplit]
  exact List.length_filter_lt_length_iff_exists.mpr
    ⟨id, List.mem_filter.mpr ⟨by simpa using hid, by simpa using hnew⟩, by simp⟩

set_option linter.unusedVariables false in
/-- Walks the backbone with a stack, whose top is the list's head. -/
def walkBackbone (nodes : Nodes Id) (seen : BTreeSet Id) : List Id → Decoded (BTreeSet Id)
  | [] => .ok seen
  | id :: pending =>
    if hseen : id ∈ seen then walkBackbone nodes seen pending
    else
      match hnode : nodes[id]? with
      | none => Outcome.panic "no entry found for key"
      | some node =>
        walkBackbone nodes (seen.insert id) (node.backbone.toList.reverse ++ pending)
termination_by pending => unseen nodes seen * boneBreadth nodes + pending.length
decreasing_by
  · simp
  · have hlt := unseen_insert (BTreeMap.mem_iff.mpr ⟨node, hnode⟩) hseen
    have hle := BTreeMap.le_sumBy (fun node : Node Id => node.backbone.size) hnode
    have hmul := Nat.mul_le_mul_right (boneBreadth nodes) (Nat.succ_le_of_lt hlt)
    simp only [List.length_append, List.length_reverse, Std.ExtTreeSet.length_toList,
      List.length_cons]
    rw [Nat.succ_mul] at hmul
    simp only [boneBreadth] at hmul ⊢
    omega

/-- The checks of a backbone that is not empty. -/
def checkBackbone (nodes : Nodes Id) : Decoded Unit := do
  let degrees := nodes.toList.map fun entry => entry.2.backbone.size
  let count := nodes.size
  let expectedDegree := if count = 1 then 0 else if count = 2 then 1 else 2
  require (degrees.all (· = expectedDegree))
    "HNSW snapshot backbone does not have its bounded cycle degree"
  let expectedEdges := if count = 1 then 0 else if count = 2 then 1 else count
  -- Each degree is two at most, and no memory holds enough nodes for their sum to overflow.
  require (degrees.sum / 2 = expectedEdges) "HNSW snapshot backbone is not a cycle"
  match nodes.keys.head? with
  | none => Outcome.refuse "HNSW snapshot has no backbone root"
  | some start => do
    let seen ← walkBackbone nodes ∅ [start]
    require (seen.size = count) "HNSW snapshot backbone is disconnected"

/-- `TryFrom<RawHnswIndex>`. -/
def HnswIndex.tryFrom (raw : RawHnswIndex Id) : Decoded (HnswIndex Id) := do
  Outcome.ofResult (validateConfig raw.config)
  require (raw.levelState ≠ 0) "HNSW snapshot PRNG state must be non-zero"
  require (raw.entryPoint = selectEntry raw.nodes)
    "HNSW snapshot entry point disagrees with graph levels"
  require (raw.maxLevel = highestLevel raw.nodes)
    "HNSW snapshot max level disagrees with graph nodes"
  checkEach (checkNode raw.config raw.nodes) raw.nodes.toList
  if ¬ raw.nodes.isEmpty then checkBackbone raw.nodes
  return { raw with }

/-! ## What the checks say -/

variable {nodes : Nodes Id} {config : HnswConfig} {id neighbour x y : Id} {l : Nat} {node : Node Id}

theorem require_eq_ok {condition : Prop} [Decidable condition] {reason : String} :
    require condition reason = .ok () ↔ condition := by
  unfold require
  split
  · next h => simp [h]
  · next h => simp [h, Outcome.refuse]

theorem checkLink_eq_ok : checkLink nodes id l neighbour = .ok () ↔ neighbour ≠ id ∧
    (∃ other, nodes[neighbour]? = some other ∧ l ≤ other.level) ∧ Linked nodes l neighbour id := by
  unfold checkLink
  rw [then_eq_ok, require_eq_ok]
  cases hn : nodes[neighbour]? with
  | none => simp [Outcome.refuse]
  | some other =>
    simp only [then_eq_ok, require_eq_ok]
    simp only [Outcome.bind_eq_ok, require_eq_ok, Outcome.index_eq_ok_iff, Linked, layer, hn,
      Option.bind_some, Option.some.injEq, exists_eq_left']

theorem checkBone_eq_ok : checkBone nodes id neighbour = .ok () ↔
    neighbour ≠ id ∧ Cycle.Edge (backbones nodes) neighbour id := by
  unfold checkBone
  rw [then_eq_ok, require_eq_ok]
  cases hn : nodes[neighbour]? with
  | none => simp [Outcome.refuse, Cycle.Edge, backbones, hn]
  | some other => simp [require_eq_ok, Cycle.Edge, backbones, hn]

theorem level_fits {level : Nat} (h : level ≤ 16) : level + 1 < usizeLimit :=
  (Nat.succ_le_succ h).trans_lt (by decide : 17 < usizeLimit)

theorem checkShape_eq_ok : checkShape config node = .ok () ↔ WellShaped config node := by
  unfold checkShape
  rw [then_eq_ok, require_eq_ok]
  constructor
  · intro ⟨⟨hdim, hfinite, hlevel⟩, hlayers⟩
    rw [usizeAdd_ok (level_fits hlevel), Outcome.ok_bind, require_eq_ok] at hlayers
    exact ⟨hdim, hfinite, hlevel, hlayers⟩
  · intro ⟨hdim, hfinite, hlevel, hlayers⟩
    rw [usizeAdd_ok (level_fits hlevel), Outcome.ok_bind, require_eq_ok]
    exact ⟨⟨hdim, hfinite, hlevel⟩, hlayers⟩

theorem checkNode_eq_ok : checkNode config nodes (id, node) = .ok () ↔ WellShaped config node ∧
    (∀ {l : Nat} {links : BTreeSet Id}, node.neighbours[l]? = some links →
      links.size ≤ degreeLimit config l ∧
      ∀ neighbour ∈ links, checkLink nodes id l neighbour = .ok ()) ∧
    ∀ neighbour ∈ node.backbone, checkBone nodes id neighbour = .ok () := by
  unfold checkNode
  simp only [then_eq_ok, require_eq_ok, checkShape_eq_ok, checkEach_eq_ok, checkLayer,
    List.mk_mem_zipIdx_iff_getElem?, Prod.forall, Std.ExtTreeSet.mem_toList]
  constructor
  · intro ⟨hshape, hlinks, hbones⟩
    exact ⟨hshape, fun hl => hlinks _ _ hl, hbones⟩
  · intro ⟨hshape, hlinks, hbones⟩
    exact ⟨hshape, fun _ _ hl => hlinks hl, hbones⟩

/-! ## The walk -/

/-- A walk from `start` that has seen some nodes and has others pending. -/
structure Walking (nodes : Nodes Id) (start : Id) (seen : BTreeSet Id) (pending : List Id) :
    Prop where
  reached : ∀ x, x ∈ seen ∨ x ∈ pending → Relation.ReflTransGen (Cycle.Edge (backbones nodes)) start x
  start : start ∈ seen ∨ start ∈ pending
  walked : ∀ x y, x ∈ seen → Cycle.Edge (backbones nodes) x y → y ∈ seen ∨ y ∈ pending

/-- The walk returns what the backbone connects with its start. -/
theorem walkBackbone_spec {start : Id} {seen : BTreeSet Id} {pending : List Id}
    (hnodes : ∀ x, Relation.ReflTransGen (Cycle.Edge (backbones nodes)) start x → x ∈ nodes)
    (h : Walking nodes start seen pending) : Outcome.Ensures (walkBackbone nodes seen pending)
      fun seen => ∀ x, x ∈ seen ↔ Relation.ReflTransGen (Cycle.Edge (backbones nodes)) start x := by
  fun_induction walkBackbone nodes seen pending with
  | case1 seen =>
    refine .ok fun x => ⟨fun hx => h.reached x (.inl hx), fun hpath => ?_⟩
    induction hpath with
    | refl => simpa using h.start
    | tail _ hstep ih => simpa using h.walked _ _ ih hstep
  | case2 seen id pending hseen ih =>
    have hhead {x : Id} (hx : x ∈ seen ∨ x ∈ id :: pending) : x ∈ seen ∨ x ∈ pending := by
      rcases hx with hx | hx
      · exact .inl hx
      · rcases List.mem_cons.mp hx with rfl | hx
        · exact .inl hseen
        · exact .inr hx
    exact ih ⟨fun x hx => h.reached x (hx.imp_right (List.mem_cons_of_mem _)), hhead h.start,
      fun x y hx hxy => hhead (h.walked x y hx hxy)⟩
  | case3 seen id pending hseen hnode =>
    obtain ⟨node, hnode'⟩ := mem_nodes.mp (hnodes id (h.reached id (.inr (by simp))))
    rw [hnode] at hnode'
    cases hnode'
  | case4 seen id pending hseen node hnode ih =>
    have hreached := h.reached id (.inr (by simp))
    have hstep {x : Id} : x ∈ node.backbone.toList.reverse ↔ Cycle.Edge (backbones nodes) id x := by
      simp [Cycle.Edge, backbones, hnode]
    have hhead {x : Id} (hx : x ∈ seen ∨ x ∈ id :: pending) :
        x ∈ seen.insert id ∨ x ∈ node.backbone.toList.reverse ++ pending := by
      rw [BTreeSet.mem_insert_iff, List.mem_append]
      rcases hx with hx | hx
      · exact .inl (.inr hx)
      · rcases List.mem_cons.mp hx with rfl | hx
        · exact .inl (.inl rfl)
        · exact .inr (.inr hx)
    refine ih ⟨fun x hx => ?_, hhead h.start, fun x y hx hxy => ?_⟩
    · rw [BTreeSet.mem_insert_iff, List.mem_append] at hx
      rcases hx with (rfl | hx) | hx | hx
      · exact hreached
      · exact h.reached x (.inl hx)
      · exact hreached.tail (hstep.mp hx)
      · exact h.reached x (.inr (List.mem_cons_of_mem _ hx))
    · rcases BTreeSet.mem_insert_iff.mp hx with rfl | hx
      · exact .inr (List.mem_append_left _ (hstep.mpr hxy))
      · exact hhead (h.walked x y hx hxy)

theorem mem_of_path (hsymm : ∀ {x y : Id}, Cycle.Edge (backbones nodes) x y →
      Cycle.Edge (backbones nodes) y x) {start : Id} (hstart : start ∈ nodes)
    (hx : Relation.ReflTransGen (Cycle.Edge (backbones nodes)) start x) : x ∈ nodes := by
  cases hx with
  | refl => exact hstart
  | tail _ hstep => exact backbones_mem.mp (hsymm hstep).mem

/-- The walk of a symmetric backbone does not leave the table. -/
theorem walkBackbone_start (hsymm : ∀ {x y : Id}, Cycle.Edge (backbones nodes) x y →
      Cycle.Edge (backbones nodes) y x) {start : Id} (hstart : start ∈ nodes) :
    Outcome.Ensures (walkBackbone nodes ∅ [start]) fun seen =>
      ∀ x, x ∈ seen ↔ Relation.ReflTransGen (Cycle.Edge (backbones nodes)) start x := by
  refine walkBackbone_spec (fun x hx => mem_of_path hsymm hstart hx)
    ⟨fun x hx => ?_, by simp, by simp⟩
  obtain rfl : x = start := by simpa using hx
  exact .refl

/-- Two ways to say that a set of nodes is all of them. -/
theorem size_eq_iff {seen : BTreeSet Id} (hsub : ∀ x, x ∈ seen → x ∈ nodes) :
    seen.size = nodes.size ↔ ∀ x, x ∈ nodes → x ∈ seen := by
  have hseen : seen.toList.Nodup := BTreeSet.toList_nodup seen
  have hkeys : nodes.keys.Nodup := (BTreeMap.keys_sorted nodes).imp fun h => ne_of_lt h
  have hsubperm : seen.toList.Subperm nodes.keys :=
    List.subperm_of_subset hseen fun x hx => by simpa using hsub x (by simpa using hx)
  constructor
  · intro hsize x hx
    have hperm := hsubperm.perm_of_length_le (by simp [hsize])
    simpa using hperm.mem_iff.mpr (by simpa using hx)
  · intro hall
    have hperm := (List.perm_ext_iff_of_nodup hseen hkeys).mpr fun x => by
      simpa using ⟨hsub x, hall x⟩
    simpa using hperm.length_eq

theorem degrees_eq_ok {expected : Nat} :
    (nodes.toList.map fun entry => entry.2.backbone.size).all (· = expected) = true ↔
      ∀ {x : Id} {node : Node Id}, nodes[x]? = some node → node.backbone.size = expected := by
  simp only [List.all_map, List.all_eq_true, Function.comp_apply, decide_eq_true_eq, Prod.forall]
  exact ⟨fun h x node hx => h x node (BTreeMap.mem_toList.mpr hx),
    fun h x node hx => h (BTreeMap.mem_toList.mp hx)⟩

theorem expectedDegree_eq (hne : nodes.size ≠ 0) : (if nodes.size = 1 then 0
    else if nodes.size = 2 then 1 else 2) = Cycle.cycleDegree nodes.size := by
  match nodes.size, hne with
  | 1, _ => rfl
  | 2, _ => rfl
  | count + 3, _ => simp [Cycle.cycleDegree]

/-- The handshake: the edge count follows from the degrees. -/
theorem edges_eq (hdegree : ∀ {x : Id} {node : Node Id}, nodes[x]? = some node →
      node.backbone.size = Cycle.cycleDegree nodes.size) (hne : nodes.size ≠ 0) :
    (nodes.toList.map fun entry => entry.2.backbone.size).sum / 2 =
      if nodes.size = 1 then 0 else if nodes.size = 2 then 1 else nodes.size := by
  have hconst : (nodes.toList.map fun entry => entry.2.backbone.size) =
      List.replicate nodes.size (Cycle.cycleDegree nodes.size) := by
    refine List.eq_replicate_iff.mpr ⟨by simp, fun size hsize => ?_⟩
    obtain ⟨⟨x, node⟩, hmem, rfl⟩ := List.mem_map.mp hsize
    exact hdegree (BTreeMap.mem_toList.mp hmem)
  rw [hconst, List.sum_replicate_nat]
  match nodes.size, hne with
  | 1, _ => rfl
  | 2, _ => rfl
  | count + 3, _ => simp [Cycle.cycleDegree]

/-- The backbone checks accept exactly the cycles. -/
theorem checkBackbone_eq_ok (hne : nodes.size ≠ 0)
    (hirrefl : ∀ x, ¬ Cycle.Edge (backbones nodes) x x)
    (hsymm : ∀ {x y : Id}, Cycle.Edge (backbones nodes) x y → Cycle.Edge (backbones nodes) y x) :
    checkBackbone nodes = .ok () ↔ Cycle.IsCycle (backbones nodes) := by
  have hdegrees : (∀ {x : Id} {near : BTreeSet Id}, (backbones nodes)[x]? = some near →
        near.size = Cycle.cycleDegree (backbones nodes).size) ↔
      ∀ {x : Id} {node : Node Id}, nodes[x]? = some node →
        node.backbone.size = Cycle.cycleDegree nodes.size := by
    rw [backbones_size]
    constructor
    · exact fun h x node hx => h (x := x) (by rw [backbones_lookup, hx, Option.map_some])
    · intro h x near hx
      rw [backbones_lookup, Option.map_eq_some_iff] at hx
      obtain ⟨node, hnode, rfl⟩ := hx
      exact h hnode
  obtain ⟨start, keys, hkeys⟩ : ∃ start keys, nodes.keys = start :: keys := by
    cases hk : nodes.keys with
    | nil =>
      have := congrArg List.length hk
      simp at this
      simp [this] at hne
    | cons start keys => exact ⟨start, keys, rfl⟩
  have hstart : start ∈ nodes := by
    have : start ∈ nodes.keys := by simp [hkeys]
    simpa using this
  have hreach : ∀ x, Relation.ReflTransGen (Cycle.Edge (backbones nodes)) start x → x ∈ nodes :=
    fun x hx => mem_of_path hsymm hstart hx
  obtain ⟨seen, hwalk, hseen⟩ := walkBackbone_start hsymm hstart
  unfold checkBackbone
  simp only [then_eq_ok, require_eq_ok, hkeys, List.head?_cons, hwalk, Outcome.ok_bind,
    expectedDegree_eq hne, degrees_eq_ok]
  rw [size_eq_iff fun x hx => hreach x ((hseen x).mp hx)]
  constructor
  · rintro ⟨hdegree, -, hall⟩
    have hpath {x : Id} (hx : x ∈ backbones nodes) :
        Relation.ReflTransGen (Cycle.Edge (backbones nodes)) start x :=
      (hseen x).mp (hall x (backbones_mem.mp hx))
    have : Std.Symm (Cycle.Edge (backbones nodes)) := ⟨fun _ _ h => hsymm h⟩
    exact ⟨hirrefl, hsymm, hdegrees.mpr hdegree, fun hx hy =>
      (Std.Symm.symm _ _ (hpath hx)).trans (hpath hy)⟩
  · intro h
    have hdegree {x : Id} {node : Node Id} (hx : nodes[x]? = some node) :
        node.backbone.size = Cycle.cycleDegree nodes.size := hdegrees.mp h.degree hx
    refine ⟨hdegree, edges_eq hdegree hne, fun x hx => (hseen x).mpr ?_⟩
    exact h.connected (backbones_mem.mpr hstart) (backbones_mem.mpr hx)

/-- The node checks, over all nodes, say that shapes and layers are sound and
that every bone has its reciprocal. -/
theorem checkNodes_eq_ok : checkEach (checkNode config nodes) nodes.toList = .ok () ↔
    (∀ {x : Id} {node : Node Id}, nodes[x]? = some node → WellShaped config node) ∧
    (∀ l, LayerOk config nodes l) ∧ (∀ x, ¬ Cycle.Edge (backbones nodes) x x) ∧
    ∀ {x y : Id}, Cycle.Edge (backbones nodes) x y → Cycle.Edge (backbones nodes) y x := by
  have hedge {x y : Id} {node : Node Id} (hx : nodes[x]? = some node) :
      Cycle.Edge (backbones nodes) x y ↔ y ∈ node.backbone := by
    simp [Cycle.Edge, backbones, hx]
  have hlayer {x : Id} {l : Nat} {links : BTreeSet Id} : layer nodes l x = some links ↔
      ∃ node : Node Id, nodes[x]? = some node ∧ node.neighbours[l]? = some links := by
    rw [layer, Option.bind_eq_some_iff]
  simp only [checkEach_eq_ok, Prod.forall, BTreeMap.mem_toList, checkNode_eq_ok]
  constructor
  · intro h
    have hlink {x y : Id} {l : Nat} (hxy : Linked nodes l x y) :
        y ≠ x ∧ Linked nodes l y x := by
      obtain ⟨links, hl, hy⟩ := hxy
      obtain ⟨node, hx, hl⟩ := hlayer.mp hl
      have hcheck := (((h x node hx).2.1 hl).2) y hy
      exact ⟨(checkLink_eq_ok.mp hcheck).1, (checkLink_eq_ok.mp hcheck).2.2⟩
    have hbone {x y : Id} (hxy : Cycle.Edge (backbones nodes) x y) :
        y ≠ x ∧ Cycle.Edge (backbones nodes) y x := by
      obtain ⟨node, hx⟩ := mem_nodes.mp (backbones_mem.mp hxy.mem)
      exact checkBone_eq_ok.mp ((h x node hx).2.2 y ((hedge hx).mp hxy))
    refine ⟨fun hx => (h _ _ hx).1, fun l => ⟨⟨fun x hx => (hlink hx).1 rfl, fun hxy => (hlink hxy).2⟩,
      fun {x links} hl => ?_⟩, fun x hx => (hbone hx).1 rfl, fun hxy => (hbone hxy).2⟩
    obtain ⟨node, hx, hl⟩ := hlayer.mp hl
    exact ((h x node hx).2.1 hl).1
  · rintro ⟨hshape, hlayers, hirrefl, hsymm⟩ x node hx
    refine ⟨hshape hx, fun {l links} hl => ⟨(hlayers l).degree (hlayer.mpr ⟨node, hx, hl⟩),
      fun y hy => ?_⟩, fun y hy => ?_⟩
    · have hxy : Linked nodes l x y := ⟨links, hlayer.mpr ⟨node, hx, hl⟩, hy⟩
      have hyx := (hlayers l).symm hxy
      obtain ⟨other, hother⟩ := mem_nodes.mp hyx.reaches.mem
      refine checkLink_eq_ok.mpr ⟨?_, ⟨other, hother, ?_⟩, hyx⟩
      · rintro rfl
        exact (hlayers l).irrefl y hxy
      · exact ((hshape hother).reaches hother).mp hyx.reaches
    · have hxy := (hedge hx).mpr hy
      refine checkBone_eq_ok.mpr ⟨?_, hsymm hxy⟩
      rintro rfl
      exact hirrefl y hxy

/-- The decoder accepts a snapshot exactly when its index has the invariant. -/
theorem tryFrom_eq_ok {raw : RawHnswIndex Id} {index : HnswIndex Id} :
    HnswIndex.tryFrom raw = .ok index ↔ index.toRaw = raw ∧ Inv index := by
  have hvalid : (Outcome.ofResult (validateConfig raw.config) : Decoded Unit) = .ok () ↔
      validateConfig raw.config = .ok () := by
    cases validateConfig raw.config <;> simp [Outcome.refuse]
  have hindex : (.ok { raw with } : Decoded (HnswIndex Id)) = .ok index ↔ index.toRaw = raw := by
    cases raw
    cases index
    simp [HnswIndex.toRaw, eq_comm]
  unfold HnswIndex.tryFrom
  simp only [then_eq_ok, require_eq_ok, hvalid, checkNodes_eq_ok, Outcome.pure_eq]
  have hbackbone (hirrefl : ∀ x, ¬ Cycle.Edge (backbones raw.nodes) x x)
      (hsymm : ∀ {x y : Id}, Cycle.Edge (backbones raw.nodes) x y →
        Cycle.Edge (backbones raw.nodes) y x) :
      (do if ¬ raw.nodes.isEmpty then checkBackbone raw.nodes
          .ok { raw with } : Decoded (HnswIndex Id)) = .ok index ↔
        index.toRaw = raw ∧ Cycle.IsCycle (backbones raw.nodes) := by
    split
    · next hne =>
      have hsize : raw.nodes.size ≠ 0 := by
        simpa [← Std.ExtTreeMap.eq_empty_iff_size_eq_zero] using hne
      rw [then_eq_ok, checkBackbone_eq_ok hsize hirrefl hsymm, hindex, and_comm]
    · next he =>
      have hempty : raw.nodes = ∅ := by simpa using he
      rw [hindex, hempty]
      exact (and_iff_left Cycle.isCycle_empty).symm
  constructor
  · rintro ⟨hconfig, hstate, hentry, hmax, ⟨hshape, hlayers, hirrefl, hsymm⟩, hrest⟩
    obtain ⟨rfl, hcycle⟩ := (hbackbone hirrefl hsymm).mp hrest
    exact ⟨rfl, ⟨⟨hshape, hlayers, hcycle⟩, hconfig, hstate, hentry, hmax⟩⟩
  · rintro ⟨rfl, h⟩
    have hcycle : Cycle.IsCycle (backbones index.toRaw.nodes) := h.backbone
    exact ⟨h.validConfig, h.levelState, h.entryPoint, h.maxLevel,
      ⟨h.shape, h.layers, hcycle.irrefl, hcycle.symm⟩,
      (hbackbone hcycle.irrefl hcycle.symm).mpr ⟨rfl, hcycle⟩⟩

end Heurema.Hnsw
