import Heurema.Hnsw.Linking

/-! # Where a new node is linked

The layer loop comes to each layer with the node where the greedy step of the layer above
ended. When that is the new node itself, the search of the layer finds nothing else. -/

namespace Heurema.Hnsw

open HnswIndex (joinLayer joinLayers descend considerNewEntry)
open Outcome (Ensures)

section NewNode

variable {Id : Type} [LinearOrder Id] {nodes nodes' : Nodes Id} {l budget : Nat} {id x y entry : Id}
  {config : HnswConfig} {vector there : List F32} [VectorMath]

/-! ## The step to the next layer -/

/-- A new node comes before a stored one where ids are sorted by their distance to its vector. -/
def Precedes (config : HnswConfig) (vector : List F32) (id x : Id) (there : List F32) : Prop :=
  (compare (VectorMath.distance config.distance vector vector)
    (VectorMath.distance config.distance vector there)).then (compare id x) = .lt

/-- No other node that reaches the layer comes after the new one. -/
structure Behind (config : HnswConfig) (nodes : Nodes Id) (vector : List F32) (id : Id) (l : Nat) :
    Prop where
  new : (vectors nodes)[id]? = some vector
  others : ∀ {x there}, Reaches nodes l x → x ≠ id → (vectors nodes)[x]? = some there →
    ¬ Precedes config vector id x there

theorem compareIdsByDistance_new (hid : (vectors nodes)[id]? = some vector)
    (hx : (vectors nodes)[x]? = some there) :
    compareIdsByDistance config nodes vector id x = .lt ↔ Precedes config vector id x there := by
  have hdistance {a : Id} {stored : List F32} (h : (vectors nodes)[a]? = some stored) :
      (nodeDistance config nodes vector a).getD F64.INFINITY =
        VectorMath.distance config.distance vector stored := by
    rw [vectors, Std.ExtTreeMap.getElem?_map, Option.map_eq_some_iff] at h
    obtain ⟨node, hnode, rfl⟩ := h
    rw [nodeDistance, hnode, Option.map_some, Option.getD_some]
  rw [compareIdsByDistance, hdistance hid, hdistance hx, Precedes]

omit [VectorMath] in
theorem vectors_reaches (h : Reaches nodes l x) : ∃ there, (vectors nodes)[x]? = some there := by
  obtain ⟨node, -, hnode, -, -⟩ := h.links
  exact ⟨node.vector, by rw [vectors, Std.ExtTreeMap.getElem?_map, hnode, Option.map_some]⟩

theorem Behind.of_fixed (h : Behind config nodes vector id l) (hfixed : fixed nodes' = fixed nodes) :
    Behind config nodes' vector id l where
  new := by
    rw [fixed_vectors hfixed]
    exact h.new
  others hx hne hthere := by
    rw [fixed_vectors hfixed] at hthere
    exact h.others ((fixed_reaches hfixed).mp hx) hne hthere

theorem Behind.up (h : Behind config nodes vector id l) (hgraph : GraphOk config nodes) {l' : Nat}
    (hl : l ≤ l') : Behind config nodes vector id l' where
  new := h.new
  others hx := h.others (hgraph.reaches_down hl hx)

/-- A greedy step does not come to a new node that no node comes after. -/
theorem greedyAtLevel_avoids (hclosed : Closed nodes l) (hbehind : Behind config nodes vector id l)
    (hx : Reaches nodes l x) (hne : x ≠ id) (budget : Nat) :
    Ensures (greedyAtLevel config nodes vector x l budget) (· ≠ id) := by
  refine (greedyAtLevel_keeps (P := fun y => Reaches nodes l y ∧ y ≠ id) hclosed hx ⟨hx, hne⟩ ?_
    budget).mono fun y h => h.2.2
  intro y next hy ⟨hnext, hother⟩ hcloser
  refine ⟨hy, ?_⟩
  rintro rfl
  obtain ⟨there, hthere⟩ := vectors_reaches hnext
  exact hbehind.others hnext hother hthere ((compareIdsByDistance_new hbehind.new hthere).mp hcloser)

/-- The loop comes to no layer with a new node that no node comes after. -/
theorem arrive_avoids (top : Nat) (h : GraphOk config nodes) (hid : Reaches nodes top id)
    (hentry : Reaches nodes top entry) (hne : entry ≠ id)
    (hbehind : Behind config nodes vector id (l + 1)) :
    Ensures (arrive config id vector budget nodes entry l top) (· ≠ id) := by
  induction top generalizing nodes entry with
  | zero => exact .ok hne
  | succ top ih =>
    rw [arrive]
    split
    · next hlt =>
      obtain ⟨joined, hjoined, hr, hgraph, hnext⟩ := joinLayer_spec h hid hentry vector budget
      have hbehind' := (hbehind.of_fixed hr.fixed).up hgraph (Nat.succ_le_of_lt hlt)
      have hdown {x : Id} (hx : Reaches joined.1 (top + 1) x) : Reaches joined.1 top x :=
        hgraph.reaches_down (Nat.le_succ top) hx
      -- The greedy step starts at the entry, on the layer as its links leave it.
      have hother : joined.2 ≠ id := by
        obtain ⟨candidates, -, hjoin⟩ := Outcome.bind_eq_ok.mp hjoined
        obtain ⟨linked, -, hjoin⟩ := Outcome.bind_eq_ok.mp hjoin
        obtain ⟨next, hgreedy, hjoin⟩ := Outcome.bind_eq_ok.mp hjoin
        cases hjoin
        have hstart := (fixed_reaches hr.fixed).mpr hentry
        exact (greedyAtLevel_avoids (hgraph.closed _) hbehind' hstart hne budget).of_eq hgreedy
      rw [hjoined, Outcome.ok_bind]
      exact ih hgraph (hdown ((fixed_reaches hr.fixed).mpr hid)) (hdown hnext) hother
        (hbehind.of_fixed hr.fixed)
    · exact .ok hne

/-! ## A new node that is the entry -/

omit [VectorMath] in
/-- Above the base layer a node without links goes nowhere. -/
theorem not_onward (hl : 0 < l) (hx : layer nodes l x = some ∅) : ¬ Onward nodes l x y := by
  intro ⟨node, links, hnode, hlinks, hy⟩
  have hbare : layer nodes l x = some links := by rw [layer, hnode, Option.bind_some, hlinks]
  rw [hx] at hbare
  cases hbare
  rcases mem_onward.mp hy with hy | ⟨hbase, -⟩
  · exact Std.ExtTreeSet.not_mem_empty hy
  · omega

theorem searchLayer_bare (h : GraphOk config nodes) (hl : 0 < l) (hx : layer nodes l x = some ∅)
    (hbudget : 0 < budget) : searchLayer config nodes vector [x] l budget budget = .ok [x] :=
  searchLayer_alone (h.closed l) (by simp [Reaches, hx]) (not_onward hl hx) hbudget

omit [VectorMath] in
theorem toList_single (x : Id) : ((∅ : BTreeSet Id).insert x).toList = [x] := by
  refine List.perm_singleton.mp ((List.perm_ext_iff_of_nodup (BTreeSet.toList_nodup _)
    (List.nodup_singleton x)).mpr fun y => ?_)
  simp only [Std.ExtTreeSet.mem_toList, BTreeSet.mem_insert_iff, Std.ExtTreeSet.not_mem_empty,
    or_false, List.mem_singleton]

theorem compareIdsByDistance_swap : compareIdsByDistance config nodes vector x y =
    (compareIdsByDistance config nodes vector y x).swap := by
  rw [compareIdsByDistance, compareIdsByDistance, Ordering.swap_then, ← Std.OrientedCmp.eq_swap,
    ← Std.OrientedCmp.eq_swap]

/-- One greedy step above the base layer. -/
theorem greedyAtLevel_succ (hl : 0 < l) {links : BTreeSet Id} (hx : layer nodes l x = some links) :
    greedyAtLevel config nodes vector x l (budget + 1) =
      if links.toList.foldl (closer config nodes vector) x = x then .ok x
      else greedyAtLevel config nodes vector (links.toList.foldl (closer config nodes vector) x) l
        budget := by
  have hreach : Reaches nodes l x := by simp [Reaches, hx]
  obtain ⟨node, links', hnode, hlinks, hindex⟩ := hreach.links
  obtain rfl : links' = links := by
    rw [layer, hnode, Option.bind_some, hlinks] at hx
    exact Option.some.inj hx
  rw [greedyAtLevel]
  simp only [hnode, hindex, Outcome.ok_bind, if_neg hl.ne', Outcome.pure_eq]

/-- Above the base layer, a new node that is the entry finds itself, and stays the entry. -/
theorem joinLayer_self (h : GraphOk config nodes) (hvalid : validateConfig config = .ok ())
    (hl : 0 < l) (hid : layer nodes l id = some ∅) (hbudget : 0 < budget) :
    joinLayer config id vector budget nodes id l = .ok (nodes, id) := by
  have hself : link config nodes id id l = .ok nodes := by
    unfold link
    rw [if_pos (.inl rfl), Outcome.pure_eq]
  have hgreedy : greedyAtLevel config nodes vector id l budget = .ok id := by
    obtain ⟨budget, rfl⟩ := Nat.exists_eq_add_one.mpr hbudget
    rw [greedyAtLevel_succ hl hid, show (∅ : BTreeSet Id).toList = [] from rfl, List.foldl_nil,
      if_pos rfl]
  unfold joinLayer
  rw [searchLayer_bare h hl hid hbudget, Outcome.ok_bind]
  dsimp only
  rw [List.take_of_length_le (degreeLimit_pos hvalid l), List.foldlM_cons, hself, Outcome.ok_bind,
    List.foldlM_nil, Outcome.pure_eq, Outcome.ok_bind, hgreedy]
  rfl

/-- The loop comes with a new node that is the entry to every layer that it joins next. -/
theorem arrive_self (top : Nat) (h : GraphOk config nodes) (hvalid : validateConfig config = .ok ())
    (hid : ∀ j ≤ top, layer nodes j id = some ∅) (hbudget : 0 < budget) :
    arrive config id vector budget nodes id l top = .ok id := by
  induction top with
  | zero => rfl
  | succ top ih =>
    rw [arrive, joinLayer_self h hvalid (Nat.succ_pos top) (hid _ le_rfl) hbudget, Outcome.ok_bind]
    dsimp only
    rw [ih fun j hj => hid j (hj.trans (Nat.le_succ top))]
    split
    · rfl
    · rfl

/-- From the only other node, above the base layer, the greedy step comes to a new node that it
comes after: the link between them is the first. -/
theorem joinLayer_lone (h : GraphOk config nodes) (hvalid : validateConfig config = .ok ())
    (hl : 0 < l) (hid : layer nodes l id = some ∅) (hx : Reaches nodes l x) (hne : id ≠ x)
    (honly : ∀ y ∈ nodes, y = id ∨ y = x) (hnew : (vectors nodes)[id]? = some vector)
    (hthere : (vectors nodes)[x]? = some there) (hprecedes : Precedes config vector id x there)
    (hbudget : 0 < budget) :
    Ensures (joinLayer config id vector budget nodes x l) fun joined => joined.2 = id := by
  have hsymm := (h.layers l).toLayerSymm
  -- The other node could only be linked to the new one, which has no links yet.
  have hbare : layer nodes l x = some ∅ := by
    obtain ⟨links, hlinks⟩ := Option.isSome_iff_exists.mp hx
    suffices hnone : ∀ y, y ∉ links by
      rw [hlinks, Std.ExtTreeSet.eq_empty_iff_forall_not_mem.mpr hnone]
    intro y hy
    have hlinked : Linked nodes l x y := ⟨links, hlinks, hy⟩
    rcases honly y (hsymm.reaches hlinked).mem with rfl | rfl
    · exact Std.ExtTreeSet.not_mem_empty ((linked_iff hid).mp (hsymm.symm hlinked))
    · exact hsymm.irrefl _ hlinked
  have hpos := degreeLimit_pos hvalid l
  have hroom {a : Id} : ((∅ : BTreeSet Id).insert a).size ≤ degreeLimit config l := by
    refine Std.ExtTreeSet.size_insert_le.trans ?_
    rw [Std.ExtTreeSet.size_empty]
    exact hpos
  obtain ⟨linked, hlink, hr, hlayer⟩ := link_room hne hid hbare hroom hroom
  have hfar : layer linked l x = some ((∅ : BTreeSet Id).insert id) := by rw [hlayer, if_pos rfl]
  have hnear : layer linked l id = some ((∅ : BTreeSet Id).insert x) := by
    rw [hlayer, if_neg hne.symm, if_pos rfl]
  have hcloser : compareIdsByDistance config linked vector id x = .lt := by
    rw [← fixed_vectors hr.fixed] at hnew hthere
    exact (compareIdsByDistance_new hnew hthere).mpr hprecedes
  have hfarther : compareIdsByDistance config linked vector x id ≠ .lt := by
    rw [compareIdsByDistance_swap, hcloser]
    exact fun h => Ordering.noConfusion h
  have hgreedy : greedyAtLevel config linked vector x l budget = .ok id := by
    obtain ⟨budget, rfl⟩ := Nat.exists_eq_add_one.mpr hbudget
    rw [greedyAtLevel_succ hl hfar, toList_single, List.foldl_cons, List.foldl_nil, closer,
      if_pos hcloser, if_neg hne]
    -- It stops there for want of budget, or because the step back goes farther.
    cases budget with
    | zero => rfl
    | succ budget =>
      rw [greedyAtLevel_succ hl hnear, toList_single, List.foldl_cons, List.foldl_nil, closer,
        if_neg hfarther, if_pos rfl]
  refine ⟨(linked, id), ?_, rfl⟩
  unfold joinLayer
  rw [searchLayer_bare h hl hbare hbudget, Outcome.ok_bind]
  dsimp only
  rw [List.take_of_length_le hpos, List.foldlM_cons, hlink, Outcome.ok_bind,
    List.foldlM_nil, Outcome.pure_eq, Outcome.ok_bind, hgreedy]
  rfl

/-- From the only other node the loop comes to every layer but the first, above the base, with a
new node that it comes after. -/
theorem arrive_lone {top : Nat} (h : GraphOk config nodes) (hvalid : validateConfig config = .ok ())
    (hl : l < top) (hid : ∀ j ≤ top, layer nodes j id = some ∅) (hx : Reaches nodes top x)
    (hne : id ≠ x) (honly : ∀ y ∈ nodes, y = id ∨ y = x) (hnew : (vectors nodes)[id]? = some vector)
    (hthere : (vectors nodes)[x]? = some there) (hprecedes : Precedes config vector id x there)
    (hbudget : 0 < budget) : arrive config id vector budget nodes x l top = .ok id := by
  -- The first layer joined leads to the new node, and the ones below stay with it.
  obtain ⟨top, rfl⟩ : ∃ before, top = before + 1 := Nat.exists_eq_add_one.mpr (by omega)
  have hreach : Reaches nodes (top + 1) id := by simp [Reaches, hid _ le_rfl]
  obtain ⟨joined, hjoined, hr, hgraph, -⟩ := joinLayer_spec h hreach hx vector budget
  have hstart := (joinLayer_lone h hvalid (Nat.succ_pos top) (hid _ le_rfl) hx hne honly hnew hthere
    hprecedes hbudget).of_eq hjoined
  rw [arrive, if_pos hl, hjoined, Outcome.ok_bind]
  dsimp only
  rw [hstart]
  refine arrive_self top hgraph hvalid (fun j hj => ?_) hbudget
  rw [hr.others (by omega), hid j (by omega)]

theorem arrive_top (entry : Id) (top : Nat) :
    arrive config id vector budget nodes entry top top = .ok entry := by
  cases top with
  | zero => rfl
  | succ top => rw [arrive, if_neg (Nat.lt_irrefl _), Outcome.pure_eq]

theorem descend_stop {bottom top : Nat} (hle : top ≤ bottom) (x : Id) :
    descend config nodes vector budget bottom top x = .ok x := by
  cases top with
  | zero => rfl
  | succ top => rw [descend, if_neg (Nat.not_lt.mpr hle), Outcome.pure_eq]

/-- A descent ends at a node that reaches the last layer it walked. -/
theorem descend_reaches (h : GraphOk config nodes) {bottom top : Nat} (hlt : bottom < top)
    (hx : Reaches nodes top x) :
    Ensures (descend config nodes vector budget bottom top x) (Reaches nodes (bottom + 1)) := by
  induction top generalizing x with
  | zero => omega
  | succ top ih =>
    rw [descend, if_pos hlt]
    refine (greedyAtLevel_spec (h.closed _) hx budget).bind fun y hy => ?_
    by_cases hmore : bottom < top
    · exact ih hmore (h.reaches_down (Nat.le_succ top) hy)
    · obtain rfl : bottom = top := by omega
      rw [descend_stop le_rfl]
      exact .ok hy

/-! ## The insertion -/

/-- The work budget of an insertion. -/
def constructionBudget (config : HnswConfig) : Nat := max (max config.efConstruction config.mNeighbours) 1

/-- A new node before it has links. -/
def fresh (vector : List F32) (level : Nat) : Node Id :=
  { vector, level, neighbours := List.replicate (level + 1) ∅, backbone := ∅ }

/-- The entry with which the insertion of a new id comes to layer `l`. -/
def arrival (index : HnswIndex Id) (id : Id) (vector : List F32) (l : Nat) : Run Id :=
  match index.entryPoint with
  | none => return id
  | some entry => do
    let (level, _) := nextLevel index.levelState
    let nodes ← spliceBackbone (index.nodes.insert id (fresh vector level)) id entry
    let budget := constructionBudget index.config
    let entry ← descend index.config nodes vector budget level index.maxLevel entry
    arrive index.config id vector budget nodes entry l (min level index.maxLevel)

/-- The layer is searched from the new node alone. -/
def Stranded (index : HnswIndex Id) (id : Id) (vector : List F32) (l : Nat) : Prop :=
  arrival index id vector l = .ok id ∧ (0 < l ∨ constructionBudget index.config = 1)

variable {index index' : HnswIndex Id} {raw : RawHnswIndex Id}

omit [VectorMath] in
theorem considerNewEntry_nodes (index : HnswIndex Id) (id : Id) (level : Nat) :
    (considerNewEntry index id level).nodes = index.nodes := by
  unfold considerNewEntry
  split <;> rfl

/-- The course of an insertion of a new id that draws `level`. -/
structure Course (index : HnswIndex Id) (id : Id) (vector : List F32) (level : Nat)
    (index' : HnswIndex Id) (entry : Id) (spliced : Nodes Id) (start : Id) : Prop where
  entryPoint : index.entryPoint = some entry
  splice : spliceBackbone (index.nodes.insert id (fresh vector level)) id entry = .ok spliced
  descent : descend index.config spliced vector (constructionBudget index.config) level
    index.maxLevel entry = .ok start
  join : joinLayers index.config id vector (constructionBudget index.config) spliced start
    (min level index.maxLevel) = .ok index'.nodes
  graph : GraphOk index.config spliced
  other : entry ≠ id
  entryReaches : Reaches spliced index.maxLevel entry
  layers : ∀ (j : Nat) (x : Id), layer spliced j x =
    if id = x then (fresh vector level : Node Id).neighbours[j]? else layer index.nodes j x
  vectors : vectors spliced = (vectors index.nodes).insert id vector

theorem exists_course (h : Inv index) (hnonempty : ¬ index.nodes.isEmpty) (hnew : id ∉ index.nodes)
    (hinsert : index.insert id vector = .ok index') {level : Nat}
    (hlevel : (nextLevel index.levelState).1 = level) :
    ∃ entry spliced start, Course index id vector level index' entry spliced start := by
  unfold HnswIndex.insert at hinsert
  obtain ⟨_, hvector, hinsert⟩ := Outcome.bind_eq_ok.mp hinsert
  have hremoved : index.removeNode id = .ok index := by
    rw [HnswIndex.removeNode, BTreeMap.not_mem_iff.mp hnew, Outcome.pure_eq]
  rw [hremoved, Outcome.ok_bind] at hinsert
  obtain ⟨entry, hentry⟩ : ∃ entry, index.entryPoint = some entry := by
    rw [← Option.isSome_iff_exists, Option.isSome_iff_ne_none, h.entryPoint, ne_eq,
      selectEntry_eq_none]
    simpa using hnonempty
  rw [hentry] at hinsert
  dsimp only at hinsert
  rw [hlevel] at hinsert
  obtain ⟨spliced, hspliced, hinsert⟩ := Outcome.bind_eq_ok.mp hinsert
  obtain ⟨start, hstart, hinsert⟩ := Outcome.bind_eq_ok.mp hinsert
  obtain ⟨nodes', hjoin, hinsert⟩ := Outcome.bind_eq_ok.mp hinsert
  cases hinsert
  -- The new node is sound and isolated.
  obtain ⟨hdim, hfinite⟩ := checkVector_eq_ok (Outcome.ofResult_eq_ok.mp hvector)
  obtain ⟨hle, -⟩ := nextLevel_spec h.levelState
  rw [hlevel] at hle
  have hshape : WellShaped index.config (fresh vector level : Node Id) :=
    ⟨hdim, hfinite, hle, by simp [fresh]⟩
  have hbare : ∀ links ∈ (fresh vector level : Node Id).neighbours, links = ∅ :=
    fun links hlinks => List.eq_of_mem_replicate hlinks
  have htops : Tops index.nodes entry index.maxLevel :=
    tops_iff.mpr ⟨h.entryPoint ▸ hentry, h.maxLevel.symm⟩
  obtain ⟨hrest, hgraph, hreach, -⟩ :=
    (h.toGraphOk.spliced hnew htops hshape hbare rfl).of_eq hspliced
  refine ⟨entry, spliced, start, hentry, hspliced, hstart, ?_, hgraph,
    fun heq => hnew (heq ▸ htops.mem), hreach, fun j x => ?_, ?_⟩
  · rw [considerNewEntry_nodes]
    exact hjoin
  · rw [rest_layer hrest, layer_insert]
  · rw [rest_vectors hrest, vectors_insert]
    rfl

namespace Course

variable {level : Nat} {spliced : Nodes Id} {start : Id}

theorem bare (h : Course index id vector level index' entry spliced start) {j : Nat} (hj : j ≤ level) :
    layer spliced j id = some ∅ := by
  rw [h.layers, if_pos rfl, fresh, List.getElem?_replicate, if_pos (by omega)]

theorem startReaches (h : Course index id vector level index' entry spliced start) :
    Reaches spliced (min level index.maxLevel) start :=
  (descend_spec h.graph.closed h.graph.reaches_down (constructionBudget index.config) level
    h.entryReaches).of_eq h.descent

theorem bareReaches (h : Course index id vector level index' entry spliced start) {j : Nat}
    (hj : j ≤ level) : Reaches spliced j id := by
  rw [Reaches, h.bare hj]
  rfl

/-- The descent ends at another node: the new one does not reach the layers it walks. -/
theorem start_ne (h : Course index id vector level index' entry spliced start) : start ≠ id := by
  have hdescent := h.descent
  rcases Nat.lt_or_ge level index.maxLevel with hlt | hge
  · rintro rfl
    have hreach := (descend_reaches h.graph hlt h.entryReaches).of_eq hdescent
    rw [Reaches, h.layers, if_pos rfl, fresh, List.getElem?_replicate,
      if_neg (Nat.lt_irrefl _)] at hreach
    cases hreach
  · rw [descend_stop hge] at hdescent
    rw [← Except.ok.inj hdescent]
    exact h.other

/-- What is stored of a node that is not the new one. -/
theorem stored (h : Course index id vector level index' entry spliced start) (hx : x ≠ id) {j : Nat}
    (hreach : Reaches spliced j x) (hthere : (Hnsw.vectors spliced)[x]? = some there) :
    ∃ node, index.nodes[x]? = some node ∧ node.vector = there ∧ Reaches index.nodes j x := by
  rw [h.vectors, BTreeMap.getElem?_insert_ite, if_neg hx.symm, Hnsw.vectors,
    Std.ExtTreeMap.getElem?_map, Option.map_eq_some_iff] at hthere
  obtain ⟨node, hnode, hvector⟩ := hthere
  rw [Reaches, h.layers, if_neg hx.symm] at hreach
  exact ⟨node, hnode, hvector, hreach⟩

theorem new (h : Course index id vector level index' entry spliced start) :
    (Hnsw.vectors spliced)[id]? = some vector := by
  rw [h.vectors, BTreeMap.getElem?_insert_ite, if_pos rfl]

theorem mem (h : Course index id vector level index' entry spliced start) (hx : x ∈ spliced) :
    x = id ∨ x ∈ index.nodes := by
  rw [← vectors_mem, h.vectors, BTreeMap.mem_insert_iff, vectors_mem] at hx
  exact hx

theorem arrival_eq (h : Course index id vector level index' entry spliced start)
    (hlevel : (nextLevel index.levelState).1 = level) (l : Nat) : arrival index id vector l =
      arrive index.config id vector (constructionBudget index.config) spliced start l
        (min level index.maxLevel) := by
  rw [arrival, h.entryPoint]
  simp only [hlevel, h.splice, h.descent, Outcome.ok_bind]

end Course

theorem insert_links (h : Inv index) (hnonempty : ¬ index.nodes.isEmpty) (hnew : id ∉ index.nodes)
    (hinsert : index.insert id vector = .ok index')
    (hl : l ≤ min (nextLevel index.levelState).1 index.maxLevel)
    (hspare : ∀ {x : Id} {there : BTreeSet Id}, layer index.nodes l x = some there →
      there.size < degreeLimit index.config l) :
    (∃ y, Linked index'.nodes l id y) ↔ ¬ Stranded index id vector l := by
  generalize hlevel : (nextLevel index.levelState).1 = level at hl
  obtain ⟨entry, spliced, start, hcourse⟩ := exists_course h hnonempty hnew hinsert hlevel
  have hroom : Spare index.config spliced l id := by
    intro x there hx hthere
    rw [hcourse.layers, if_neg hx.symm] at hthere
    exact hspare hthere
  have hbudget : 0 < constructionBudget index.config := by
    unfold constructionBudget
    omega
  obtain ⟨arrived, harrived, hlinked⟩ := joinLayers_links (min level index.maxLevel) hcourse.graph
    h.validConfig hl (fun j hj => hcourse.bare (by omega)) hcourse.startReaches
    ⟨entry, hcourse.entryReaches.mem, hcourse.other⟩ hbudget hroom hcourse.join
  rw [hlinked, Stranded, Barren, hcourse.arrival_eq hlevel, harrived, Except.ok.injEq]

/-- Where an insertion is sure to link a new node: at the first layer that it joins, at the base
layer if it searches more than the entry, and where no node of the layers above comes after the
new one. -/
inductive Secured (index : HnswIndex Id) (id : Id) (vector : List F32) (l : Nat) : Prop where
  | first (top : l = min (nextLevel index.levelState).1 index.maxLevel)
  | base (bottom : l = 0) (budget : 2 ≤ constructionBudget index.config)
  | ahead (behind : ∀ {x : Id} {node : Node Id}, index.nodes[x]? = some node → l < node.level →
      ¬ Precedes index.config vector id x node.vector)

/-- No insertion comes stranded to where it is secured. -/
theorem Secured.not_stranded (hsecured : Secured index id vector l) (h : Inv index)
    (hnonempty : ¬ index.nodes.isEmpty) (hnew : id ∉ index.nodes)
    (hinsert : index.insert id vector = .ok index') : ¬ Stranded index id vector l := by
  generalize hlevel : (nextLevel index.levelState).1 = level
  obtain ⟨entry, spliced, start, hcourse⟩ := exists_course h hnonempty hnew hinsert hlevel
  intro ⟨harrival, hsearch⟩
  rw [hcourse.arrival_eq hlevel] at harrival
  cases hsecured with
  | first htop =>
    rw [htop, hlevel, arrive_top] at harrival
    exact hcourse.start_ne (Except.ok.inj harrival)
  | base hbottom hbudget =>
    -- A stranded base layer is searched with a budget of one.
    omega
  | ahead hahead =>
    have hbehind : Behind index.config spliced vector id (l + 1) := by
      refine ⟨hcourse.new, fun {x there} hx hne hthere => ?_⟩
      obtain ⟨node, hnode, rfl, hreach⟩ := hcourse.stored hne hx hthere
      exact hahead hnode (((h.shape hnode).reaches hnode).mp hreach)
    have havoids : Ensures (arrive index.config id vector (constructionBudget index.config) spliced
        start l (min level index.maxLevel)) (· ≠ id) := arrive_avoids _ hcourse.graph
      (hcourse.bareReaches (Nat.min_le_left _ _)) hcourse.startReaches hcourse.start_ne hbehind
    exact havoids.of_eq harrival rfl

/-- Beside one other node an insertion comes stranded to every layer where it is not secured. -/
theorem stranded_lone (h : Inv index) (hnonempty : ¬ index.nodes.isEmpty)
    (hsize : index.nodes.size = 1) (hnew : id ∉ index.nodes)
    (hinsert : index.insert id vector = .ok index')
    (hl : l ≤ min (nextLevel index.levelState).1 index.maxLevel)
    (hsecured : ¬ Secured index id vector l) : Stranded index id vector l := by
  have hfirst : l ≠ min (nextLevel index.levelState).1 index.maxLevel :=
    fun htop => hsecured (.first htop)
  generalize hlevel : (nextLevel index.levelState).1 = level at hl hfirst
  obtain ⟨entry, spliced, start, hcourse⟩ := exists_course h hnonempty hnew hinsert hlevel
  have hbudget : 0 < constructionBudget index.config := by
    unfold constructionBudget
    omega
  obtain ⟨x, node, hnode, hbelow, hprecedes⟩ : ∃ x node, index.nodes[x]? = some node ∧
      l < node.level ∧ Precedes index.config vector id x node.vector := by
    by_contra hnone
    exact hsecured (.ahead fun {x node} hnode hbelow hprecedes =>
      hnone ⟨x, node, hnode, hbelow, hprecedes⟩)
  have hx : x ∈ index.nodes := mem_nodes.mpr ⟨node, hnode⟩
  have hne : id ≠ x := fun heq => hnew (heq ▸ hx)
  -- A third node would be stored beside the one that there is.
  have honly : ∀ y ∈ spliced, y = id ∨ y = x := by
    intro y hy
    refine (hcourse.mem hy).imp_right fun hmem => ?_
    by_contra hother
    have hle : [y, x].length ≤ index.nodes.size := by
      refine BTreeMap.length_le_size (by simpa using hother) fun z hz => ?_
      rcases List.mem_pair.mp hz with rfl | rfl
      · exact hmem
      · exact hx
    rw [hsize] at hle
    simp at hle
  obtain rfl : start = x :=
    (honly start hcourse.startReaches.mem).resolve_left hcourse.start_ne
  have hthere : (vectors spliced)[start]? = some node.vector := by
    rw [hcourse.vectors, BTreeMap.getElem?_insert_ite, if_neg hne, vectors,
      Std.ExtTreeMap.getElem?_map, hnode, Option.map_some]
  refine ⟨?_, ?_⟩
  · rw [hcourse.arrival_eq hlevel]
    exact arrive_lone hcourse.graph h.validConfig (by omega) (fun j hj => hcourse.bare (by omega))
      hcourse.startReaches hne honly hcourse.new hthere hprecedes hbudget
  · by_contra hsearch
    exact hsecured (.base (by omega) (by omega))

/-- An insertion into a layer with room links the new node there where it is secured, and beside
one other node nowhere else. -/
theorem new_node_linked (hsnapshot : HnswIndex.tryFrom raw = .ok index)
    (hnonempty : ¬ index.nodes.isEmpty) (hnew : id ∉ index.nodes)
    (hinsert : index.insert id vector = .ok index')
    (hl : l ≤ min (nextLevel index.levelState).1 index.maxLevel)
    (hspare : ∀ {x : Id} {there : BTreeSet Id}, layer index.nodes l x = some there →
      there.size < degreeLimit index.config l) :
    (Secured index id vector l → ∃ y, Linked index'.nodes l id y) ∧
      (index.nodes.size = 1 → (∃ y, Linked index'.nodes l id y) → Secured index id vector l) := by
  have hinv := (tryFrom_eq_ok.mp hsnapshot).2
  have hlinks := insert_links hinv hnonempty hnew hinsert hl hspare
  constructor
  · intro hsecured
    exact hlinks.mpr (hsecured.not_stranded hinv hnonempty hnew hinsert)
  · intro hsize hlinked
    by_contra hsecured
    exact hlinks.mp hlinked (stranded_lone hinv hnonempty hsize hnew hinsert hl hsecured)

end NewNode

/-! ## Two nodes -/

namespace Lone

abbrev math : VectorMath := Metric.math fun _ => ""

/-- One node at the third layer; the next level drawn is the same. -/
def raw : RawHnswIndex Nat :=
  { config := Line.config
    nodes := (∅ : BTreeMap _ _).insert 0 ⟨[⟨0x00000000#32⟩], 2, [∅, ∅, ∅], ∅⟩
    entryPoint := some 0
    maxLevel := 2
    levelState := 16#64 }

def index : HnswIndex Nat := { raw with }

theorem accepted : HnswIndex.tryFrom raw = .ok index := by decide +kernel

theorem nonempty : ¬ index.nodes.isEmpty := by decide +kernel

theorem not_mem : 1 ∉ index.nodes := by decide +kernel

/-- The vector of the second node. -/
def one : List F32 := [⟨0x3f800000#32⟩]

theorem exists_insertion : ∃ index' : HnswIndex Nat,
    @HnswIndex.insert Nat _ math index 1 one = .ok index' := by
  obtain ⟨-, hinv⟩ := tryFrom_eq_ok.mp accepted
  obtain ⟨index', hinsert, -⟩ := @insert_spec Nat _ math index hinv 1 one (by decide)
  exact ⟨index', hinsert⟩

theorem spare {l x : Nat} {there : BTreeSet Nat} (h : layer index.nodes l x = some there) :
    there.size < degreeLimit index.config l := by
  obtain ⟨node, hnode, hlinks⟩ := Option.bind_eq_some_iff.mp h
  have hbare : node.neighbours = List.replicate 3 ∅ := by
    show node.neighbours = _
    unfold index raw at hnode
    dsimp only at hnode
    rw [BTreeMap.getElem?_insert_ite] at hnode
    split at hnode
    · cases hnode
      rfl
    · simp at hnode
  have hempty : there = ∅ := by
    rw [hbare] at hlinks
    exact List.eq_of_mem_replicate (List.mem_of_getElem? hlinks)
  rw [hempty, Std.ExtTreeSet.size_empty]
  unfold degreeLimit
  split <;> decide

/-- The second node is nearer to itself than the first is. -/
theorem precedes : @Precedes Nat _ math index.config one 1 0 [⟨0x00000000#32⟩] := by
  unfold Precedes
  decide +kernel

theorem not_secured : ¬ @Secured Nat _ math index 1 one 1 := by
  intro hsecured
  cases hsecured with
  | first top => exact absurd top (by decide)
  | base bottom => cases bottom
  | ahead behind =>
    have hnode : index.nodes[0]? = some ⟨[⟨0x00000000#32⟩], 2, [∅, ∅, ∅], ∅⟩ := by decide +kernel
    exact behind hnode (by decide) precedes

end Lone

theorem new_node_linked_lone : ∃ index' : HnswIndex Nat,
    @HnswIndex.insert Nat _ Lone.math Lone.index 1 Lone.one = .ok index' ∧
    (∃ y, Linked index'.nodes 2 1 y) ∧ ∃ y, Linked index'.nodes 0 1 y := by
  obtain ⟨index', hinsert⟩ := Lone.exists_insertion
  have hfirst := @new_node_linked Nat _ 2 1 Lone.one Lone.math Lone.index index' Lone.raw
    Lone.accepted Lone.nonempty Lone.not_mem hinsert (by decide) Lone.spare
  have hbase := @new_node_linked Nat _ 0 1 Lone.one Lone.math Lone.index index' Lone.raw
    Lone.accepted Lone.nonempty Lone.not_mem hinsert (by decide) Lone.spare
  exact ⟨index', hinsert, hfirst.1 (@Secured.first Nat _ Lone.math _ _ _ _ (by decide)),
    hbase.1 (@Secured.base Nat _ Lone.math _ _ _ _ rfl (by decide))⟩

/-- A node that joins three layers and has no link at the second. -/
theorem lone_unlinked : ∃ index' : HnswIndex Nat,
    HnswIndex.tryFrom Lone.raw = .ok Lone.index ∧ ¬ Lone.index.nodes.isEmpty ∧
    1 ∉ Lone.index.nodes ∧
    @HnswIndex.insert Nat _ Lone.math Lone.index 1 Lone.one = .ok index' ∧
    1 ≤ min (nextLevel Lone.index.levelState).1 Lone.index.maxLevel ∧
    (∀ (x : Nat) (there : BTreeSet Nat), layer Lone.index.nodes 1 x = some there →
      there.size < degreeLimit Lone.index.config 1) ∧
    ¬ ∃ y, Linked index'.nodes 1 1 y := by
  obtain ⟨-, hinv⟩ := tryFrom_eq_ok.mp Lone.accepted
  obtain ⟨index', hinsert⟩ := Lone.exists_insertion
  have hl : 1 ≤ min (nextLevel Lone.index.levelState).1 Lone.index.maxLevel := by decide
  have hlinked := @insert_links Nat _ 1 1 Lone.one Lone.math Lone.index index' hinv Lone.nonempty
    Lone.not_mem hinsert hl Lone.spare
  have hstranded := @stranded_lone Nat _ 1 1 Lone.one Lone.math Lone.index index' hinv Lone.nonempty
    (by decide +kernel) Lone.not_mem hinsert hl Lone.not_secured
  exact ⟨index', Lone.accepted, Lone.nonempty, Lone.not_mem, hinsert, hl, fun _ _ => Lone.spare,
    fun h => hlinked.mp h hstranded⟩

end Heurema.Hnsw
